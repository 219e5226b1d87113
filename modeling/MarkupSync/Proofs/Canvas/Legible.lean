import MarkupSync.Proofs.Canvas.Attributes
import MarkupSync.Proofs.Canvas.Reach
import MarkupSync.Proofs.Canvas.ReadBack
import MarkupSync.Proofs.Canvas.Shown
import MarkupSync.Proofs.Canvas.Spacing
import MarkupSync.Proofs.Text.Lines

/-!
# Documents on the canvas and back

* `Decoration.IsUndecorated`: elements with nothing of the editor's among their attributes and
  classes;
* `Node.IsLegible`: elements whose style and texts say on the canvas what they say in the document;
* `Decoration.head_writtenAttributes`: the attributes of such elements are read as they are;
* **`Document.adapt_render`**: documents of such elements, read from a source file, are read back
  from the canvas as they are;
* `Node.IsNormalTag.isShownTag`: elements that HTML can express are shown as they are, if nothing of
  them is the editor's;
* **`Canvas.exists_redrawn_adapt`**: a normal document that is shown on any canvas is read back as it
  is, and of what was in the container the decoration stays, and nothing else.

Markup of JSX is read into texts whose references are decoded, and these are read once more from the
canvas. Not every text and not every style object stands this.

* `Node.IsSteady`: elements whose style and texts stand it; `Node.isSteady_iff_isLegible`;
* `Decoration.IsShownTag.isLegible`: nothing else is shown as it is;
* `Canvas.adapt_mount`: a document in an empty container;
* **`Document.adapt_iff_isSteady`**: markup of JSX is read back from any canvas exactly if it
  consists of such elements;
* `Document.not_adapt_render_jsx`: markup that is not.
-/

namespace MarkupSync

open Text

/-! ## What is asked of an element -/

/-- Nothing of an element is the editor's: it is no decoration, and of its attributes and classes
none is left out of a document. Declarations count as an attribute `style`. -/
structure Decoration.IsUndecorated (d : Decoration) (_tag : Text) (as st : Attrs)
    (_cs : List Node) : Prop where
  marks : d.marks (Canvas.writtenAttributes as st) = false
  attributes : ∀ e ∈ (Canvas.writtenAttributes as st).entries, d.hidesAttribute e.1 = false
  classes : ∀ e ∈ as.entries, e.1 = className → isExpression e.2 = false →
    d.editorClasses e.2 = []

/-- A text whose white space the rule of JSX leaves as it is. -/
def Node.IsShownText (raw : Bool) : Node → Prop
  | .text t => Decoration.shownText? .jsx raw t = some t
  | .element .. => True

/-- What an element says is the same when it is written on the canvas and read there: there is no
`style` without a value, declarations are those of their text, texts that are read as one are apart,
and the texts of JSX have no white space to lose. -/
structure Node.IsLegible (flavor : Flavor) (tag : Text) (as st : Attrs) (cs : List Node) :
    Prop where
  style : as.find? styleName ≠ some []
  declarations : isExpression (Style.writeDeclarations st) = false ∧
    Style.readDeclarations (Style.writeDeclarations st) = st
  apart : flavor = .html ∨ isRaw tag = true → TextsApart cs
  texts : flavor = .jsx → ∀ n ∈ cs, n.IsShownText (isRaw tag)

instance (d : Decoration) (tag : Text) (as st : Attrs) (cs : List Node) :
    Decidable (d.IsUndecorated tag as st cs) :=
  decidable_of_iff (d.marks (Canvas.writtenAttributes as st) = false ∧
      (∀ e ∈ (Canvas.writtenAttributes as st).entries, d.hidesAttribute e.1 = false) ∧
      ∀ e ∈ as.entries, e.1 = className → isExpression e.2 = false → d.editorClasses e.2 = [])
    ⟨fun ⟨hm, ha, hc⟩ => ⟨hm, ha, hc⟩, fun ⟨hm, ha, hc⟩ => ⟨hm, ha, hc⟩⟩

instance (raw : Bool) : (n : Node) → Decidable (n.IsShownText raw)
  | .text t => inferInstanceAs (Decidable (Decoration.shownText? .jsx raw t = some t))
  | .element .. => inferInstanceAs (Decidable True)

instance (flavor : Flavor) (tag : Text) (as st : Attrs) (cs : List Node) :
    Decidable (Node.IsLegible flavor tag as st cs) :=
  decidable_of_iff (as.find? styleName ≠ some [] ∧
      (isExpression (Style.writeDeclarations st) = false ∧
        Style.readDeclarations (Style.writeDeclarations st) = st) ∧
      (flavor = .html ∨ isRaw tag = true → TextsApart cs) ∧
      (flavor = .jsx → ∀ n ∈ cs, n.IsShownText (isRaw tag)))
    ⟨fun ⟨hs, hd, ha, ht⟩ => ⟨hs, hd, ha, ht⟩, fun ⟨hs, hd, ha, ht⟩ => ⟨hs, hd, ha, ht⟩⟩

namespace Decoration

variable {d : Decoration} {as st : Attrs}

/-! ## Attributes -/

/-- An attribute of the canvas that a document has as it is. -/
structure Keeps (d : Decoration) (e : Entry) : Prop where
  hides : d.hidesAttribute e.1 = false
  classes : e.1 = className → d.cleanClass? e.2 = some e.2
  style : e.1 = styleName → isExpression e.2 = true

theorem addAttribute_of_keeps {h : Head} {e : Entry} (he : d.Keeps e)
    (hnew : h.attributes.has e.1 = false) :
    d.addAttribute h e = { h with attributes := h.attributes.insert e.1 e.2 } := by
  rw [addAttribute, he.hides, hnew, Bool.or_self, if_neg Bool.false_ne_true]
  split_ifs with hclass hstyle
  · rw [he.classes hclass]
  · simp [he.style hstyle.1] at hstyle
  · rfl

/-- Attributes that a document has as they are, one after another. -/
theorem foldl_addAttribute_of_keeps {es : List Entry} (hd : (names es).Nodup) {h : Head}
    (hes : ∀ e ∈ es, d.Keeps e) (hnew : ∀ e ∈ es, h.attributes.has e.1 = false) :
    es.foldl d.addAttribute h =
      { h with attributes := es.foldl (fun m e => m.insert e.1 e.2) h.attributes } := by
  induction es generalizing h with
  | nil => rfl
  | cons e es ih =>
    obtain ⟨hnot, hd⟩ := List.nodup_cons.1 hd
    have hkeeps := hes e List.mem_cons_self
    rw [List.foldl_cons, addAttribute_of_keeps hkeeps (hnew e List.mem_cons_self)]
    refine ih hd (fun f hf => hes f (List.mem_cons_of_mem e hf)) fun f hf => ?_
    have hne : f.1 ≠ e.1 := fun hk => hnot (List.mem_map.2 ⟨f, hf, hk⟩)
    rw [Attrs.has, Attrs.find?_insert, if_neg hne]
    exact hnew f (List.mem_cons_of_mem e hf)

theorem head_of_keeps (h : ∀ e ∈ as.entries, d.Keeps e) : d.head as = ⟨as, .empty⟩ := by
  rw [head, foldl_addAttribute_of_keeps as.nodup h fun _ _ => rfl]
  congr 1
  exact Attrs.ext (Attrs.entries_ofList as.nodup)

/-- A `style` attribute behind the others is read as declarations. -/
theorem head_insert_style (h : ∀ e ∈ as.entries, d.Keeps e) (hnew : as.has styleName = false)
    (hhides : d.hidesAttribute styleName = false) {css : Text} (hplain : isExpression css = false) :
    d.head (as.insert styleName css) = ⟨as, Style.readDeclarations css⟩ := by
  have hnames := mt Attrs.has_eq_true_iff.2 (Bool.eq_false_iff.1 hnew)
  have has : as.entries.foldl d.addAttribute ⟨.empty, .empty⟩ = ⟨as, .empty⟩ := head_of_keeps h
  rw [head, Attrs.entries_insert_of_not_mem hnames, List.foldl_append, has, List.foldl_cons,
    List.foldl_nil, addAttribute, hhides, hnew]
  simp [className_ne_styleName.symm, hplain]

section Element

variable {flavor : Flavor} {tag : Text} {cs : List Node}
  (hspaced : Node.IsSpacedTag flavor tag as st cs) (hfree : d.IsUndecorated tag as st cs)
  (hlegible : Node.IsLegible flavor tag as st cs)

include hspaced hfree hlegible

theorem keeps_of_mem {e : Entry} (he : e ∈ as.entries) (hhides : d.hidesAttribute e.1 = false) :
    d.Keeps e := by
  refine ⟨hhides, fun hclass => ?_, fun hstyle => ?_⟩
  · rw [cleanClass?]
    by_cases hplain : isExpression e.2 = true
    · rw [if_pos hplain]
    · rw [Bool.not_eq_true] at hplain
      rw [hplain, hfree.classes e he hclass hplain, hspaced.classes e he hclass hplain]
      rfl
  · refine (hspaced.styles e he hstyle).resolve_left fun hnil => hlegible.style ?_
    exact Attrs.find?_of_mem (hstyle ▸ hnil ▸ he)

/-- **The attributes and declarations of an element without decoration are read as they are.** -/
theorem head_writtenAttributes : d.head (Canvas.writtenAttributes as st) = ⟨as, st⟩ := by
  have hhides := hfree.attributes
  rw [Canvas.writtenAttributes] at hhides ⊢
  split_ifs at hhides ⊢ with hst
  · rw [head_of_keeps fun e he => keeps_of_mem hspaced hfree hlegible he (hhides e he),
      Attrs.eq_empty_of_isEmpty hst]
  · have hnew : as.has styleName = false := Bool.eq_false_iff.2 fun h => hst (hspaced.style h)
    have hnames := mt Attrs.has_eq_true_iff.2 (Bool.eq_false_iff.1 hnew)
    rw [Attrs.entries_insert_of_not_mem hnames] at hhides
    obtain ⟨hold, hstyle⟩ := List.forall_mem_append.1 hhides
    have hkeeps := fun e he => keeps_of_mem hspaced hfree hlegible he (hold e he)
    rw [head_insert_style hkeeps hnew (hstyle _ List.mem_cons_self) hlegible.declarations.1,
      hlegible.declarations.2]

/-- **An element of a source file without decoration is shown on the canvas as it is.** -/
theorem isShownTag : d.IsShownTag flavor tag as st cs := by
  refine ⟨hfree.marks, head_writtenAttributes hspaced hfree hlegible, fun t ht => ?_,
    hlegible.apart⟩
  cases flavor with
  | html => exact hspaced.texts rfl t ht
  | jsx => exact hlegible.texts rfl _ ht

end Element

end Decoration

/-- **The document of a source file without decoration is read back from the canvas as it is.** -/
theorem Document.adapt_render {dialect : Dialect} {s : Text} {doc : Document} {d : Decoration}
    {c c' : Canvas} (hread : ofSource dialect s = .ok doc) (hc : c.IsSound)
    (hfree : doc.root.Everywhere d.IsUndecorated)
    (hlegible : doc.root.Everywhere (Node.IsLegible dialect.flavor))
    (h : (c.render d doc.root).result = .ok c') : c'.adapt d dialect.flavor = doc.root := by
  obtain ⟨hspaced, htop⟩ := isSpaced_ofSource hread
  refine Canvas.adapt_render hc ?_ ?_ htop h
  · refine Node.Everywhere.mono ?_ ((hspaced.and hfree).and hlegible)
    exact fun ⟨⟨hspaced, hfree⟩, hlegible⟩ => Decoration.isShownTag hspaced hfree hlegible
  · rw [htop]
    exact Node.isElement_ofTopLevel _

/-! ## Normal documents -/

namespace Node.IsNormalTag

variable {d : Decoration} {tag : Text} {as st : Attrs} {cs : List Node}
  (h : Node.IsNormalTag tag as st cs)

include h

theorem has_styleName : as.has styleName = false := by
  refine Bool.eq_false_iff.2 fun hs => ?_
  obtain ⟨e, he, hs⟩ := List.mem_map.1 (Attrs.has_eq_true_iff.1 hs)
  exact (h.attributes e he).name_ne_style hs

theorem isSpacedTag : Node.IsSpacedTag .html tag as st cs where
  classes e he hclass _ := (h.attributes e he).classes hclass
  styles e he hstyle := absurd hstyle (h.attributes e he).name_ne_style
  style hstyle := Bool.noConfusion (hstyle.symm.trans h.has_styleName)
  texts _ t ht := by
    obtain ⟨hne, ht⟩ := h.texts t ht
    cases hraw : isRaw tag with
    | true =>
      rw [if_pos hraw] at ht
      rw [Decoration.runText?_raw, ht, if_neg hne]
    | false =>
      rw [hraw, if_neg Bool.false_ne_true] at ht
      show collapsed? t = some t
      rw [collapsed?, ht, if_neg hne]

theorem isLegible : Node.IsLegible .html tag as st cs where
  style hs := by
    have hnone := h.has_styleName
    rw [Attrs.has, hs] at hnone
    cases hnone
  declarations := ⟨Decoration.isExpression_writeDeclarations h.style,
    Style.readDeclarations_writeDeclarations h.style⟩
  apart _ := h.apart
  texts := nofun

/-- **An element that HTML can express is shown as it is**, if nothing of it is the editor's. -/
theorem isShownTag (hfree : d.IsUndecorated tag as st cs) : d.IsShownTag .html tag as st cs :=
  Decoration.isShownTag h.isSpacedTag hfree h.isLegible

end Node.IsNormalTag

namespace Canvas

variable {c : Canvas} {d : Decoration} {n : Node}

/-- **A normal document without decoration that is shown on any canvas is read back as it is.** The
decoration that the container has stays in it, in front of new nodes; nothing else stays. -/
theorem exists_redrawn_adapt (hc : c.IsBuilt) (hn : n.IsNormalDocument)
    (hfree : n.Everywhere d.IsUndecorated) :
    ∃ c' xs, c.render d n = ⟨c', none⟩ ∧ c'.adapt d .html = n ∧
      c'.children container = (c.children container).filter (c.isDecoration d) ++ xs ∧
      (∀ x ∈ xs, c.nodes.length ≤ x) ∧
      ∀ x ∈ c.children container, c'.isDecoration d x = c.isDecoration d x ∧
        (x ∈ c'.children container ↔ c.isDecoration d x = true) := by
  obtain ⟨c', hredrawn⟩ := exists_redrawn hc.isSound d n
  obtain ⟨xs, hxs, hchildren⟩ := hredrawn.children
  have hshown : n.Everywhere (d.IsShownTag .html) :=
    (hn.everywhere.and hfree).mono fun h => h.1.isShownTag h.2
  have hadapt : c'.adapt d .html = n :=
    adapt_render hc.isSound hshown hn.isElement hn.topLevel.2.2.symm
      (by rw [hredrawn.render]; rfl)
  refine ⟨c', xs, hredrawn.render, hadapt, hchildren, hxs, fun x hx => ?_⟩
  have hlt := lt_of_parent? (hc.isSound.forest.mem_children.1 hx)
  refine ⟨hredrawn.isDecoration x hlt, ?_⟩
  rw [hchildren, List.mem_append, List.mem_filter]
  refine ⟨fun h => ?_, fun h => .inl ⟨hx, h⟩⟩
  obtain h | h := h
  · exact h.2
  · exact absurd hlt (Nat.not_lt.2 (hxs x h))

/-- A button of the editor beside a card: another card is shown, and the button stays. -/
theorem exists_redrawn_adapt_card :
    let d : Decoration := ⟨[['s']], [['r']], [], ['u']⟩
    let c := Canvas.ofNode (.root [button, card [.text ['a']]])
    let n := card [.element ['b'] .empty .empty [.text ['\u00a0']], .text ['c']]
    ∃ c', c.render d n = ⟨c', none⟩ ∧ c'.adapt d .html = n ∧ 1 ∈ c'.children container ∧
      3 ∉ c'.children container := by
  intro d c n
  obtain ⟨c', xs, hrender, hadapt, -, -, hold⟩ :=
    exists_redrawn_adapt (d := d) (c := c) (n := n) (.mount .empty _) (by decide) (by decide)
  exact ⟨c', hrender, hadapt, (hold 1 (by decide)).2.2 (by decide),
    fun h => Bool.noConfusion ((hold 3 (by decide)).2.1 h)⟩

/-- The attributes of a wrapping root and a declaration without a name are not read back. -/
theorem not_adapt_render :
    let d : Decoration := ⟨[['s']], [['r']], [], ['u']⟩
    (markedRoot.Everywhere d.IsUndecorated ∧
      ∃ c', empty.render d markedRoot = ⟨c', none⟩ ∧ c'.adapt d .html ≠ markedRoot) ∧
    namelessStyle.Everywhere d.IsUndecorated ∧
      ∃ c', empty.render d namelessStyle = ⟨c', none⟩ ∧ c'.adapt d .html ≠ namelessStyle := by
  refine ⟨⟨by decide, _, rfl, fun h => ?_⟩, by decide, _, rfl, fun h => ?_⟩
  · have h : Node.root [.text ['x']] = markedRoot := h
    cases h
  · have h : Node.element ['p'] .empty .empty [] = namelessStyle := h
    cases h

end Canvas

/-! ## Elements in markup of JSX -/

/-- What an element says in JSX stands being read from the canvas. -/
structure Node.IsSteady (tag : Text) (as st : Attrs) (cs : List Node) : Prop where
  /-- There is no `style` without a value. -/
  style : as.find? styleName ≠ some []
  /-- Declarations are those of their text. -/
  declarations : isExpression (Style.writeDeclarations st) = false ∧
    Style.readDeclarations (Style.writeDeclarations st) = st
  /-- Texts stand on one line, have no carriage return at the end and are not all white space. -/
  lines : isRaw tag = false → ∀ t, .text t ∈ cs →
    '\n' ∉ t ∧ (∀ c ∈ t.getLast?, (c == '\r') = false) ∧ ∃ c ∈ t, isSpace c = false
  /-- Where the content is kept as it is written, texts have no blanks at their ends. -/
  ends : isRaw tag = true → ∀ t, .text t ∈ cs → t ≠ [] ∧ trim isBlank t = t
  /-- There no two of them stand side by side. -/
  apart : isRaw tag = true → TextsApart cs

/-- A text without blanks at its ends is kept as it is written. -/
theorem Decoration.runText?_raw_eq_self_iff {t : Text} :
    runText? true t = some t ↔ t ≠ [] ∧ trim isBlank t = t := by
  rw [runText?_raw]
  split
  next hnil =>
    refine ⟨nofun, fun ⟨hne, ht⟩ => absurd (ht.symm.trans hnil) hne⟩
  next hnil =>
    refine ⟨fun h => ?_, fun ⟨_, ht⟩ => congrArg some ht⟩
    have ht := Option.some.inj h
    exact ⟨ht ▸ hnil, ht⟩

theorem Node.isSteady_iff_isLegible {tag : Text} {as st : Attrs} {cs : List Node} :
    IsSteady tag as st cs ↔ IsLegible .jsx tag as st cs := by
  have htext (t : Text) : IsShownText (isRaw tag) (.text t) ↔
      (isRaw tag = false → '\n' ∉ t ∧ (∀ c ∈ t.getLast?, (c == '\r') = false) ∧
        ∃ c ∈ t, isSpace c = false) ∧
      (isRaw tag = true → t ≠ [] ∧ trim isBlank t = t) := by
    rw [IsShownText, Decoration.shownText?]
    cases isRaw tag with
    | false => simpa using joinedLines?_eq_self_iff
    | true => simpa using Decoration.runText?_raw_eq_self_iff
  constructor
  · intro h
    have hapart (hraw : Flavor.jsx = .html ∨ isRaw tag = true) : TextsApart cs :=
      h.apart (hraw.resolve_left fun hflavor => Flavor.noConfusion hflavor)
    refine ⟨h.style, h.declarations, hapart, fun _ n hn => ?_⟩
    cases n with
    | element => trivial
    | text t => exact (htext t).2 ⟨fun hraw => h.lines hraw t hn, fun hraw => h.ends hraw t hn⟩
  · intro h
    have htexts := fun t ht => (htext t).1 (h.texts rfl _ ht)
    exact ⟨h.style, h.declarations, fun hraw t ht => (htexts t ht).1 hraw,
      fun hraw t ht => (htexts t ht).2 hraw, fun hraw => h.apart (.inr hraw)⟩

instance (tag : Text) (as st : Attrs) (cs : List Node) : Decidable (Node.IsSteady tag as st cs) :=
  decidable_of_iff _ Node.isSteady_iff_isLegible.symm

namespace Decoration

variable {d : Decoration} {flavor : Flavor} {tag : Text} {as st : Attrs} {cs : List Node}

/-- Declarations that are read as they are, are those of their text. -/
theorem declarations_of_head (h : (d.head (Canvas.writtenAttributes as st)).style = st) :
    isExpression (Style.writeDeclarations st) = false ∧
      Style.readDeclarations (Style.writeDeclarations st) = st := by
  by_cases hst : st.isEmpty = true
  · rw [Attrs.eq_empty_of_isEmpty hst]
    exact ⟨rfl, rfl⟩
  · rw [Canvas.writtenAttributes, if_neg hst, style_head, Attrs.find?_insert, if_pos rfl,
      shownStyle] at h
    split at h
    next =>
      rw [← h] at hst
      exact absurd rfl hst
    next hshown =>
      rw [Bool.or_eq_true, not_or, Bool.not_eq_true, Bool.not_eq_true] at hshown
      exact ⟨hshown.2, h⟩

/-- What is shown of an element as it is, is legible. -/
theorem IsShownTag.isLegible (hspaced : Node.IsSpacedTag flavor tag as st cs)
    (h : d.IsShownTag flavor tag as st cs) : Node.IsLegible flavor tag as st cs where
  style hstyle := by
    have hempty := hspaced.style (by rw [Attrs.has, hstyle]; rfl)
    have hhead := h.head
    rw [Canvas.writtenAttributes, if_pos hempty] at hhead
    have hfind := find?_head d as styleName
    rw [hhead, hstyle, Option.bind_some, shownValue?, if_neg className_ne_styleName.symm] at hfind
    split_ifs at hfind with _ hexpr
    exact hexpr ⟨rfl, rfl⟩
  declarations := declarations_of_head (by rw [h.head])
  apart := h.texts.apart
  texts := by
    rintro rfl n hn
    cases n with
    | element => trivial
    | text t => exact h.texts.texts t hn

end Decoration

/-! ## Documents -/

namespace Canvas

variable {c : Canvas} {d : Decoration} {flavor : Flavor}

/-- What is read of a document in an empty container. -/
theorem adapt_mount (hc : c.IsSound) (n : Node) : (c.mount n).adapt d flavor =
    .ofTopLevel (d.adaptAll flavor false [] (Node.allLive n.topLevel)) := by
  obtain ⟨hforest, name, live, hx⟩ := hc
  refine adapt_createAll hforest.emptied (data?_emptied.trans hx) (fun y hy => ?_) n.topLevel
  rw [children_emptied, if_pos rfl] at hy
  cases hy

end Canvas

namespace Document

variable {s : Text} {start stop : Nat} {doc : Document} {d : Decoration}

/-- **Markup of JSX without decoration is read back from any canvas on which it is shown exactly if
all its elements are steady.** -/
theorem adapt_iff_isSteady {c : Canvas} (hread : readRootAt .jsx start s = .ok (doc, stop))
    (hc : c.IsBuilt) (hfree : doc.root.Everywhere d.IsUndecorated) :
    ∃ c', c.render d doc.root = ⟨c', none⟩ ∧
      (c'.adapt d .jsx = doc.root ↔ doc.root.Everywhere Node.IsSteady) ∧
      ((c.mount doc.root).adapt d .jsx = doc.root ↔ doc.root.Everywhere Node.IsSteady) := by
  obtain ⟨nodes, hroot, hnodes⟩ :=
    of_readRootAt (yields_isSpaced .jsx) (fun _ => isOf_of_mem_scan) hread
  obtain ⟨hspaced, htop, hroots⟩ := Node.isSpaced_ofTopLevel hnodes
  rw [hroot] at hfree ⊢
  have hiff : .ofTopLevel (d.adaptAll .jsx false [] (Node.allLive nodes)) = Node.ofTopLevel nodes ↔
      (Node.ofTopLevel nodes).Everywhere Node.IsSteady := by
    have hmarks : (Node.ofTopLevel nodes).Everywhere d.IsUnmarked := hfree.mono fun h => h.marks
    have hback := @Canvas.ofTopLevel_adaptAll_iff d .jsx _ hmarks (Node.isElement_ofTopLevel _)
      (by rw [htop]) (by rwa [htop])
    rw [htop] at hback
    refine hback.trans ⟨fun h => ?_, fun h => ?_⟩
    · exact (hspaced.and h).mono fun ⟨hspaced, h⟩ =>
        Node.isSteady_iff_isLegible.2 (h.isLegible hspaced)
    · exact ((hspaced.and hfree).and h).mono fun ⟨⟨hspaced, hfree⟩, h⟩ =>
        Decoration.isShownTag hspaced hfree (Node.isSteady_iff_isLegible.1 h)
  obtain ⟨c', hredrawn⟩ := Canvas.exists_redrawn hc.isSound d (.ofTopLevel nodes)
  refine ⟨c', hredrawn.render, ?_, ?_⟩
  · rw [hredrawn.adapt, htop, hiff]
  · rw [Canvas.adapt_mount hc.isSound, htop, hiff]

/-- A card with an expression in a text, and declarations. -/
theorem adapt_iff_isSteady_card :
    let d : Decoration := ⟨[['s']], [['r']], [], ['u']⟩
    let s := "<div style=\x7b\x7bcolor: 'red'\x7d\x7d>a \x7bb\x7d<p>c</p></div>".toList
    ∃ doc stop c', readRootAt .jsx 0 s = .ok (doc, stop) ∧
      Canvas.empty.render d doc.root = ⟨c', none⟩ ∧ c'.adapt d .jsx = doc.root := by
  intro d s
  have h : ((readRootAt .jsx 0 s).toOption.map fun x =>
      decide (x.1.root.Everywhere d.IsUndecorated ∧ x.1.root.Everywhere Node.IsSteady)) =
        some true := by
    decide +kernel
  obtain ⟨⟨doc, stop⟩, hread, h⟩ := Option.map_eq_some_iff.1 h
  obtain ⟨hfree, hsteady⟩ := of_decide_eq_true h
  have hread := eq_ok_of_toOption hread
  obtain ⟨c', hrender, hadapt, -⟩ := adapt_iff_isSteady hread .empty hfree
  exact ⟨doc, stop, c', hread, hrender, hadapt.2 hsteady⟩

/-- A line break or a space that is written as a reference, two texts where the content is kept as it
is written, and a semicolon in a declaration do not stand being read from the canvas. -/
theorem not_adapt_render_jsx :
    let d : Decoration := ⟨[['s']], [['r']], [], ['u']⟩
    let IsLost (s : String) : Prop := ∃ doc stop c', readRootAt .jsx 0 s.toList = .ok (doc, stop) ∧
      doc.root.Everywhere d.IsUndecorated ∧
      (doc.root.Everywhere fun _ as _ _ => as.has styleName = false) ∧
      Canvas.empty.render d doc.root = ⟨c', none⟩ ∧ ¬ (c'.adapt d .jsx).Same doc.root
    IsLost "<p>a&#10;b</p>" ∧ IsLost "<p>&nbsp;</p>" ∧ IsLost "<pre>a\x7bb\x7d</pre>" ∧
      IsLost "<p style=\x7b\x7bcontent: 'a;b'\x7d\x7d></p>" := by
  intro d IsLost
  have lost {s : String} (h : ((readRootAt .jsx 0 s.toList).toOption.map fun x =>
      decide (x.1.root.Everywhere d.IsUndecorated ∧
        x.1.root.Everywhere fun _ as _ _ => as.has styleName = false) &&
      !((Canvas.empty.render d x.1.root).state.adapt d .jsx).same x.1.root) = some true) :
      IsLost s := by
    obtain ⟨⟨doc, stop⟩, hread, h⟩ := Option.map_eq_some_iff.1 h
    obtain ⟨h, hsame⟩ := Bool.and_eq_true_iff.1 h
    obtain ⟨hfree, hstyle⟩ := of_decide_eq_true h
    obtain ⟨c', hredrawn⟩ := Canvas.exists_redrawn Canvas.IsBuilt.empty.isSound d doc.root
    have hrender := hredrawn.render
    refine ⟨doc, stop, c', eq_ok_of_toOption hread, hfree, hstyle, hrender, fun hs => ?_⟩
    rw [hrender, (Node.same_iff _ _).2 hs] at hsame
    cases hsame
  exact ⟨lost (by decide +kernel), lost (by decide +kernel), lost (by decide +kernel),
    lost (by decide +kernel)⟩

end Document

end MarkupSync
