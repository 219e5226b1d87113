import MarkupSync.Patch.Script
import MarkupSync.Proofs.Document.JsxNormal
import MarkupSync.Proofs.Document.Yield
import MarkupSync.Proofs.Lexeme.Kind
import MarkupSync.Proofs.Patch.Markup

/-!
# Patched script modules

Documents that are read can be written, so that a module shows what its edits lead to.

* `OpenTag.IsWritable`: a tag that stands for an element that markup can stand for;
* `OpenTag.IsOf.isWritable`: the tags in a text;
* `OpenTag.IsWritable.element`: what a tag says;
* `yields_isWritable`: what such tags make;
* **`Document.isWritable_of_readRootAt`**: the document that a text starts with;
* `FormatOptions.Fixes`: a tree that is read back from its text;
* `ScriptModule.Shows`: the markup that stands in a printed module;
* `ScriptModule.not_shows_of_applyAll`: expressions of several lines are moved to the right;
* **`ScriptModule.shows_of_applyAll`**: without them, the module shows what its edits lead to.
-/

namespace MarkupSync

open Text

/-! ## Tags -/

/-- The name is one of a tag, and what starts with a brace has no value: it spreads properties. -/
structure OpenTag.IsWritable (t : OpenTag) : Prop where
  name : IsTagName t.name
  attributes : ∀ a ∈ t.attributes, a.name.head? = some '\x7b' → a.value = none

/-- Tags in a text can be written. -/
theorem OpenTag.IsOf.isWritable {t : OpenTag} (h : t.IsOf .jsx) : t.IsWritable where
  name := h.name
  attributes a ha hname :=
    (h.attributes a ha).name.elim (fun hword => absurd hname (head?_of_isWord hword)) And.right

/-! ## What tags say -/

theorem head?_of_startsWith_key {name : Text}
    (h : startsWith MarkupAttr.spreadSign (Flavor.key .jsx name) = true) :
    name.head? = some '\x7b' := by
  rw [Flavor.key] at h
  by_cases h1 : name = "className".toList
  · subst h1
    exact absurd h (by decide)
  by_cases h2 : name = "htmlFor".toList
  · subst h2
    exact absurd h (by decide)
  have hlookup : Flavor.renamed.lookup name = none := by
    simp only [Flavor.renamed, Entries.lookup_cons, h1, h2, if_false, List.lookup_nil]
  rw [hlookup] at h
  obtain ⟨r, hr⟩ := Option.isSome_iff_exists.1 h
  rw [Option.getD_none, MarkupAttr.spreadSign] at hr
  rw [eq_of_afterWord? hr]
  rfl

/-- What an attribute says can be written. -/
theorem isWritableEntry_of_meaning {a : RawAttribute}
    (ha : a.name.head? = some '\x7b' → a.value = none) {v : Text}
    (h : AttrMeaning.of (Flavor.key .jsx a.name) a.value = .value v) :
    IsWritableEntry (Flavor.key .jsx a.name, v) := by
  refine ⟨fun hspread => ?_, fun hstyle => ?_⟩
  · rw [ha (head?_of_startsWith_key hspread)] at h
    cases h
    rfl
  · cases hv : a.value with
    | none =>
      rw [hv] at h
      cases h
      exact .inl rfl
    | some raw =>
      replace hstyle : Flavor.key .jsx a.name = styleName := hstyle
      rw [hv, AttrMeaning.of, hstyle] at h
      split at h
      · split at h
        · cases h
        · cases h
          exact .inr (isExpression_braces _)
      · cases h

theorem isWritable_add {c : TagContent} (hc : ∀ e ∈ c.attributes.entries, IsWritableEntry e)
    {a : RawAttribute} (ha : a.name.head? = some '\x7b' → a.value = none) :
    ∀ e ∈ (c.add .jsx a).attributes.entries, IsWritableEntry e := by
  simp only [TagContent.add]
  split
  · exact hc
  · split
    next v hv =>
      intro e he
      obtain rfl | he := Attrs.mem_entries_insert.1 he
      · exact isWritableEntry_of_meaning ha hv
      · exact hc e he.2
    next => exact hc

namespace OpenTag.IsWritable

variable {t : OpenTag} (h : t.IsWritable)
include h

theorem content : ∀ e ∈ (t.content .jsx).attributes.entries, IsWritableEntry e := by
  refine List.foldlRecOn t.attributes (TagContent.add .jsx)
    (motive := fun c => ∀ e ∈ c.attributes.entries, IsWritableEntry e) ?_ ?_
  · rintro e ⟨⟩
  · exact fun c hc a ha => isWritable_add hc (h.attributes a ha)

/-- What a tag says can be written. -/
theorem element {children : List (Node × Place)} (hc : ∀ n ∈ children, n.1.IsWritable)
    (stop : Nat) (inner : Option Span) : (t.element .jsx stop inner children).1.IsWritable := by
  refine ⟨⟨h.name.ne_nil, fun hroot => absurd hroot h.name.ne_rootTag, h.content⟩,
    Node.allEverywhere_iff.2 fun n hn => ?_⟩
  obtain ⟨x, hx, rfl⟩ := List.mem_map.1 hn
  exact hc x hx

end OpenTag.IsWritable

/-- Content that is kept as it is written can be written. -/
theorem OpenTag.isWritable_rawChild (t : OpenTag) : ∀ n ∈ t.rawChild, n.1.IsWritable := by
  simp only [OpenTag.rawChild]
  split
  · rintro _ ⟨⟩
  · split
    · rintro _ ⟨⟩
    · intro n hn
      rw [List.mem_singleton.1 hn]
      trivial

/-! ## Documents -/

/-- **Whatever tags that can be written make can be written.** -/
theorem yields_isWritable :
    Flavor.jsx.Yields (fun l => ∀ t, l = .openTag t → t.IsWritable) fun _ n => n.IsWritable where
  raw h := h
  text _ := trivial
  expression _ := trivial
  rawChild _ := OpenTag.isWritable_rawChild _
  element h hchildren _ := (h _ rfl).element hchildren _ _


theorem Node.isWritable_ofTopLevel {ns : List Node} (h : ∀ n ∈ ns, n.IsWritable) :
    (ofTopLevel ns).IsWritable ∧ (ofTopLevel ns).isText = false := by
  have hroot : (root ns).IsWritable :=
    ⟨⟨by decide, fun _ => ⟨rfl, rfl⟩, by rintro e ⟨⟩⟩, allEverywhere_iff.2 h⟩
  rw [ofTopLevel.eq_def]
  split
  · exact ⟨h _ List.mem_cons_self, rfl⟩
  · exact ⟨hroot, rfl⟩

/-- **The document that a text starts with can be written.** -/
theorem Document.isWritable_of_readRootAt {n stop : Nat} {s : Text} {d : Document}
    (h : readRootAt .jsx n s = .ok (d, stop)) : d.root.IsWritable ∧ d.root.isText = false := by
  have htags : ∀ l ∈ (scan .jsx n s).lexemes, ∀ t, l = .openTag t → t.IsWritable := by
    rintro _ hl t rfl
    exact OpenTag.IsOf.isWritable (isOf_of_mem_scan hl)
  obtain ⟨nodes, hroot, hnodes⟩ := of_readRootAt yields_isWritable htags h
  rw [hroot]
  exact Node.isWritable_ofTopLevel hnodes

/-- The order of attributes does not matter. -/
theorem Node.IsWritable.same {n m : Node} (h : n.IsWritable) (hs : n.Same m) : m.IsWritable := by
  refine Everywhere.same (fun has hst _ hQ => ⟨hQ.1, fun hroot => ⟨?_, ?_⟩, fun e he => ?_⟩) h hs
  · exact Attrs.eq_empty_iff.2 fun e he => Attrs.eq_empty_iff.1 (hQ.2.1 hroot).1 e (has.entries.2 he)
  · exact Attrs.eq_empty_iff.2 fun e he => Attrs.eq_empty_iff.1 (hQ.2.1 hroot).2 e (hst.entries.2 he)
  · exact hQ.2.2 e (has.entries.2 he)

/-! ## Modules -/

/-- The text of a tree is read as the tree. -/
def FormatOptions.Fixes (options : FormatOptions) (target : Node) : Prop :=
  ∃ d, Document.readRootAt .jsx 0 ((options.printer .jsx).print target) =
      .ok (d, width ((options.printer .jsx).print target)) ∧ d.root.Same target

/-- Decides whether the text of a tree is read as the tree. -/
def FormatOptions.fixes (options : FormatOptions) (target : Node) : Bool :=
  match Document.readRootAt .jsx 0 ((options.printer .jsx).print target) with
  | .error _ => false
  | .ok (d, stop) => stop == width ((options.printer .jsx).print target) && d.root.same target

theorem FormatOptions.fixes_iff {options : FormatOptions} {target : Node} :
    options.fixes target = true ↔ options.Fixes target := by
  rw [fixes, Fixes]
  split
  next e he => simp only [he, Bool.false_eq_true, reduceCtorEq, false_and, exists_false]
  next d stop hd =>
    rw [hd, Bool.and_eq_true_iff, beq_iff_eq, Node.same_iff]
    constructor
    · rintro ⟨rfl, hsame⟩
      exact ⟨d, rfl, hsame⟩
    · rintro ⟨d', hd', hsame⟩
      cases hd'
      exact ⟨rfl, hsame⟩

/-- The text of a tree is read as the tree, in whichever order its attributes stand, and its lexemes
stay as they are when they are put further in. -/
def FormatOptions.FixesSteadily (options : FormatOptions) (target : Node) : Prop :=
  ∀ n, n.Same target → options.Fixes n ∧
    ∀ l ∈ (scan .jsx 0 ((options.printer .jsx).print n)).lexemes, l.IsSteady

namespace ScriptModule

/-- The markup behind the front of a printed module is read as a tree, and the rest of the module
follows it. -/
def Shows (options : FormatOptions) (m : ScriptModule) (target : Node) : Prop :=
  ∃ d, Document.readRootAt .jsx (width m.front)
      (Text.after (width m.front) (m.print options)) =
        .ok (d, width (m.print options) - width m.back) ∧ d.root.Same target

/-- The document in `region` and the module after the edits that lead from it to `target`. -/
def edited? (source : Text) (region : Span) (target : Node) : Option (Document × ScriptModule) :=
  match Document.readRootWithin .jsx region source with
  | .error _ => none
  | .ok (d, stop) =>
    if stop = region.stop then
      ((ofDocument source d region).applyAll (d.root.diff target)).result.toOption.map (d, ·)
    else none

theorem of_edited? {source : Text} {region : Span} {target : Node} {d : Document} {m : ScriptModule}
    (h : edited? source region target = some (d, m)) :
    Document.readRootWithin .jsx region source = .ok (d, region.stop) ∧
      ((ofDocument source d region).applyAll (d.root.diff target)).result = .ok m := by
  rw [edited?] at h
  split at h
  · cases h
  next d' stop hread =>
    split at h
    next hstop =>
      obtain ⟨m', hm, h⟩ := Option.map_eq_some_iff.1 h
      cases h
      exact ⟨hstop ▸ hread, eq_ok_of_toOption hm⟩
    next => cases h

/-- Whether a module read from the markup in `region` shows another tree than `target` after the
edits that lead there, although the printer fixes `target`. -/
def misses? (source : Text) (region : Span) (target : Node) : Option Bool := do
  let (_, m) ← edited? source region target
  let (shown, _) ← (Document.readRootAt .jsx (width m.front)
    (Text.after (width m.front) (m.print {}))).toOption
  some (FormatOptions.fixes {} target && !shown.root.same target)

theorem exists_of_misses? {source : Text} {region : Span} {target : Node}
    (h : misses? source region target = some true) :
    ∃ d m, Document.readRootWithin .jsx region source = .ok (d, region.stop) ∧
      FormatOptions.Fixes {} target ∧
      ((ofDocument source d region).applyAll (d.root.diff target)).result = .ok m ∧
      ¬ Shows {} m target := by
  obtain ⟨⟨d, m⟩, hedited, h⟩ := Option.bind_eq_some_iff.1 h
  obtain ⟨⟨shown, k⟩, hshown, h⟩ := Option.bind_eq_some_iff.1 h
  obtain ⟨hfixes, hdiffers⟩ := Bool.and_eq_true_iff.1 (Option.some.inj h)
  obtain ⟨hread, happly⟩ := of_edited? hedited
  refine ⟨d, m, hread, FormatOptions.fixes_iff.1 hfixes, happly, ?_⟩
  rintro ⟨shown', hshown', hsame'⟩
  rw [eq_ok_of_toOption hshown] at hshown'
  cases hshown'
  rw [Bool.not_eq_true', (Node.same_iff _ _).2 hsame'] at hdiffers
  cases hdiffers

/-- An attribute is added to an element that holds a call over two lines: the second line of the
call is put further in. -/
theorem not_shows_of_applyAll :
    let source := "(\n  <p>\x7bf(\n1)\x7d</p>\n)".toList
    let region : Span := ⟨4, 18⟩
    let target : Node :=
      .element "p".toList (.ofList [("id".toList, "a".toList)]) .empty [.text "\x7bf(\n1)\x7d".toList]
    ∃ d m, Document.readRootWithin .jsx region source = .ok (d, region.stop) ∧
      FormatOptions.Fixes {} target ∧
      ((ofDocument source d region).applyAll (d.root.diff target)).result = .ok m ∧
      ¬ Shows {} m target :=
  exists_of_misses? (by decide +kernel)

/-! ## Markup that stays -/

/-- Edits of a module are edits of its markup. -/
theorem applyAll_eq (m : ScriptModule) (edits : List Edit) :
    m.applyAll edits = ⟨{ m with markup := (Outcome.run Markup.apply m.markup edits).state },
      (Outcome.run Markup.apply m.markup edits).error⟩ := by
  rw [applyAll]
  induction edits generalizing m with
  | nil => rfl
  | cons e edits ih =>
    rw [Outcome.run, Outcome.run, Outcome.andThen, Outcome.andThen]
    cases herror : (m.markup.apply e).error with
    | none =>
      simp only [apply, herror]
      exact ih _
    | some f => simp only [apply, herror]

/-- A module after edits is the module with its markup after the edits. -/
theorem eq_of_applyAll {m m' : ScriptModule} {edits : List Edit}
    (h : (m.applyAll edits).result = .ok m') :
    (Outcome.run Markup.apply m.markup edits).result = .ok m'.markup ∧
      m' = { m with markup := m'.markup } := by
  rw [applyAll_eq, Outcome.result] at h
  rw [Outcome.result]
  cases herror : (Outcome.run Markup.apply m.markup edits).error with
  | none =>
    simp only [herror] at h ⊢
    cases h
    exact ⟨rfl, rfl⟩
  | some e => simp [herror] at h

/-- The markup of a module after the edits of a difference stands for the new tree. -/
theorem same_of_applyAll {source : Text} {region : Span} {d : Document} {stop : Nat}
    (hd : Document.readRootWithin .jsx region source = .ok (d, stop)) {target : Node}
    (htarget : target.IsStyled) (htext : target.isText = false) {m : ScriptModule}
    (hm : ((ofDocument source d region).applyAll (d.root.diff target)).result = .ok m) :
    m.markup.toNode.Same target := by
  obtain ⟨hwritable, helement⟩ := Document.isWritable_of_readRootAt hd
  obtain ⟨htoNode, htidy⟩ := Markup.ofRoot_spec hwritable.isMarkup helement
  obtain ⟨n, hsteps, hsame⟩ := Node.exists_steps_diff Node.IsStyled.inherited false d.root target
    htarget
  have hreplace : ∀ k, .replace [] k ∈ d.root.diff target → k.isText = false := fun k hk => by
    by_cases htag : d.root.tag? = target.tag?
    · exact absurd rfl (Node.ne_replace_of_mem_diff (by simpa [Node.isText] using helement) htag hk k)
    · rw [Node.diff_eq_replace htag, List.mem_singleton] at hk
      cases hk
      exact htext
  rw [Markup.toNode_of_steps hsteps htidy htoNode hreplace (eq_of_applyAll hm).1]
  exact hsame

/-- **The tree that edits lead to is shown**, if putting its text further in does not change it. -/
theorem shows_of_applyAll (options : FormatOptions) {source : Text} {region : Span} {d : Document}
    (hd : Document.readRootWithin .jsx region source = .ok (d, region.stop)) {target : Node}
    (hfixes : options.FixesSteadily target)
    (hstyle : target.Everywhere fun _ as _ _ => (styleName, []) ∉ as.entries) {m : ScriptModule}
    (hm : ((ofDocument source d region).applyAll (d.root.diff target)).result = .ok m) :
    Shows options m target := by
  -- the target is what is read from its text, so it can be written
  obtain ⟨⟨t, ht, hsame⟩, -⟩ := hfixes target (.refl target)
  obtain ⟨hwritable, helement⟩ := Document.isWritable_of_readRootAt ht
  have htext : target.isText = false := (hsame.isText).symm.trans helement
  have hmarkup := same_of_applyAll hd ⟨hwritable.same hsame, hstyle⟩ htext hm
  obtain ⟨⟨shown, hshown, hshownSame⟩, hsteady⟩ := hfixes m.markup.toNode hmarkup
  -- the text of the markup stands further in, with the rest of the module behind it
  have hindent : ∀ c ∈ m.indent, isIndent c = true := by
    rw [(eq_of_applyAll hm).2]
    exact List.all_eq_true.1 (Text.all_isIndent_lineIndent ..)
  rw [← Nat.zero_add (width _)] at hshown
  obtain ⟨d', hd', hroot⟩ :=
    Document.exists_readRootAt_inset m.back hindent hshown hsteady (width m.front)
  refine ⟨d', ?_, hroot ▸ hshownSame.trans hmarkup⟩
  rw [print, List.append_assoc, Text.after_width_append, width_append, width_append,
    ← Nat.add_assoc, Nat.add_sub_cancel]
  exact hd'

/-- An attribute is added and a text is changed. -/
theorem shows_of_applyAll_paragraph :
    let source := "(\n  <p>a</p>\n)".toList
    let region : Span := ⟨4, 12⟩
    let target : Node :=
      .element "p".toList (.ofList [("id".toList, "x".toList)]) .empty [.text "b".toList]
    ∃ d m, Document.readRootWithin .jsx region source = .ok (d, region.stop) ∧
      FormatOptions.FixesSteadily {} target ∧
      target.Everywhere (fun _ as _ _ => (styleName, []) ∉ as.entries) ∧
      ((ofDocument source d region).applyAll (d.root.diff target)).result = .ok m ∧
      Shows {} m target := by
  intro source region target
  obtain ⟨⟨d, m⟩, hedited⟩ := Option.isSome_iff_exists.1
    (show (edited? source region target).isSome = true by decide +kernel)
  obtain ⟨hd, hm⟩ := of_edited? hedited
  have hfixes : FormatOptions.FixesSteadily {} target := fun n hn => by
    obtain rfl : n = target := hn.eq_of_length ⟨by decide, trivial, trivial⟩
    exact ⟨FormatOptions.fixes_iff.1 (by decide +kernel), by decide +kernel⟩
  have hstyle : target.Everywhere fun _ as _ _ => (styleName, []) ∉ as.entries :=
    ⟨by decide, trivial, trivial⟩
  exact ⟨d, m, hd, hfixes, hstyle, hm, shows_of_applyAll {} hd hfixes hstyle hm⟩

end ScriptModule

end MarkupSync
