import Mathlib.Data.List.Forall2
import MarkupSync.Proofs.Document.Front
import MarkupSync.Proofs.Document.Shift
import MarkupSync.Proofs.Document.Spans
import MarkupSync.Proofs.Patch.Document
import MarkupSync.Proofs.Patch.Origin
import MarkupSync.Proofs.Tree.Local

/-!
# Documents with another open tag

Another tag in place of an open tag changes the element of that tag, and leaves the rest of the
document as it is.

* `Lexeme.Corresponds`, `Reader.Corresponds`: lexemes of which related tags are read, and readers of
  related nodes;
* **`Flavor.Relates.steps`**: reading keeps nodes related, if related tags make related nodes;
* `Node.retag`: what a document becomes if one of its tags says something else;
* `Node.IsTagged`: every element has what an open tag says;
* `Document.isTagged_read`: the elements of a document that is read have what its tags say;
* **`Document.exists_read_retag`**: a document is read with another tag in place of one of its own;
* **`Document.IsSound.retag_eq`**: only the element of that tag changes.
-/

namespace MarkupSync

open Text

/-! ## Reading related lexemes -/

section Relation

variable {flavor : Flavor} {T : OpenTag → OpenTag → Prop} {R : Node × Place → Node × Place → Prop}

variable (T) in
/-- Lexemes of one kind, wherever they stand. -/
inductive Lexeme.Corresponds : Lexeme → Lexeme → Prop
  | openTag {t t' : OpenTag} (h : T t t') : Corresponds (.openTag t) (.openTag t')
  | closeTag (name : Text) (span span' : Span) :
    Corresponds (.closeTag name span) (.closeTag name span')
  | fragmentOpen (span span' : Span) : Corresponds (.fragmentOpen span) (.fragmentOpen span')
  | fragmentClose (span span' : Span) : Corresponds (.fragmentClose span) (.fragmentClose span')
  | text (content : Text) (span span' : Span) :
    Corresponds (.text content span) (.text content span')
  | expression (content : Text) (span span' : Span) :
    Corresponds (.expression content span) (.expression content span')

theorem Lexeme.corresponds_self {l : Lexeme} (h : ∀ t, l = .openTag t → T t t) :
    Lexeme.Corresponds T l l := by
  cases l with
  | openTag t => exact .openTag (h t rfl)
  | closeTag | fragmentOpen | fragmentClose | text | expression => constructor

variable (T) in
/-- Open tags that are related, and open fragments. -/
inductive Opened.Corresponds : Opened → Opened → Prop
  | element {t t' : OpenTag} (h : T t t') : Corresponds (.element t) (.element t')
  | fragment (span span' : Span) : Corresponds (.fragment span) (.fragment span')

variable (T R) in
/-- Readers of related nodes and tags. -/
structure Reader.Corresponds (r r' : Reader) : Prop where
  nodes : List.Forall₂ R r.nodes r'.nodes
  run : r'.run.map Prod.fst = r.run.map Prod.fst
  stack : List.Forall₂ (fun o o' => Opened.Corresponds T o.1 o'.1 ∧ List.Forall₂ R o.2 o'.2)
    r.stack r'.stack

variable (flavor T R) in
/-- Related tags make related elements, and texts are related to themselves. -/
structure Flavor.Relates : Prop where
  name : ∀ {t t'}, T t t' → t'.name = t.name
  selfClosing : ∀ {t t'}, T t t' → t'.selfClosing = t.selfClosing
  raw : ∀ {t t'}, T t t' → t'.raw.map Prod.fst = t.raw.map Prod.fst
  text : ∀ content span span', R (.text content, .text span) (.text content, .text span')
  element : ∀ {t t'}, T t t' → ∀ stop stop' inner inner' {cs cs'}, List.Forall₂ R cs cs' →
    R (t.element flavor stop inner cs) (t'.element flavor stop' inner' cs')

namespace Flavor.Relates

variable (h : flavor.Relates T R) {r r' r₁ : Reader} {l l' : Lexeme}
include h

theorem rawChild {t t' : OpenTag} (ht : T t t') : List.Forall₂ R t.rawChild t'.rawChild := by
  have hraw := h.raw ht
  unfold OpenTag.rawChild
  cases hr : t.raw <;> cases hr' : t'.raw <;> rw [hr, hr'] at hraw
  case none.none => exact .nil
  case some.some raw raw' =>
    obtain ⟨content, span⟩ := raw
    obtain ⟨content', span'⟩ := raw'
    obtain rfl : content' = content := Option.some.inj hraw
    simp only
    split_ifs
    · exact .nil
    · exact .cons (h.text ..) .nil
  all_goals cases hraw

theorem flush (hr : r.Corresponds T R r') : (r.flush flavor).Corresponds T R (r'.flush flavor) := by
  have hnil : r'.run = [] ↔ r.run = [] := by
    rw [← List.map_eq_nil_iff (f := Prod.fst), hr.run, List.map_eq_nil_iff]
  have hcontent : r'.run.flatMap Prod.fst = r.run.flatMap Prod.fst := by
    rw [List.flatMap_def, hr.run, ← List.flatMap_def]
  simp only [Reader.flush, hnil]
  split_ifs
  · exact hr
  · simp only [runNode?, hcontent]
    cases flowText? flavor (r.run.flatMap Prod.fst) with
    | none => exact ⟨hr.nodes, rfl, hr.stack⟩
    | some content => exact ⟨.cons (h.text ..) hr.nodes, rfl, hr.stack⟩

/-- A lexeme is read as its counterpart is, behind runs that have ended. -/
theorem stepTag (hr : r.Corresponds T R r') (hl : l.Corresponds T l')
    (hstep : r.stepTag flavor l = .ok r₁) :
    ∃ r₁', r'.stepTag flavor l' = .ok r₁' ∧ r₁.Corresponds T R r₁' := by
  obtain ⟨nodes, run, stack⟩ := r
  obtain ⟨nodes', run', stack'⟩ := r'
  obtain ⟨hnodes, hrun, hstack⟩ := hr
  cases hl with
  | @openTag t t' ht =>
    simp only [Reader.stepTag, h.name ht, h.selfClosing ht] at hstep ⊢
    split_ifs at hstep ⊢
    · cases hstep
      exact ⟨_, rfl, .cons (h.element ht _ _ _ _ .nil) hnodes, hrun, hstack⟩
    · cases hstep
      exact ⟨_, rfl, h.rawChild ht, hrun, .cons ⟨.element ht, hnodes⟩ hstack⟩
  | closeTag name span span' =>
    cases hstack with
    | nil => cases hstep
    | @cons x y stack stack' hxy hstack =>
      obtain ⟨opened, before⟩ := x
      obtain ⟨opened', before'⟩ := y
      obtain ⟨hopened, hbefore⟩ := hxy
      cases hopened with
      | fragment => cases hstep
      | @element t t' ht =>
        simp only [Reader.stepTag, h.name ht] at hstep ⊢
        split_ifs at hstep ⊢
        cases hstep
        exact ⟨_, rfl, .cons (h.element ht _ _ _ _ (List.forall₂_reverse_iff.2 hnodes)) hbefore, hrun,
          hstack⟩
  | fragmentOpen span span' =>
    cases hstep
    exact ⟨_, rfl, .nil, hrun, .cons ⟨.fragment .., hnodes⟩ hstack⟩
  | fragmentClose span span' =>
    cases hstack with
    | nil => cases hstep
    | @cons x y stack stack' hxy hstack =>
      obtain ⟨opened, before⟩ := x
      obtain ⟨opened', before'⟩ := y
      obtain ⟨hopened, hbefore⟩ := hxy
      cases hopened with
      | element => cases hstep
      | fragment =>
        cases hstep
        exact ⟨_, rfl, List.rel_append hnodes hbefore, hrun, hstack⟩
  | text content span span' =>
    cases hstep
    exact ⟨_, rfl, hnodes, by simpa using hrun, hstack⟩
  | expression content span span' =>
    cases hstep
    exact ⟨_, rfl, .cons (h.text ..) hnodes, hrun, hstack⟩

/-- A lexeme is read as its counterpart is. -/
theorem step (hr : r.Corresponds T R r') (hl : l.Corresponds T l')
    (hstep : r.step flavor l = .ok r₁) :
    ∃ r₁', r'.step flavor l' = .ok r₁' ∧ r₁.Corresponds T R r₁' := by
  cases hl with
  | text content span span' => exact h.stepTag (l := .text content span) hr (.text ..) hstep
  | openTag ht => exact h.stepTag (l := .openTag _) (h.flush hr) (.openTag ht) hstep
  | closeTag name span span' =>
    exact h.stepTag (l := .closeTag name span) (h.flush hr) (.closeTag ..) hstep
  | fragmentOpen span span' =>
    exact h.stepTag (l := .fragmentOpen span) (h.flush hr) (.fragmentOpen ..) hstep
  | fragmentClose span span' =>
    exact h.stepTag (l := .fragmentClose span) (h.flush hr) (.fragmentClose ..) hstep
  | expression content span span' =>
    exact h.stepTag (l := .expression content span) (h.flush hr) (.expression ..) hstep

/-- **Lexemes are read as their counterparts are.** -/
theorem steps (hr : r.Corresponds T R r') {ls ls' : List Lexeme}
    (hls : List.Forall₂ (Lexeme.Corresponds T) ls ls') (hsteps : r.steps flavor ls = .ok r₁) :
    ∃ r₁', r'.steps flavor ls' = .ok r₁' ∧ r₁.Corresponds T R r₁' := by
  induction hls generalizing r r' with
  | nil =>
    cases hsteps
    exact ⟨r', rfl, hr⟩
  | cons hl _ ih =>
    rw [Reader.steps] at hsteps
    split at hsteps
    · cases hsteps
    next r₂ hstep =>
      obtain ⟨r₂', hstep', hr₂⟩ := h.step hr hl hstep
      rw [Reader.steps, hstep']
      exact ih hr₂ hsteps

/-- The nodes of a text are related to those of another text whose lexemes correspond. -/
theorem nodes {scan scan' : Scan} {ns : List (Node × Place)}
    (hls : List.Forall₂ (Lexeme.Corresponds T) scan.lexemes scan'.lexemes)
    (hfault : scan'.fault.isNone = scan.fault.isNone) (hns : scan.nodes flavor = .ok ns) :
    ∃ ns', scan'.nodes flavor = .ok ns' ∧ List.Forall₂ R ns ns' := by
  rw [Scan.nodes] at hns
  split at hns
  · cases hns
  next r hsteps =>
    obtain ⟨r', hsteps', hr⟩ := h.steps ⟨.nil, rfl, .nil⟩ hls hsteps
    rw [Scan.nodes, hsteps']
    cases hf : scan.fault with
    | some e =>
      rw [hf] at hns
      cases hns
    | none =>
      rw [hf] at hns hfault
      rw [Option.isNone_none, Option.isNone_iff_eq_none] at hfault
      simp only [hfault, Reader.finish] at hns ⊢
      have hstack := hr.stack
      split at hns
      · cases hns
      next hempty =>
        cases hns
        rw [hempty] at hstack
        rw [List.forall₂_nil_left_iff.1 hstack]
        exact ⟨_, rfl, List.forall₂_reverse_iff.2 (h.flush hr).nodes⟩

end Flavor.Relates

end Relation

/-! ## Elements and their tags -/

namespace Node

mutual

/-- What a document becomes if the open tag at `span` says the attributes `as` and the declarations
`st`. -/
def retag (span : Span) (as st : Attrs) : Node → Place → Node
  | .element tag attributes style children, .element e places =>
    .element tag (if e.openTag = some span then as else attributes)
      (if e.openTag = some span then st else style) (retagAll span as st children places)
  | n, _ => n

/-- What the nodes of a list become. -/
def retagAll (span : Span) (as st : Attrs) : List Node → List Place → List Node
  | n :: ns, p :: ps => n.retag span as st p :: retagAll span as st ns ps
  | ns, _ => ns

end

mutual

/-- Every element has what an open tag with the property `P` says, which stands where its place
records it. -/
def IsTagged (P : OpenTag → Prop) : Node → Place → Prop
  | .element tag attributes style children, .element e places =>
    (∀ span ∈ e.openTag, ∃ t, P t ∧ t.span = span ∧ t.name = tag ∧
      t.content .html = ⟨attributes, style, e.attributes⟩ ∧ t.attrsEnd = e.attrsEnd) ∧
    AreTagged P children places
  | _, _ => True

/-- So have the elements of a list of nodes. -/
def AreTagged (P : OpenTag → Prop) : List Node → List Place → Prop
  | n :: ns, p :: ps => n.IsTagged P p ∧ AreTagged P ns ps
  | _, _ => True

end

variable {span : Span} {as st : Attrs} {P : OpenTag → Prop} {l : List (Node × Place)}

theorem isText_retag (n : Node) (p : Place) : (n.retag span as st p).isText = n.isText := by
  cases n <;> cases p <;> rfl

theorem retagAll_map :
    retagAll span as st (l.map Prod.fst) (l.map Prod.snd) = l.map fun x => x.1.retag span as st x.2 := by
  induction l with
  | nil => rfl
  | cons x l ih => exact congrArg (_ :: ·) ih

theorem areTagged_iff :
    AreTagged P (l.map Prod.fst) (l.map Prod.snd) ↔ ∀ x ∈ l, x.1.IsTagged P x.2 := by
  induction l with
  | nil => exact ⟨fun _ => List.forall_mem_nil _, fun _ => trivial⟩
  | cons x l ih => rw [List.map_cons, List.map_cons, AreTagged, ih, List.forall_mem_cons]

theorem isTagged_ofTopLevel {outer inner : Span} (h : ∀ x ∈ l, x.1.IsTagged P x.2) :
    (Document.ofTopLevel outer inner l).root.IsTagged P (Document.ofTopLevel outer inner l).place := by
  obtain ⟨x, rfl, -, hd⟩ | ⟨-, hd⟩ := Document.ofTopLevel_cases outer inner l <;> rw [hd]
  · exact h x (List.mem_singleton_self x)
  · exact ⟨by rintro _ ⟨⟩, areTagged_iff.2 h⟩

theorem AreTagged.getElem? {ns : List Node} {ps : List Place} (h : AreTagged P ns ps) {i : Nat}
    {n : Node} {p : Place} (hn : ns[i]? = some n) (hp : ps[i]? = some p) : n.IsTagged P p := by
  induction ns generalizing ps i with
  | nil => cases hn
  | cons m ns ih =>
    cases ps with
    | nil => cases hp
    | cons q ps =>
      cases i with
      | zero =>
        cases hn
        cases hp
        exact h.1
      | succ i => exact ih h.2 hn hp

end Node

namespace Document

variable {d c : Document} {path : NodePath} {i : Nat} {P : OpenTag → Prop}

theorem isTagged_child? (h : d.root.IsTagged P d.place) (hc : d.child? i = some c) :
    c.root.IsTagged P c.place := by
  rw [child?] at hc
  split at hc
  next m q hm hq =>
    cases hc
    obtain ⟨n, p⟩ := d
    cases n with
    | text => cases hm
    | element =>
      cases p with
      | text => cases hq
      | element => exact h.2.getElem? hm hq
  next => cases hc

theorem isTagged_at? (h : d.root.IsTagged P d.place) (hc : d.at? path = some c) :
    c.root.IsTagged P c.place := by
  induction path generalizing d with
  | nil =>
    cases hc
    exact h
  | cons i path ih =>
    obtain ⟨x, hx, hxc⟩ := Option.bind_eq_some_iff.1 hc
    exact ih (isTagged_child? h hx) hxc

/-- **Every element of a document that is read has what an open tag in the text says.** -/
theorem isTagged_read {s : Text} (h : read .html s = .ok d) :
    d.root.IsTagged (fun t => .openTag t ∈ (scan .html 0 s).lexemes) d.place := by
  have left {P : Node × Place → Prop} {l l' : List (Node × Place)}
      (h : List.Forall₂ (fun x _ => P x) l l') : ∀ x ∈ l, P x := by
    induction h with
    | nil => exact List.forall_mem_nil _
    | cons hx _ ih => exact List.forall_mem_cons.2 ⟨hx, ih⟩
  have hrelates : Flavor.html.Relates
      (fun t t' => t' = t ∧ Lexeme.openTag t ∈ (scan .html 0 s).lexemes)
      (fun x _ => x.1.IsTagged (fun t => .openTag t ∈ (scan .html 0 s).lexemes) x.2) := by
    refine ⟨by rintro t _ ⟨rfl, -⟩; rfl, by rintro t _ ⟨rfl, -⟩; rfl, by rintro t _ ⟨rfl, -⟩; rfl,
      fun _ _ _ => trivial, ?_⟩
    rintro t _ ⟨rfl, ht⟩ stop - inner - cs cs' hcs
    refine ⟨?_, Node.areTagged_iff.2 (left hcs)⟩
    rintro _ ⟨⟩
    exact ⟨_, ht, rfl, rfl, rfl, rfl⟩
  obtain ⟨ns, hns, rfl⟩ := exists_of_map_eq_ok h
  obtain ⟨ns', -, hall⟩ := hrelates.nodes
    (List.forall₂_same.2 fun l hl => Lexeme.corresponds_self fun t ht => ⟨rfl, ht ▸ hl⟩) rfl hns
  exact Node.isTagged_ofTopLevel (left hall)

end Document

/-! ## Reading another tag -/

/-- Tags that say the same, except that the one at `span` comes to say the attributes `as` and the
declarations `st`. -/
structure OpenTag.Retags (span : Span) (as st : Attrs) (t t' : OpenTag) : Prop where
  name : t'.name = t.name
  selfClosing : t'.selfClosing = t.selfClosing
  raw : t'.raw.map Prod.fst = t.raw.map Prod.fst
  attributes : (t'.content .html).attributes =
    if t.span = span then as else (t.content .html).attributes
  style : (t'.content .html).style = if t.span = span then st else (t.content .html).style

section Retags

variable {span : Span} {as st : Attrs} {t : OpenTag}

theorem relates_retags : Flavor.html.Relates (OpenTag.Retags span as st)
    fun x x' => x'.1 = x.1.retag span as st x.2 where
  name := OpenTag.Retags.name
  selfClosing := OpenTag.Retags.selfClosing
  raw := OpenTag.Retags.raw
  text := fun _ _ _ => rfl
  element := by
    intro t t' h stop stop' inner inner' cs cs' hcs
    have hchildren : cs'.map Prod.fst = cs.map fun x => x.1.retag span as st x.2 := by
      induction hcs with
      | nil => rfl
      | cons hx _ ih => exact congrArg₂ List.cons hx ih
    simp only [OpenTag.element, Node.retag, Node.retagAll_map, h.name, h.attributes, h.style, hchildren,
      Option.some.injEq]

/-- Another tag stays as it is. -/
theorem OpenTag.retags_shift {k : Nat} (hk : (t.shift k).span ≠ span) (k' : Nat) :
    OpenTag.Retags span as st (t.shift k) (t.shift k') := by
  have hraw (k : Nat) : (t.shift k).raw.map Prod.fst = t.raw.map Prod.fst := by
    rw [OpenTag.shift, Option.map_map]
    rfl
  refine ⟨rfl, rfl, by rw [hraw, hraw], ?_, ?_⟩ <;>
    rw [if_neg hk, OpenTag.content_shift, OpenTag.content_shift] <;> rfl

/-- An open tag takes bytes. -/
theorem OpenTag.Stands.lt_stop {flavor : Flavor} {source : Text} (h : t.Stands flavor source) :
    t.span.start < (Lexeme.openTag t).stop := by
  obtain ⟨u, hu⟩ := h.closing
  have hname := congrArg Span.stop h.nameSpan
  have h1 := h.order.le
  have h2 := hu.le
  have h3 := h.closing_le
  simp only [OpenTag.span] at hname ⊢
  omega

end Retags

namespace Document

variable {d : Document} {s : Text} {t : OpenTag}

/-- Only one tag of a text stands where it stands. -/
theorem span_ne {ls ls' : List Lexeme} (h : (scan .html 0 s).lexemes = ls ++ .openTag t :: ls') :
    ∀ t', .openTag t' ∈ ls ++ ls' → t'.span ≠ t.span := by
  have hs : s.Holds ⟨0, width s⟩ s := ⟨[], [], by simp, by simp⟩
  obtain ⟨horder, hstands⟩ := stands_scan .html hs
  rw [h] at horder hstands
  have ht : t.Stands .html s := hstands (.openTag t) (by simp)
  have hpairs := horder.pairwise
  rw [List.map_append, List.map_cons, List.pairwise_append] at hpairs
  intro t' ht' heq
  have hstart : t'.span.start = t.span.start := congrArg Span.start heq
  obtain ht' | ht' := List.mem_append.1 ht'
  · have hlt := OpenTag.Stands.lt_stop (hstands (.openTag t') (by simp [ht']) : t'.Stands .html s)
    have hle := hpairs.2.2 _ (List.mem_map_of_mem ht') _ List.mem_cons_self
    rw [Lexeme.stop_span] at hle
    have : (Lexeme.openTag t).span.start = t.span.start := rfl
    omega
  · have hlt := ht.lt_stop
    have hle := (List.pairwise_cons.1 hpairs.2.1).1 _ (List.mem_map_of_mem ht')
    rw [Lexeme.stop_span] at hle
    have : (Lexeme.openTag t').span.start = t'.span.start := rfl
    omega

/-- The document of nodes whose tag says something else. -/
theorem root_ofTopLevel_retag {span : Span} {as st : Attrs} {outer inner outer' inner' : Span}
    {ns ns' : List (Node × Place)}
    (h : List.Forall₂ (fun x x' => x'.1 = x.1.retag span as st x.2) ns ns') :
    (ofTopLevel outer' inner' ns').root =
      (ofTopLevel outer inner ns).root.retag span as st (ofTopLevel outer inner ns).place := by
  have hnodes : ns'.map Prod.fst = ns.map fun x => x.1.retag span as st x.2 := by
    induction h with
    | nil => rfl
    | cons hx _ ih => exact congrArg₂ List.cons hx ih
  obtain ⟨x, rfl, hx, hd⟩ | ⟨hx, hd⟩ := ofTopLevel_cases outer inner ns <;>
    obtain ⟨x', rfl, hx', hd'⟩ | ⟨hx', hd'⟩ := ofTopLevel_cases outer' inner' ns' <;> rw [hd, hd']
  · exact (List.cons.inj hnodes).1
  · have htext := hx' _ hnodes
    rw [Node.isText_retag, hx] at htext
    cases htext
  · obtain ⟨y, ys, rfl, hy, hys⟩ := List.map_eq_cons_iff.1 hnodes.symm
    obtain rfl := List.map_eq_nil_iff.1 hys
    have htext := hx y.1 rfl
    rw [← hy, Node.isText_retag, htext] at hx'
    cases hx'
  · simp [Node.root, Node.retag, Node.retagAll_map, hnodes]

/-- Where one tag stands in place of another, and only the other one stands where it stands, the
lexemes correspond. -/
theorem corresponds_behind {ls : List Lexeme} {t' : OpenTag} {stop stop' : Nat} {rest : Text}
    (hne : ∀ t₁, .openTag t₁ ∈ ls ++ (scan .html stop rest).lexemes → t₁.span ≠ t.span)
    (hname : t'.name = t.name) (hself : t'.selfClosing = t.selfClosing)
    (hraw : t'.raw.map Prod.fst = t.raw.map Prod.fst) :
    List.Forall₂ (Lexeme.Corresponds (OpenTag.Retags t.span (t'.content .html).attributes
        (t'.content .html).style))
      (ls ++ .openTag t :: (scan .html stop rest).lexemes)
      (ls ++ .openTag t' :: (scan .html stop' rest).lexemes) := by
  have hbehind (n : Nat) : (scan .html n rest).lexemes =
      (scan .html 0 rest).lexemes.map (·.shift n) := by
    conv_lhs => rw [← Nat.zero_add n, scan_shift]
    rfl
  refine List.rel_append (List.forall₂_same.2 fun l hl => Lexeme.corresponds_self ?_)
    (.cons (.openTag ⟨hname, hself, hraw, (if_pos rfl).symm, (if_pos rfl).symm⟩) ?_)
  · rintro t₁ rfl
    have ht₁ := hne t₁ (List.mem_append_left _ hl)
    exact ⟨rfl, rfl, rfl, (if_neg ht₁).symm, (if_neg ht₁).symm⟩
  · rw [hbehind stop, hbehind stop']
    refine List.forall₂_map_left_iff.2 (List.forall₂_map_right_iff.2 (List.forall₂_same.2 ?_))
    intro l hl
    cases l with
    | openTag t₁ =>
      refine .openTag (OpenTag.retags_shift (hne _ (List.mem_append_right _ ?_)) stop')
      rw [hbehind]
      exact List.mem_map_of_mem hl
    | closeTag | fragmentOpen | fragmentClose | text | expression => constructor

/-- **A document is read with another tag in place of one of its own**: only the element of that tag
changes. -/
theorem exists_read_retag (hd : read .html s = .ok d) (h : .openTag t ∈ (scan .html 0 s).lexemes) :
    ∃ front r rest stop, s = front ++ ('<' :: t.name ++ r) ∧ IsTagName t.name ∧
      (∀ c ∈ r.head?, isNameChar c = false) ∧
      openTag .html (width front) t.name r = .ok (t, stop, rest) ∧
      ∀ r' t' stop', (∀ c ∈ r'.head?, isNameChar c = false) →
        openTag .html (width front) t.name r' = .ok (t', stop', rest) →
        t'.selfClosing = t.selfClosing → t'.raw.map Prod.fst = t.raw.map Prod.fst →
        ∃ d', read .html (front ++ ('<' :: t.name ++ r')) = .ok d' ∧
          d'.root = d.root.retag t.span (t'.content .html).attributes (t'.content .html).style
            d.place := by
  obtain ⟨front, ls, hfront⟩ := exists_standsBehind h
  obtain ⟨name, r, stop, rest, hname, hhead, hs, htag⟩ := hfront.exists_openTag
  rw [Nat.zero_add] at htag
  obtain rfl : name = t.name := by
    obtain ⟨q, u, -, hname, -⟩ := exists_of_openTag htag
    exact hname.symm
  refine ⟨front, r, rest, stop, hs, hname, hhead, htag, fun r' t' stop' hhead' htag' hself hraw => ?_⟩
  have hscan {r : Text} {t₁ : OpenTag} {stop : Nat} (hhead : ∀ c ∈ r.head?, isNameChar c = false)
      (htag : openTag .html (width front) t.name r = .ok (t₁, stop, rest)) :
      scan .html 0 (front ++ ('<' :: t.name ++ r)) =
        ((scan .html stop rest).cons (.openTag t₁)).behind ls := by
    have hc : contentHead .html ('<' :: t.name ++ r) =
        .ok (some (.openTag t.name ('<' :: t.name) r)) := by
      rw [List.cons_append, contentHead, angleHead_name hname hhead]
      rfl
    rw [hfront.scan _ (hname.startsTag r), Nat.zero_add, scan_openTag hc htag]
  have hold := hscan hhead htag
  rw [← hs] at hold
  have hname' : t'.name = t.name := by
    obtain ⟨q, u, -, hname', -⟩ := exists_of_openTag htag'
    exact hname'
  have hls : List.Forall₂ (Lexeme.Corresponds (OpenTag.Retags t.span (t'.content .html).attributes
      (t'.content .html).style)) (scan .html 0 s).lexemes
      (scan .html 0 (front ++ ('<' :: t.name ++ r'))).lexemes := by
    rw [hold, hscan hhead' htag']
    exact corresponds_behind (span_ne (congrArg Scan.lexemes hold)) hname' hself hraw
  obtain ⟨ns, hns, rfl⟩ := exists_of_map_eq_ok hd
  have hfault : (scan .html 0 (front ++ ('<' :: t.name ++ r'))).fault.isNone =
      (scan .html 0 s).fault.isNone := by
    rw [hold, hscan hhead' htag']
    simp only [Scan.behind, Scan.cons]
    conv_lhs => rw [← Nat.zero_add stop', scan_shift]
    conv_rhs => rw [← Nat.zero_add stop, scan_shift]
    simp [Scan.shift]
  obtain ⟨ns', hns', hall⟩ := relates_retags.nodes hls hfault hns
  exact ⟨_, congrArg (Except.map _) hns', root_ofTopLevel_retag hall⟩

end Document

/-! ## The element of a tag -/

section Element

variable {flavor : Flavor} {source : Text} {region span : Span} {as st : Attrs}

/-- An open tag takes the first bytes of its element. -/
theorem ElementPlace.IsSound.openTag_lt {tag : Text} {as₀ st₀ : Attrs} {e : ElementPlace}
    {ps : List Place} (h : e.IsSound flavor source region tag as₀ st₀ ps)
    (hspan : e.openTag = some span) : e.outer.start = span.start ∧ span.start < e.outer.stop ∧
      ∀ q ∈ ps, span.start < q.outer.start := by
  obtain ⟨-, hstart, hwithin, hinner⟩ := h.openTag span hspan
  have hlt := (h.order span hspan).le
  have hstop := hwithin.2
  refine ⟨hstart.symm, by omega, fun q hq => ?_⟩
  obtain ⟨r, hr, -, horder⟩ := h.exists_inner hq
  have := hinner r hr
  have := (horder.of_mem (List.mem_map_of_mem hq)).1
  omega

/-- The byte `n` is no byte of the range. -/
def Span.Excludes (r : Span) (n : Nat) : Prop := n < r.start ∨ r.stop ≤ n

mutual

/-- A node in which no tag stands at `span` stays as it is. -/
theorem Node.retag_of_excludes {n : Node} {p : Place} (h : n.StandsAt flavor source region p)
    (hspan : p.outer.Excludes span.start) : n.retag span as st p = n := by
  cases n <;> cases p
  case text.text => rfl
  case element.element tag as₀ st₀ ns e ps =>
    obtain ⟨he, hns⟩ := h
    have hne : e.openTag ≠ some span := fun heq => by
      obtain ⟨h1, h2, -⟩ := he.openTag_lt heq
      obtain hspan | hspan := hspan <;> simp only [Place.outer] at hspan <;> omega
    rw [Node.retag, if_neg hne, if_neg hne, Node.retagAll_of_excludes hns fun q hq => ?_]
    have hwithin := he.child_within hq
    exact hspan.imp (fun h => Nat.lt_of_lt_of_le h hwithin.1) (Nat.le_trans hwithin.2)
  all_goals exact h.elim

theorem Node.retagAll_of_excludes {ns : List Node} {ps : List Place}
    (h : Node.StandAt flavor source region ns ps) (hspan : ∀ p ∈ ps, p.outer.Excludes span.start) :
    Node.retagAll span as st ns ps = ns := by
  cases ns <;> cases ps
  case nil.nil => rfl
  case cons.cons n ns p ps =>
    obtain ⟨hp, hps⟩ := List.forall_mem_cons.1 hspan
    rw [Node.retagAll, Node.retag_of_excludes h.1 hp, Node.retagAll_of_excludes h.2 hps]
  all_goals exact h.elim

end

/-- Only the child changes in which the tag stands. -/
theorem Node.retagAll_eq_set {ns : List Node} {ps : List Place} {lo hi : Nat}
    (h : Node.StandAt flavor source region ns ps) (horder : InOrder lo hi (ps.map Place.outer))
    {i : Nat} {n : Node} {p : Place} (hn : ns[i]? = some n) (hp : ps[i]? = some p)
    (hstart : p.outer.start ≤ span.start) (hstop : span.start < p.outer.stop) :
    Node.retagAll span as st ns ps = ns.set i (n.retag span as st p) := by
  induction ns generalizing ps i lo with
  | nil => cases hn
  | cons m ns ih =>
    cases ps with
    | nil => cases hp
    | cons q ps =>
      obtain ⟨-, -, hps⟩ := inOrder_cons.1 horder
      cases i with
      | zero =>
        cases hn
        cases hp
        rw [Node.retagAll, Node.retagAll_of_excludes h.2 fun x hx => .inl ?_]
        · rfl
        · exact Nat.lt_of_lt_of_le hstop (hps.of_mem (List.mem_map_of_mem hx)).1
      | succ i =>
        have hle := (hps.of_mem (List.mem_map_of_mem (List.mem_of_getElem? hp))).1
        rw [Node.retagAll, Node.retag_of_excludes h.1 (.inr (Nat.le_trans hle hstart)), ih h.2 hps hn hp]
        rfl

/-- **Another tag changes the element of the tag**, and nothing else. -/
theorem Document.IsSound.retag_eq {d : Document} (h : d.IsSound flavor source region)
    {path : NodePath} {tag : Text} {as₀ st₀ : Attrs} {cs : List Node} {e : ElementPlace}
    {ps : List Place} (hat : d.at? path = some ⟨.element tag as₀ st₀ cs, .element e ps⟩)
    (hspan : e.openTag = some span) :
    d.root.retag span as st d.place = Tree.modifyAt (fun _ => .element tag as st cs) path d.root := by
  induction path generalizing d with
  | nil =>
    cases hat
    obtain ⟨he, hcs⟩ := h
    obtain ⟨-, -, hlt⟩ := he.openTag_lt hspan
    rw [Node.retag, if_pos hspan, if_pos hspan,
      Node.retagAll_of_excludes hcs fun q hq => .inl (hlt q hq)]
    rfl
  | cons i path ih =>
    obtain ⟨c, hc, hcat⟩ := Option.bind_eq_some_iff.1 hat
    have hsound := h.child? hc
    have hwithin := hsound.within_at? hcat
    obtain ⟨hstart, hlt, -⟩ := (hsound.at? hcat).1.openTag_lt hspan
    have ih := ih hsound hcat
    rw [Document.child?] at hc
    split at hc
    next m q hm hq =>
      cases hc
      have hfrom : q.outer.start ≤ e.outer.start := hwithin.1
      have hto : e.outer.stop ≤ q.outer.stop := hwithin.2
      rw [Tree.modifyAt_child _ hm, ← ih]
      obtain ⟨n, p⟩ := d
      cases n <;> cases p
      case text.text => cases hm
      case element.element tag' as' st' ns e' ps' =>
        obtain ⟨he, hns⟩ := h
        have hm : ns[i]? = some m := hm
        have hq : ps'[i]? = some q := hq
        have hmem := List.mem_of_getElem? hq
        obtain ⟨r, -, -, horder⟩ := he.exists_inner hmem
        have hne : e'.openTag ≠ some span := fun heq => by
          have := (he.openTag_lt heq).2.2 q hmem
          omega
        rw [Node.retag, if_neg hne, if_neg hne,
          Node.retagAll_eq_set hns horder hm hq (by omega) (by omega)]
        rfl
      all_goals exact h.elim
    next => cases hc

end Element

end MarkupSync
