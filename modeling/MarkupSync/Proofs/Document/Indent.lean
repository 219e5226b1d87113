import Mathlib.Data.List.Forall2
import MarkupSync.Proofs.Document.Inset
import MarkupSync.Proofs.Document.Written

/-!
# Documents put further in

* `Lexeme.IsSteady`: a lexeme without code on several lines and without an open brace;
* `Reader.IsInset`: a reader, and the same reader further in;
* `Reader.exists_step_inset`, `Reader.exists_untilClosed_inset`: one lexeme, and all of them;
* **`Document.exists_readRootAt_inset`**: a document that is read further in.
-/

namespace MarkupSync

open Text

variable {indent rest : Text}

/-! ## Lexemes that stay -/

/-- The texts of an attribute stand on one line. -/
def RawAttribute.IsOneLine (a : RawAttribute) : Prop :=
  '\n' ∉ a.name ∧ ∀ v ∈ a.value, '\n' ∉ v.text

/-- Indentation does not change a lexeme, nor does what follows it: expressions and attributes stand
on one line, and no brace is a text because nothing closes it. -/
def Lexeme.IsSteady : Lexeme → Prop
  | .openTag tag => ∀ a ∈ tag.attributes, a.IsOneLine
  | .expression content _ => '\n' ∉ content
  | .text content _ => '\x7b' ∉ content
  | .closeTag .. | .fragmentOpen _ | .fragmentClose _ => True

instance : DecidablePred RawAttribute.IsOneLine := fun _ =>
  inferInstanceAs (Decidable (_ ∧ ∀ v ∈ _, _))

instance : DecidablePred Lexeme.IsSteady
  | .openTag tag => inferInstanceAs (Decidable (∀ a ∈ tag.attributes, a.IsOneLine))
  | .expression content _ => inferInstanceAs (Decidable ('\n' ∉ content))
  | .text content _ => inferInstanceAs (Decidable ('\x7b' ∉ content))
  | .closeTag .. | .fragmentOpen _ | .fragmentClose _ => .isTrue trivial

theorem RawAttribute.IsOneLine.written {a : RawAttribute} (h : a.IsOneLine) :
    (a.indented indent).written = a.written := by
  obtain ⟨name, nameSpan, value⟩ := a
  cases value with
  | none => simp [RawAttribute.written, RawAttribute.indented, indented_of_not_mem h.1]
  | some v =>
    simp [RawAttribute.written, RawAttribute.indented, indented_of_not_mem h.1,
      indented_of_not_mem (h.2 v rfl)]

/-! ## Attributes -/

theorem AttrMeaning.of_congr (key : Text) {v w : Option RawValue}
    (h : v.map (fun v => (v.text, v.quoting)) = w.map fun v => (v.text, v.quoting)) :
    AttrMeaning.of key v = AttrMeaning.of key w := by
  cases v <;> cases w
  case none.none => rfl
  case some.some v w =>
    obtain ⟨ht, hq⟩ := Prod.mk.inj (Option.some.inj h)
    rw [AttrMeaning.of, AttrMeaning.of, ht, hq]
  all_goals cases h

/-- What attributes say does not depend on where they stand. -/
theorem foldl_add_congr {flavor : Flavor} {as bs : List RawAttribute}
    (h : as.map RawAttribute.written = bs.map RawAttribute.written) {c d : TagContent}
    (ha : c.attributes = d.attributes) (hs : c.style = d.style) :
    (as.foldl (TagContent.add flavor) c).attributes =
        (bs.foldl (TagContent.add flavor) d).attributes ∧
      (as.foldl (TagContent.add flavor) c).style = (bs.foldl (TagContent.add flavor) d).style := by
  induction as generalizing bs c d with
  | nil =>
    cases bs with
    | nil => exact ⟨ha, hs⟩
    | cons b bs => cases h
  | cons a as ih =>
    cases bs with
    | nil => cases h
    | cons b bs =>
      obtain ⟨hab, h⟩ := List.cons.inj h
      obtain ⟨hname, hvalue⟩ := Prod.mk.inj hab
      have hmeaning := AttrMeaning.of_congr (flavor.key b.name) hvalue
      replace hname : a.name = b.name := hname
      rw [List.foldl_cons, List.foldl_cons]
      refine ih h ?_ ?_ <;> simp only [TagContent.add, hname, ha, hs, hmeaning] <;> split
      · exact ha
      · cases AttrMeaning.of (flavor.key b.name) b.value <;> rfl
      · exact hs
      · cases AttrMeaning.of (flavor.key b.name) b.value <;> rfl

/-- An open tag and one that says the same. -/
structure OpenTag.IsLike (t t' : OpenTag) : Prop where
  name : t'.name = t.name
  selfClosing : t'.selfClosing = t.selfClosing
  attributes : (t'.content .jsx).attributes = (t.content .jsx).attributes
  style : (t'.content .jsx).style = (t.content .jsx).style
  raw : t.raw = none
  raw' : t'.raw = none

theorem OpenTag.IsInset.isLike {t t' : OpenTag} (h : t.IsInset indent t')
    (ht : ∀ a ∈ t.attributes, a.IsOneLine) : t.IsLike t' := by
  have hwritten :
      t'.attributes.map RawAttribute.written = t.attributes.map RawAttribute.written := by
    rw [h.attributes, List.map_map]
    exact List.map_congr_left fun a ha => (ht a ha).written
  obtain ⟨hattrs, hstyle⟩ := foldl_add_congr hwritten (c := ⟨.empty, .empty, []⟩)
    (d := ⟨.empty, .empty, []⟩) rfl rfl
  exact ⟨h.name, h.selfClosing, hattrs, hstyle, h.raw, h.raw'⟩

theorem OpenTag.IsLike.element {t t' : OpenTag} (h : t.IsLike t') (stop stop' : Nat)
    (inner inner' : Option Span) {children children' : List (Node × Place)}
    (hc : children'.map Prod.fst = children.map Prod.fst) :
    (t'.element .jsx stop' inner' children').1 = (t.element .jsx stop inner children).1 := by
  simp only [OpenTag.element, h.name, h.attributes, h.style, hc]

/-! ## Readers -/

/-- Something open, and the same further in. -/
inductive Opened.IsLike : Opened → Opened → Prop
  | element {t t' : OpenTag} (h : t.IsLike t') : IsLike (element t) (element t')
  | fragment (span span' : Span) : IsLike (fragment span) (fragment span')

/-- A reader, and the same reader further in. -/
structure Reader.IsInset (indent : Text) (r r' : Reader) : Prop where
  nodes : r'.nodes.map Prod.fst = r.nodes.map Prod.fst
  run : r'.run.flatMap Prod.fst = indented indent (r.run.flatMap Prod.fst)
  hasRun : r'.run = [] ↔ r.run = []
  stack : List.Forall₂ (fun x y => Opened.IsLike x.1 y.1 ∧ y.2.map Prod.fst = x.2.map Prod.fst)
    r.stack r'.stack

namespace Reader

theorem isInset_start : IsInset indent start start := ⟨rfl, rfl, Iff.rfl, .nil⟩

theorem IsInset.push {r r' : Reader} (h : IsInset indent r r') {n n' : Node × Place}
    (hn : n'.1 = n.1) : IsInset indent (r.push n) (r'.push n') :=
  ⟨by simp [Reader.push, hn, h.nodes], h.run, h.hasRun, h.stack⟩

theorem flowText?_indented (hindent : ∀ c ∈ indent, isIndent c = true) (s : Text) :
    flowText? .jsx (indented indent s) = flowText? .jsx s := by
  rw [flowText?, flowText?, joinedLines?_indented hindent]

theorem IsInset.flush (hindent : ∀ c ∈ indent, isIndent c = true) {r r' : Reader}
    (h : IsInset indent r r') : IsInset indent (r.flush .jsx) (r'.flush .jsx) := by
  by_cases hrun : r.run = []
  · rwa [Reader.flush, Reader.flush, if_pos hrun, if_pos (h.hasRun.2 hrun)]
  · rw [Reader.flush, Reader.flush, if_neg hrun, if_neg (mt h.hasRun.1 hrun)]
    have hflow := flowText?_indented hindent (r.run.flatMap Prod.fst)
    rw [← h.run] at hflow
    rw [runNode?, runNode?, hflow]
    cases flowText? .jsx (r.run.flatMap Prod.fst) with
    | none => exact ⟨h.nodes, rfl, Iff.rfl, h.stack⟩
    | some content => exact ⟨by simp [h.nodes], rfl, Iff.rfl, h.stack⟩

theorem exists_stepTag_inset {r r' r₁ : Reader} {l l' : Lexeme} (h : r.stepTag .jsx l = .ok r₁)
    (hr : IsInset indent r r') (hl : l.IsInset indent l') (hs : l.IsSteady) :
    ∃ r₁', r'.stepTag .jsx l' = .ok r₁' ∧ IsInset indent r₁ r₁' := by
  cases hl with
  | @openTag t t' ht =>
    have hlike := ht.isLike hs
    have hrawChild : t.rawChild = [] ∧ t'.rawChild = [] := by
      simp [OpenTag.rawChild, hlike.raw, hlike.raw']
    simp only [stepTag, hlike.selfClosing, hlike.name] at h ⊢
    split at h
    next hclosed =>
      cases h
      rw [if_pos hclosed]
      exact ⟨_, rfl, hr.push (hlike.element _ _ _ _ rfl)⟩
    next hclosed =>
      cases h
      rw [if_neg hclosed, hrawChild.1, hrawChild.2]
      exact ⟨_, rfl, rfl, hr.run, hr.hasRun, .cons ⟨.element hlike, hr.nodes⟩ hr.stack⟩
  | closeTag name span span' =>
    obtain ⟨nodes, run, stack⟩ := r
    obtain ⟨nodes', run', stack'⟩ := r'
    cases hr.stack with
    | nil => cases h
    | @cons x y stack stack' hxy hstack =>
      obtain ⟨opened, before⟩ := x
      obtain ⟨opened', before'⟩ := y
      obtain ⟨hopened, hbefore⟩ := hxy
      cases hopened with
      | fragment => cases h
      | @element t t' hlike =>
        simp only [stepTag, hlike.name] at h ⊢
        split at h
        next hcloses =>
          cases h
          rw [if_pos hcloses]
          have hnodes : nodes'.reverse.map Prod.fst = nodes.reverse.map Prod.fst := by
            simpa using hr.nodes
          have hnode := hlike.element span.stop span'.stop (some ⟨t.closing.stop, span.start⟩)
            (some ⟨t'.closing.stop, span'.start⟩) hnodes
          exact ⟨_, rfl, by simp [hnode, hbefore], hr.run, hr.hasRun, hstack⟩
        next => cases h
  | fragmentOpen span span' =>
    cases h
    exact ⟨_, rfl, rfl, hr.run, hr.hasRun, .cons ⟨.fragment .., hr.nodes⟩ hr.stack⟩
  | fragmentClose span span' =>
    obtain ⟨nodes, run, stack⟩ := r
    obtain ⟨nodes', run', stack'⟩ := r'
    cases hr.stack with
    | nil => cases h
    | @cons x y stack stack' hxy hstack =>
      obtain ⟨opened, before⟩ := x
      obtain ⟨opened', before'⟩ := y
      obtain ⟨hopened, hbefore⟩ := hxy
      cases hopened with
      | element => cases h
      | fragment =>
        cases h
        refine ⟨_, rfl, ?_, hr.run, hr.hasRun, hstack⟩
        rw [List.map_append, List.map_append, hr.nodes, hbefore]
  | text content span span' =>
    cases h
    refine ⟨_, rfl, hr.nodes, ?_, ?_, hr.stack⟩
    · simp [hr.run]
    · simp
  | expression content span span' =>
    cases h
    exact ⟨_, rfl, hr.push (congrArg Node.text (indented_of_not_mem hs))⟩

/-- **A lexeme is read further in as it is read.** -/
theorem exists_step_inset (hindent : ∀ c ∈ indent, isIndent c = true) {r r' r₁ : Reader}
    {l l' : Lexeme} (h : r.step .jsx l = .ok r₁) (hr : IsInset indent r r')
    (hl : l.IsInset indent l') (hs : l.IsSteady) :
    ∃ r₁', r'.step .jsx l' = .ok r₁' ∧ IsInset indent r₁ r₁' := by
  cases hl with
  | text content span span' =>
    exact exists_stepTag_inset (l := .text content span) h hr (.text ..) hs
  | @openTag t t' ht =>
    exact exists_stepTag_inset (l := .openTag t) h (hr.flush hindent) (.openTag ht) hs
  | closeTag name span span' =>
    exact exists_stepTag_inset (l := .closeTag name span) h (hr.flush hindent) (.closeTag ..) hs
  | fragmentOpen span span' =>
    exact exists_stepTag_inset (l := .fragmentOpen span) h (hr.flush hindent) (.fragmentOpen ..) hs
  | fragmentClose span span' =>
    exact exists_stepTag_inset (l := .fragmentClose span) h (hr.flush hindent)
      (.fragmentClose ..) hs
  | expression content span span' =>
    exact exists_stepTag_inset (l := .expression content span) h (hr.flush hindent)
      (.expression ..) hs

theorem IsInset.isEmpty_stack {r r' : Reader} (h : IsInset indent r r') :
    r'.stack.isEmpty = r.stack.isEmpty := by
  cases hs : r.stack <;> cases hs' : r'.stack
  case nil.nil => rfl
  case cons.cons => rfl
  all_goals
    have := h.stack
    rw [hs, hs'] at this
    cases this

variable (rest) in
/-- **What closes at the end of a text closes further in, whatever follows.** -/
theorem exists_untilClosed_inset (hindent : ∀ c ∈ indent, isIndent c = true) {n : Nat} {s : Text}
    {ls : List Lexeme} (hls : ls = (scan .jsx n s).lexemes) {r r' : Reader}
    {fault : Option ParseError} {nodes : List (Node × Place)} {last : Lexeme}
    (h : untilClosed .jsx fault r ls = .ok (nodes, last)) (hlast : last.stop = n + width s)
    (hr : IsInset indent r r') (hs : ∀ l ∈ ls, l.IsSteady)
    (hopen : r.stack = [] → ∀ content span, ls.head? ≠ some (.text content span)) (n' : Nat)
    (fault' : Option ParseError) :
    ∃ nodes' last', untilClosed .jsx fault' r' (scan .jsx n' (Text.inset indent rest s)).lexemes =
        .ok (nodes', last') ∧ nodes'.map Prod.fst = nodes.map Prod.fst ∧
      last'.stop = n' + width (indented indent s) := by
  induction ls generalizing n s r r' n' with
  | nil => cases h
  | cons l ls ih =>
    rw [untilClosed] at h
    split at h
    · cases h
    next r₁ hstep =>
      have hsteady := hs l List.mem_cons_self
      have htext : ∀ content span, l = .text content span → '\x7b' ∉ content ∧ ls ≠ [] := by
        rintro content span rfl
        refine ⟨hsteady, ?_⟩
        rintro rfl
        cases hstep
        split at h
        next hempty => exact hopen (List.isEmpty_iff.1 hempty) _ _ rfl
        next => cases h
      obtain ⟨u, hu, hstop, hinset⟩ := exists_scan_inset rest hindent hls.symm htext
      obtain ⟨l', hl', hll, hstop'⟩ := hinset n'
      obtain ⟨r₁', hstep', hr₁⟩ := exists_step_inset hindent hstep hr hll hsteady
      rw [hl', untilClosed, hstep']
      simp only [Text.inset, width_append] at hstop'
      split at h
      next hempty =>
        cases h
        have hclosed : r₁'.stack.isEmpty = true := by
          rw [hr₁.isEmpty_stack, hempty]
        simp only [hclosed, if_true]
        have hu : u = [] := width_eq_zero.1 (by omega)
        subst hu
        refine ⟨_, _, rfl, ?_, ?_⟩
        · rw [List.map_reverse, List.map_reverse, hr₁.nodes]
        · simp only [indented_nil, width_nil] at hstop'
          omega
      next hne =>
        have hopened : ¬ r₁'.stack.isEmpty = true := by rwa [hr₁.isEmpty_stack]
        simp only [hopened]
        have hr₁ne : r₁.stack = [] → ∀ content span, ls.head? ≠ some (.text content span) :=
          fun h => absurd (List.isEmpty_iff.2 h) hne
        obtain ⟨nodes', last', hclosed, hnodes, hlast'⟩ := ih hu h (by omega) hr₁
          (fun l hl => hs l (List.mem_cons_of_mem _ hl)) hr₁ne l'.stop
        exact ⟨nodes', last', hclosed, hnodes, by omega⟩

end Reader

/-! ## Documents -/

/-- What the markup of a document starts with. -/
def Lexeme.OpensRoot : Lexeme → Prop
  | .openTag _ | .fragmentOpen _ => True
  | .closeTag .. | .fragmentClose _ | .text .. | .expression .. => False

theorem Lexeme.IsInset.opensRoot {l l' : Lexeme} (h : l.IsInset indent l') (hl : l.OpensRoot) :
    l'.OpensRoot := by
  cases h <;> exact hl

namespace Document

variable {flavor : Flavor} {n : Nat} {s : Text}

theorem exists_of_readRootAt {d : Document} {stop : Nat}
    (h : readRootAt flavor n s = .ok (d, stop)) :
    ∃ l ls nodes last, (scan flavor n s).lexemes = l :: ls ∧ l.OpensRoot ∧
      Reader.start.untilClosed flavor (scan flavor n s).fault (scan flavor n s).lexemes =
        .ok (nodes, last) ∧
      last.stop = stop ∧ d.root = Node.ofTopLevel (nodes.map Prod.fst) := by
  simp only [readRootAt] at h
  split at h
  · cases h
  next l ls hls =>
    cases l
    case openTag | fragmentOpen =>
      cases hread : Reader.start.untilClosed flavor (scan flavor n s).fault
        (scan flavor n s).lexemes with
      | error e => simp [hread, Except.map] at h
      | ok read =>
        rw [hread] at h
        obtain ⟨rfl, hstop⟩ := Prod.mk.inj (Except.ok.inj h)
        exact ⟨_, ls, read.1, read.2, hls, trivial, rfl, hstop, root_ofTopLevel ..⟩
    all_goals cases h

theorem exists_readRootAt {l last : Lexeme} {ls : List Lexeme} {nodes : List (Node × Place)}
    (hls : (scan flavor n s).lexemes = l :: ls) (hl : l.OpensRoot)
    (hread : Reader.start.untilClosed flavor (scan flavor n s).fault (scan flavor n s).lexemes =
      .ok (nodes, last)) :
    ∃ d, readRootAt flavor n s = .ok (d, last.stop) ∧
      d.root = Node.ofTopLevel (nodes.map Prod.fst) := by
  simp only [readRootAt]
  cases l
  case openTag | fragmentOpen =>
    rw [hls] at hread ⊢
    simp only [hread]
    exact ⟨_, rfl, root_ofTopLevel ..⟩
  all_goals exact hl.elim

variable (rest) in
/-- **A document is read further in, whatever follows**, if its lexemes stay as they are there. -/
theorem exists_readRootAt_inset (hindent : ∀ c ∈ indent, isIndent c = true) {d : Document}
    (h : readRootAt .jsx n s = .ok (d, n + width s))
    (hs : ∀ l ∈ (scan .jsx n s).lexemes, l.IsSteady) (n' : Nat) :
    ∃ d', readRootAt .jsx n' (Text.inset indent rest s) =
      .ok (d', n' + width (indented indent s)) ∧ d'.root = d.root := by
  obtain ⟨l, ls, nodes, last, hls, hopens, hread, hlast, hroot⟩ := exists_of_readRootAt h
  have hl : ∀ content span, l ≠ .text content span := by
    rintro _ _ rfl
    exact hopens
  obtain ⟨u, -, -, hu⟩ := exists_scan_inset rest hindent hls fun c s h => absurd h (hl c s)
  obtain ⟨l', hls', hll, -⟩ := hu n'
  obtain ⟨nodes', last', hread', hnodes, hlast'⟩ :=
    Reader.exists_untilClosed_inset rest hindent rfl hread hlast Reader.isInset_start hs
      (by simpa [hls] using fun _ => hl) n' (scan .jsx n' (Text.inset indent rest s)).fault
  obtain ⟨d', hd', hroot'⟩ := exists_readRootAt hls' (hll.opensRoot hopens) hread'
  rw [hlast'] at hd'
  exact ⟨d', hd', by rw [hroot', hroot, hnodes]⟩

end Document

end MarkupSync
