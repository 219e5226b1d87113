import Mathlib.Data.List.Chain
import MarkupSync.Outcome
import MarkupSync.Proofs.Document.Indent
import MarkupSync.Proofs.Document.Regular

/-!
# What all nodes of a document have

* `Lexeme.Precedes`, `isChain_scan`: a close tag follows content that is kept as it is written;
* `Flavor.Yields`: what lexemes make is of a kind, whatever they follow;
* `Reader.Keeps`: a reader whose nodes are of a kind;
* `Reader.Keeps.step`: one lexeme;
* **`Document.of_readAt`**, **`Document.of_readRootAt`**: the top-level nodes of a document are of
  the kind that its lexemes yield.
-/

namespace MarkupSync

/-! ## Lexemes in a row -/

/-- Behind an open tag whose content is kept as it is written, and that content, there is a close
tag. -/
def Lexeme.Precedes (l k : Lexeme) : Prop :=
  ∀ t, l = .openTag t → t.selfClosing = false → isRaw t.name = true → ∃ name span, k = .closeTag name span

theorem startsClose_of_openTag {n stop : Nat} {name s rest : Text} {t : OpenTag}
    (hname : IsTagName name) (h : openTag .html n name s = .ok (t, stop, rest))
    (hself : t.selfClosing = false) (hraw : isRaw t.name = true) : startsClose name rest = true := by
  simp only [openTag] at h
  split at h
  · cases h
  next b hb =>
    split at h
    · split at h
      · cases h
      next hcontent =>
        cases h
        exact (isRawContent_of_rawContent? hname hcontent).2.1
    next hne =>
      cases h
      exact absurd (by simp_all) hne

theorem head?_scan_of_startsClose {name : Text} (hname : IsTagName name) {s : Text}
    (h : startsClose name s = true) (n : Nat) :
    ∀ k ∈ (scan .html n s).lexemes.head?, ∃ name span, k = .closeTag name span := by
  intro k hk
  cases hc : contentHead .html s with
  | error e =>
    rw [scan.eq_def, hc] at hk
    cases hk
  | ok head =>
    obtain ⟨name', p, u, rfl⟩ := contentHead_of_startsClose hname h hc
    rw [scan.eq_def, hc] at hk
    cases hk
    exact ⟨_, _, rfl⟩

/-- A close tag follows content that is kept as it is written. -/
theorem isChain_scan (n : Nat) (s : Text) : (scan .html n s).lexemes.IsChain Lexeme.Precedes := by
  fun_induction scan .html n s with
  | case1 | case2 | case4 => exact .nil
  | case3 n s p r hs ih => exact ih
  | case5 n s name p r hs t stop u ht ih =>
    refine List.isChain_cons.2 ⟨fun k hk => ?_, ih⟩
    rintro t' ⟨⟩ hself hraw
    have hname := (name_of_contentHead hs).2
    exact head?_scan_of_startsClose hname (startsClose_of_openTag hname ht hself hraw) stop k hk
  | case6 _ _ _ _ _ _ _ ih | case7 _ _ _ _ _ _ ih | case8 _ _ _ _ _ _ ih | case9 _ _ _ _ _ _ ih
  | case10 _ _ _ _ _ _ _ _ ih =>
    refine List.isChain_cons.2 ⟨fun k _ => ?_, ih⟩
    rintro t ⟨⟩

/-! ## Kinds of nodes -/

/-- Lexemes with the property `L` make nodes of the kind `P`. The flag says whether a node is a
child of an element whose content is kept as it is written; in HTML such an element has no other
child than that content, and a void element has none at all. -/
structure Flavor.Yields (flavor : Flavor) (L : Lexeme → Prop) (P : Bool → Node → Prop) : Prop where
  raw : ∀ {n}, P false n → P true n
  text : ∀ {run content}, flowText? flavor run = some content → P false (.text content)
  expression : ∀ {content span}, L (.expression content span) → P false (.text content)
  rawChild : ∀ {t}, L (.openTag t) → ∀ n ∈ t.rawChild, P (isRaw t.name) n.1
  element : ∀ {t stop inner} {children : List (Node × Place)}, L (.openTag t) →
    (∀ n ∈ children, P (isRaw t.name) n.1) →
    (children = [] ∨ isVoid t.name = false ∧
      (flavor = .html → isRaw t.name = true → children = t.rawChild)) →
    P false (t.element flavor stop inner children).1

theorem Flavor.Yields.of_false {flavor : Flavor} {L : Lexeme → Prop} {P : Bool → Node → Prop}
    (hP : flavor.Yields L P) {n : Node} (h : P false n) (raw : Bool) : P raw n := by
  cases raw with
  | false => exact h
  | true => exact hP.raw h

namespace Reader

/-- Whether the innermost thing that is open keeps its content as it is written. -/
def keepsRaw : List (Opened × List (Node × Place)) → Bool
  | (.element t, _) :: _ => isRaw t.name
  | _ => false

/-- The tag whose content is kept as it is written, if the innermost thing that is open in HTML is
one. -/
def kept? (flavor : Flavor) : List (Opened × List (Node × Place)) → Option OpenTag
  | (.element t, _) :: _ => if flavor = .html ∧ isRaw t.name = true then some t else none
  | _ => none

/-- The tags that are open have the property `L` and are not void, the nodes in front of them are of
the kind `P`, and only the innermost one may keep its content. -/
def KeepsStack (flavor : Flavor) (L : Lexeme → Prop) (P : Bool → Node → Prop) :
    List (Opened × List (Node × Place)) → Prop
  | [] => True
  | (opened, before) :: stack =>
    (∀ t, opened = .element t → L (.openTag t) ∧ isVoid t.name = false) ∧
      (∀ n ∈ before, P (keepsRaw stack) n.1) ∧ kept? flavor stack = none ∧ KeepsStack flavor L P stack

/-- The nodes that have been read are of the kind `P`, and content that is kept has been read. -/
structure Keeps (flavor : Flavor) (L : Lexeme → Prop) (P : Bool → Node → Prop) (r : Reader) :
    Prop where
  nodes : ∀ n ∈ r.nodes, P (keepsRaw r.stack) n.1
  stack : KeepsStack flavor L P r.stack
  kept : ∀ t ∈ kept? flavor r.stack, r.run = [] ∧ r.nodes = t.rawChild

/-- A lexeme that may follow: a close tag behind content that is kept. -/
def Admits (flavor : Flavor) (r : Reader) (l : Lexeme) : Prop :=
  kept? flavor r.stack = none ∨ ∃ name span, l = .closeTag name span

variable {flavor : Flavor} {L : Lexeme → Prop} {P : Bool → Node → Prop} {r r' : Reader} {l : Lexeme}

theorem keeps_start : start.Keeps flavor L P := ⟨nofun, trivial, nofun⟩

theorem Keeps.of_none (hnodes : ∀ n ∈ r.nodes, P (keepsRaw r.stack) n.1)
    (hstack : KeepsStack flavor L P r.stack) (h : kept? flavor r.stack = none) : r.Keeps flavor L P :=
  ⟨hnodes, hstack, by simp [h]⟩

/-- In HTML the children of an element that keeps its content are that content. -/
theorem Keeps.children {t : OpenTag} {nodes : List (Node × Place)} {run : List (Text × Nat)}
    {before : List (Node × Place)} {stack : List (Opened × List (Node × Place))}
    (h : Keeps flavor L P ⟨nodes, run, (.element t, before) :: stack⟩) (hflavor : flavor = .html)
    (hraw : isRaw t.name = true) : nodes.reverse = t.rawChild := by
  have hkept : kept? flavor ((.element t, before) :: stack) = some t := if_pos ⟨hflavor, hraw⟩
  obtain rfl : nodes = t.rawChild := (h.kept t hkept).2
  exact reverse_rawChild t

variable (hP : flavor.Yields L P)
include hP

theorem Keeps.push (h : r.Keeps flavor L P) (hnone : kept? flavor r.stack = none) {n : Node × Place}
    (hn : P false n.1) : (r.push n).Keeps flavor L P :=
  .of_none (List.forall_mem_cons.2 ⟨hP.of_false hn _, h.nodes⟩) h.stack hnone

theorem Keeps.flush (h : r.Keeps flavor L P) : (r.flush flavor).Keeps flavor L P := by
  rw [Reader.flush]
  split
  · exact h
  next hrun =>
    have hnone : kept? flavor r.stack = none :=
      Option.eq_none_iff_forall_ne_some.2 fun t ht => hrun (h.kept t ht).1
    cases hn : runNode? flavor r.run with
    | none => exact .of_none h.nodes h.stack hnone
    | some n =>
      obtain ⟨content, hcontent, rfl⟩ := Option.map_eq_some_iff.1 hn
      have hpush := h.push hP hnone (n := (.text content, .text (runSpan r.run))) (hP.text hcontent)
      exact .of_none hpush.nodes hpush.stack hnone

theorem Keeps.stepTag (h : r.Keeps flavor L P) (hl : L l) (hadmits : r.Admits flavor l)
    (hrun : r.run = [] ∨ ∃ content span, l = .text content span) (hstep : r.stepTag flavor l = .ok r') :
    r'.Keeps flavor L P := by
  obtain ⟨nodes, run, stack⟩ := r
  have hopen (hl : ∀ name span, l ≠ .closeTag name span) : kept? flavor stack = none :=
    hadmits.resolve_right fun ⟨name, span, h⟩ => hl name span h
  cases l with
  | text =>
    cases hstep
    exact .of_none h.nodes h.stack (hopen nofun)
  | expression =>
    cases hstep
    exact h.push hP (hopen nofun) (hP.expression hl)
  | fragmentOpen =>
    cases hstep
    exact .of_none nofun ⟨nofun, h.nodes, hopen nofun, h.stack⟩ rfl
  | fragmentClose =>
    simp only [Reader.stepTag] at hstep
    split at hstep
    next span before stack =>
      cases hstep
      obtain ⟨-, hbefore, hnone, hstack⟩ := h.stack
      refine .of_none (fun n hn => ?_) hstack hnone
      obtain hn | hn := List.mem_append.1 hn
      · exact hP.of_false (h.nodes n hn) _
      · exact hbefore n hn
    next => cases hstep
  | openTag t =>
    rw [Reader.stepTag] at hstep
    split at hstep
    · cases hstep
      exact h.push hP (hopen nofun) (hP.element hl nofun (.inl rfl))
    next hclosed =>
      cases hstep
      refine ⟨hP.rawChild hl, ⟨?_, h.nodes, hopen nofun, h.stack⟩, fun u hu => ?_⟩
      · rintro u ⟨⟩
        exact ⟨hl, by simp_all⟩
      · obtain ⟨-, ⟨⟩⟩ := Option.ite_none_right_eq_some.1 hu
        exact ⟨hrun.resolve_right (by simp), rfl⟩
  | closeTag name span =>
    simp only [Reader.stepTag] at hstep
    split at hstep
    next t before stack =>
      obtain ⟨ht, hbefore, hnone, hstack⟩ := h.stack
      split at hstep
      · cases hstep
        have hkeeps : Keeps flavor L P ⟨before, run, stack⟩ := .of_none hbefore hstack hnone
        exact hkeeps.push hP hnone (hP.element (ht t rfl).1
          (fun n hn => h.nodes n (List.mem_reverse.1 hn)) (.inr ⟨(ht t rfl).2, h.children⟩))
      · cases hstep
    next => cases hstep

/-- **A lexeme of the property leaves a reader with nodes of the kind.** -/
theorem Keeps.step (h : r.Keeps flavor L P) (hl : L l) (hadmits : r.Admits flavor l)
    (hstep : r.step flavor l = .ok r') : r'.Keeps flavor L P := by
  have hflush : (r.flush flavor).Admits flavor l := by rwa [Admits, Reader.stack_flush]
  cases l with
  | text => exact h.stepTag hP hl hadmits (.inr ⟨_, _, rfl⟩) hstep
  | _ => exact (h.flush hP).stepTag hP hl hflush (.inl (Reader.run_flush ..)) hstep

omit hP in
/-- What may follow a lexeme may follow the reader behind it. -/
theorem Keeps.admits_stepTag (h : r.Keeps flavor L P) (hadmits : r.Admits flavor l) {k : Lexeme}
    (hk : flavor = .html → l.Precedes k) (hstep : r.stepTag flavor l = .ok r') :
    r'.Admits flavor k := by
  obtain ⟨nodes, run, stack⟩ := r
  have hopen (hl : ∀ name span, l ≠ .closeTag name span) : kept? flavor stack = none :=
    hadmits.resolve_right fun ⟨name, span, h⟩ => hl name span h
  cases l with
  | text | expression =>
    cases hstep
    exact .inl (hopen nofun)
  | fragmentOpen =>
    cases hstep
    exact .inl rfl
  | fragmentClose =>
    simp only [Reader.stepTag] at hstep
    split at hstep <;> cases hstep
    exact .inl h.stack.2.2.1
  | openTag t =>
    rw [Reader.stepTag] at hstep
    split at hstep
    · cases hstep
      exact .inl (hopen nofun)
    next hclosed =>
      cases hstep
      by_cases hraw : flavor = .html ∧ isRaw t.name = true
      · exact .inr (hk hraw.1 t rfl (by simp_all) hraw.2)
      · exact .inl (if_neg hraw)
  | closeTag name span =>
    simp only [Reader.stepTag] at hstep
    split at hstep
    next t before stack =>
      split at hstep <;> cases hstep
      exact .inl h.stack.2.2.1
    next => cases hstep

theorem Keeps.admits_step (h : r.Keeps flavor L P) (hadmits : r.Admits flavor l) {k : Lexeme}
    (hk : flavor = .html → l.Precedes k) (hstep : r.step flavor l = .ok r') :
    r'.Admits flavor k := by
  have hflush : (r.flush flavor).Admits flavor l := by rwa [Admits, Reader.stack_flush]
  cases l with
  | text => exact h.admits_stepTag hadmits hk hstep
  | _ => exact (h.flush hP).admits_stepTag hflush hk hstep

theorem Keeps.steps (h : r.Keeps flavor L P) {ls : List Lexeme} (hls : ∀ l ∈ ls, L l)
    (hchain : flavor = .html → ls.IsChain Lexeme.Precedes)
    (hadmits : ∀ l ∈ ls.head?, r.Admits flavor l) (hsteps : r.steps flavor ls = .ok r') :
    r'.Keeps flavor L P := by
  induction ls generalizing r with
  | nil =>
    cases hsteps
    exact h
  | cons l ls ih =>
    rw [Reader.steps] at hsteps
    split at hsteps
    · cases hsteps
    next r₁ hstep =>
      have hl := hadmits l rfl
      exact ih (h.step hP (hls l List.mem_cons_self) hl hstep)
        (fun k hk => hls k (List.mem_cons_of_mem l hk)) (fun hf => (hchain hf).of_cons)
        (fun k hk => h.admits_step hP hl (fun hf => (List.isChain_cons.1 (hchain hf)).1 k hk) hstep)
        hsteps

theorem Keeps.untilClosed (h : r.Keeps flavor L P) {ls : List Lexeme} (hls : ∀ l ∈ ls, L l)
    (hchain : flavor = .html → ls.IsChain Lexeme.Precedes)
    (hadmits : ∀ l ∈ ls.head?, r.Admits flavor l)
    {fault : Option ParseError} {nodes : List (Node × Place)} {last : Lexeme}
    (huntil : r.untilClosed flavor fault ls = .ok (nodes, last)) : ∀ n ∈ nodes, P false n.1 := by
  induction ls generalizing r with
  | nil => cases huntil
  | cons l ls ih =>
    rw [Reader.untilClosed] at huntil
    split at huntil
    · cases huntil
    next r₁ hstep =>
      have hl := hadmits l rfl
      have h₁ := h.step hP (hls l List.mem_cons_self) hl hstep
      split at huntil
      next hstack =>
        cases huntil
        rw [List.isEmpty_iff] at hstack
        intro n hn
        have hn := h₁.nodes n (List.mem_reverse.1 hn)
        rwa [hstack] at hn
      next =>
        exact ih h₁ (fun k hk => hls k (List.mem_cons_of_mem l hk)) (fun hf => (hchain hf).of_cons)
          (fun k hk => h.admits_step hP hl (fun hf => (List.isChain_cons.1 (hchain hf)).1 k hk) hstep)
          huntil

end Reader

namespace Document

variable {flavor : Flavor} {L : Lexeme → Prop} {P : Bool → Node → Prop} {n : Nat} {s : Text}
  {d : Document} (hP : flavor.Yields L P) (hL : ∀ l ∈ (scan flavor n s).lexemes, L l)
include hP hL

omit hP hL in
theorem isChain_scan_of_html (hflavor : flavor = .html) :
    (scan flavor n s).lexemes.IsChain Lexeme.Precedes := by
  rw [hflavor]
  exact isChain_scan n s

/-- **The top-level nodes of a document are of the kind that its lexemes yield.** -/
theorem of_readAt (h : readAt flavor n s = .ok d) :
    ∃ nodes, d.root = Node.ofTopLevel nodes ∧ ∀ m ∈ nodes, P false m := by
  obtain ⟨nodes, hnodes, rfl⟩ := exists_of_map_eq_ok h
  refine ⟨nodes.map Prod.fst, root_ofTopLevel .., List.forall_mem_map.2 ?_⟩
  rw [Scan.nodes] at hnodes
  split at hnodes
  · cases hnodes
  next r hsteps =>
    have hr := (Reader.keeps_start.steps hP hL isChain_scan_of_html (fun _ _ => .inl rfl) hsteps).flush hP
    split at hnodes
    · cases hnodes
    · rw [Reader.finish] at hnodes
      split at hnodes
      · cases hnodes
      next hstack =>
        cases hnodes
        intro x hx
        have hx := hr.nodes x (List.mem_reverse.1 hx)
        rwa [Reader.stack_flush, hstack] at hx

/-- **So are those of the document that a text starts with.** -/
theorem of_readRootAt {stop : Nat} (h : readRootAt flavor n s = .ok (d, stop)) :
    ∃ nodes, d.root = Node.ofTopLevel nodes ∧ ∀ m ∈ nodes, P false m := by
  obtain ⟨l, ls, nodes, last, -, -, hread, -, hroot⟩ := exists_of_readRootAt h
  exact ⟨_, hroot, List.forall_mem_map.2
    (Reader.keeps_start.untilClosed hP hL isChain_scan_of_html (fun _ _ => .inl rfl) hread)⟩

end Document

end MarkupSync
