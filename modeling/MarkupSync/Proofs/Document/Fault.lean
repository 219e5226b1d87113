import MarkupSync.Document.Source
import MarkupSync.Proofs.Document.Spans
import MarkupSync.Proofs.Script.Region
import MarkupSync.Proofs.Section

/-!
# Where documents have errors

Errors are noticed where something starts that was read, or at the start of the source.

* `boundary_of_fault`: the fault of a scan;
* `Reader.step_opensAt`: a step of a reader notices errors at its lexeme, and opens only there;
* `Sections.boundary_of_splitAt`: the errors in the sections of a component;
* **`Document.boundary_of_error`**: the errors of documents lie between two characters.
-/

namespace MarkupSync

open Text

variable {flavor : Flavor} {source s : Text} {n k : Nat} {e : ParseError}

theorem eq_error_of_map {ε α β : Type} {x : Except ε α} {f : α → β} {e : ε}
    (h : x.map f = .error e) : x = .error e := by
  cases x with
  | error e' => exact congrArg Except.error (Except.error.inj h)
  | ok a => cases h

theorem Text.boundary_zero (s : Text) : Boundary 0 s := ⟨[], s, rfl, rfl⟩

/-! ## Lexemes -/

theorem Lexeme.Stands.boundary_start {l : Lexeme} (h : l.Stands flavor source) :
    Boundary l.span.start source := by
  cases l with
  | openTag t =>
    have ht : t.Stands flavor source := h
    exact ht.name.boundary_start
  | closeTag =>
    obtain ⟨u, hu⟩ := h
    exact hu.boundary_start
  | _ => exact Holds.boundary_start h

theorem boundary_of_mem_scan (flavor : Flavor) (hs : source.Holds ⟨n, k⟩ s) :
    ∀ l ∈ (scan flavor n s).lexemes, Boundary l.span.start source :=
  fun l hl => ((stands_scan flavor hs).2 l hl).boundary_start

/-- The fault of a scan lies where a lexeme would start. -/
theorem boundary_of_fault (hs : source.Holds ⟨n, k⟩ s) (h : (scan flavor n s).fault = some e) :
    Boundary e.position source := by
  fun_induction scan flavor n s with
  | case1 n s fault hc =>
    cases h
    exact hs.boundary_start
  | case2 => cases h
  | case3 n s p r hc ih => exact ih (holds_of_contentHead hs hc).2 h
  | case4 n s name p r hc fault ht =>
    cases h
    exact hs.boundary_start
  | case5 n s name p r hc t stop rest ht ih =>
    obtain ⟨rfl, -⟩ := name_of_contentHead hc
    rw [(eq_of_contentHead hc).1] at hs
    obtain ⟨-, -, -, hrest⟩ := stands_of_openTag ht hs
    exact ih hrest h
  | case6 n s name p r hc stop ih => exact ih (holds_of_contentHead hs hc).2 h
  | case7 n s p r hc stop ih => exact ih (holds_of_contentHead hs hc).2 h
  | case8 n s p r hc stop ih => exact ih (holds_of_contentHead hs hc).2 h
  | case9 n s p r hc stop ih => exact ih (holds_of_contentHead hs hc).2 h
  | case10 n s p r hc run content stop ih =>
    rw [eq_append_textRun hc] at hs
    exact ih hs.right h

/-! ## Readers -/

namespace Reader

variable {P : Nat → Prop} {r r' : Reader} {l : Lexeme} {ls : List Lexeme}

/-- What is still open started at offsets with the property `P`. -/
def OpensAt (P : Nat → Prop) (r : Reader) : Prop := ∀ o ∈ r.stack, P o.1.unclosed.position

theorem OpensAt.flush (h : r.OpensAt P) : (r.flush flavor).OpensAt P := by
  rw [OpensAt, stack_flush]
  exact h

/-- The error of a step lies at an offset with the property `P`, or all that is still open starts at
such offsets. -/
def LiesAt (P : Nat → Prop) : Except ParseError Reader → Prop
  | .error e => P e.position
  | .ok r => r.OpensAt P

theorem liesAt_stepTag (flavor : Flavor) (h : r.OpensAt P) (hl : P l.span.start) :
    LiesAt P (r.stepTag flavor l) := by
  obtain ⟨nodes, run, stack⟩ := r
  have hpop {o : Opened × List (Node × Place)} {stack} (h : OpensAt P ⟨nodes, run, o :: stack⟩) :
      ∀ o ∈ stack, P o.1.unclosed.position := fun o ho => h o (List.mem_cons_of_mem _ ho)
  cases l with
  | text | expression => exact h
  | fragmentOpen span => exact List.forall_mem_cons.2 ⟨hl, h⟩
  | fragmentClose span =>
    match stack, h with
    | [], _ => exact hl
    | (.element _, _) :: _, _ => exact hl
    | (.fragment _, _) :: _, h => exact hpop h
  | openTag tag =>
    rw [stepTag]
    split
    · exact h
    · exact List.forall_mem_cons.2 ⟨hl, h⟩
  | closeTag name span =>
    match stack, h with
    | [], _ => exact hl
    | (.fragment _, _) :: _, _ => exact hl
    | (.element _, _) :: _, h =>
      simp only [stepTag]
      split
      · exact hpop h
      · exact hl

/-- **A step of a reader notices errors at the start of its lexeme, and opens only there.** -/
theorem liesAt_step (flavor : Flavor) (h : r.OpensAt P) (hl : P l.span.start) :
    LiesAt P (r.step flavor l) := by
  cases l with
  | text => exact liesAt_stepTag flavor h hl
  | _ => exact liesAt_stepTag flavor h.flush hl

/-- The errors of a run lie at the starts of lexemes. -/
theorem liesAt_steps (flavor : Flavor) (h : r.OpensAt P) (hls : ∀ l ∈ ls, P l.span.start) :
    LiesAt P (r.steps flavor ls) := by
  induction ls generalizing r with
  | nil => exact h
  | cons l ls ih =>
    obtain ⟨hl, hls⟩ := List.forall_mem_cons.1 hls
    have hstep := liesAt_step flavor h hl
    rw [steps]
    cases hr : r.step flavor l with
    | error e =>
      rw [hr] at hstep
      exact hstep
    | ok r₁ =>
      rw [hr] at hstep
      exact ih hstep hls

/-- The errors of a run up to where everything is closed lie at the starts of lexemes, where the
scan has its fault, or at the start of the source. -/
theorem position_of_untilClosed {fault : Option ParseError} (h : r.OpensAt P)
    (hls : ∀ l ∈ ls, P l.span.start) (hfault : ∀ e ∈ fault, P e.position) (hzero : P 0)
    (herror : r.untilClosed flavor fault ls = .error e) : P e.position := by
  induction ls generalizing r with
  | nil =>
    cases herror
    cases fault with
    | some e => exact hfault e rfl
    | none =>
      obtain ⟨nodes, run, stack⟩ := r
      cases stack with
      | nil => exact hzero
      | cons o stack => exact h o List.mem_cons_self
  | cons l ls ih =>
    obtain ⟨hl, hls⟩ := List.forall_mem_cons.1 hls
    have hstep := liesAt_step flavor h hl
    rw [untilClosed] at herror
    cases hr : r.step flavor l with
    | error e' =>
      rw [hr] at hstep herror
      cases herror
      exact hstep
    | ok r₁ =>
      rw [hr] at hstep herror
      simp only at herror
      split at herror
      · cases herror
      · exact ih hstep hls herror

theorem opensAt_start : start.OpensAt P := nofun

end Reader

/-! ## Sections -/

namespace Sections

/-- A block without an end is noticed where it starts. -/
theorem position_of_readAt {kind : SectionKind} (h : Section.readAt kind n s = .error e) :
    e.position = n := by
  simp only [Section.readAt] at h
  split at h
  · cases h
    rfl
  · split at h
    · cases h
    · split at h <;> cases h
      rfl

theorem boundary_of_splitAt {found : Sections} (hs : source.Holds ⟨n, k⟩ s)
    (h : splitAt n found s = .error e) : Boundary e.position source := by
  fun_induction splitAt n found s with
  | case1 => cases h
  | case2 n found s kind skipped rest hnext e' hread =>
    cases h
    rw [Section.eq_of_nextOpen? hnext] at hs
    rw [position_of_readAt hread]
    exact hs.right.boundary_start
  | case3 n found s kind skipped rest hnext block rest' hread ih =>
    rw [Section.eq_of_nextOpen? hnext] at hs
    exact ih (Section.holds_readAt hs.right hread).2 h

end Sections

/-! ## Documents -/

namespace Document

variable {region : Span}

theorem boundary_of_readAt (hs : source.Holds ⟨n, k⟩ s)
    (h : readAt flavor n s = .error e) : Boundary e.position source := by
  have hsteps := Reader.liesAt_steps (P := (Boundary · source)) flavor Reader.opensAt_start
    (boundary_of_mem_scan flavor hs)
  have hnodes : (scan flavor n s).nodes flavor = .error e := eq_error_of_map h
  rw [Scan.nodes] at hnodes
  split at hnodes
  next e' he =>
    cases hnodes
    rw [he] at hsteps
    exact hsteps
  next r hr =>
    rw [hr] at hsteps
    split at hnodes
    next hfault =>
      cases hnodes
      exact boundary_of_fault hs hfault
    next =>
      rw [Reader.finish] at hnodes
      split at hnodes <;> cases hnodes
      next hstack => exact hsteps _ (by rw [hstack]; exact List.mem_cons_self)

theorem boundary_of_readRootAt (hs : source.Holds ⟨n, k⟩ s)
    (h : readRootAt flavor n s = .error e) : Boundary e.position source := by
  have hfault : ∀ e ∈ (scan flavor n s).fault, Boundary e.position source :=
    fun e he => boundary_of_fault hs he
  have huntil (h : Reader.start.untilClosed flavor (scan flavor n s).fault
      (scan flavor n s).lexemes = .error e) : Boundary e.position source :=
    Reader.position_of_untilClosed (P := (Boundary · source)) Reader.opensAt_start
      (boundary_of_mem_scan flavor hs) hfault (boundary_zero source) h
  simp only [readRootAt] at h
  split at h
  · cases h
    cases hscan : (scan flavor n s).fault with
    | none => exact hs.boundary_start
    | some e => exact hfault e hscan
  · split at h
    · exact huntil (eq_error_of_map h)
    · exact huntil (eq_error_of_map h)
    · cases h
      exact hs.boundary_start

/-- Text between two boundaries is where it is read, also if the second comes first. -/
theorem holds_at (hstart : Boundary region.start source) (hstop : Boundary region.stop source) :
    ∃ k, source.Holds ⟨region.start, k⟩ (source.at region) := by
  by_cases hle : region.start ≤ region.stop
  · obtain ⟨t, ht⟩ := exists_holds hle hstart hstop
    exact ⟨region.stop, ht.at_eq ▸ ht⟩
  · have hempty : source.at region = [] := by
      rw [Text.at, slice, Nat.sub_eq_zero_of_le (Nat.le_of_not_le hle), before_zero]
    obtain ⟨p, q, hsource, hp⟩ := hstart
    exact ⟨region.start, p, q, by rw [hempty, List.append_nil, hsource], by rw [hempty, ← hp]; rfl⟩

theorem boundary_of_readScript (h : readScript source = .error e) :
    Boundary e.position source := by
  rw [readScript] at h
  split at h
  next e' hlocate =>
    cases h
    -- a module without markup, or one that is no module
    rw [Script.locateMarkup] at hlocate
    split at hlocate
    · cases hlocate
      exact boundary_zero source
    · split at hlocate <;> cases hlocate
      exact boundary_zero source
  next region hregion =>
    obtain ⟨hstart, hstop⟩ := Script.located_locateMarkup hregion
    split at h <;> cases h
    next hread =>
      obtain ⟨k, hs⟩ := holds_at hstart hstop
      exact boundary_of_readRootAt hs hread

theorem boundary_of_readTemplate (h : readTemplate source = .error e) :
    Boundary e.position source := by
  rw [readTemplate] at h
  split at h
  next e' hsplit =>
    cases h
    exact Sections.boundary_of_splitAt (.self source) hsplit
  next sections hsplit =>
    obtain ⟨k, hs⟩ : ∃ k, source.Holds ⟨(sections.templateSpan source).start, k⟩
        (source.at (sections.templateSpan source)) := by
      rw [Sections.templateSpan]
      split
      next block hblock =>
        have hget : sections.get? .template = some block := hblock
        have hrange := Sections.isRange_content hsplit hget
        exact holds_at hrange.start hrange.stop
      next =>
        have hend := (Holds.self source).boundary_stop
        exact holds_at hend hend
    exact boundary_of_readAt hs h

/-- **The errors of documents lie between two characters of their source.** -/
theorem boundary_of_error {dialect : Dialect} (h : ofSource dialect source = .error e) :
    Boundary e.position source := by
  cases dialect with
  | html => exact boundary_of_readAt (.self source) h
  | vue => exact boundary_of_readTemplate h
  | jsx | tsx => exact boundary_of_readScript (eq_error_of_map h)

end Document

end MarkupSync
