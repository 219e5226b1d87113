import Mathlib.Data.List.Basic
import MarkupSync.Splice

/-!
# Splices that rewrite a text from front to back

* `Rewrites`: a text that starts at a byte, splices of parts of it in their order, and the text
  afterwards;
* `Rewrites.append`, `Rewrites.shift`: rewriting texts put together and from another byte;
* **`Rewrites.applyAll`**: applying the splices never fails and gives the text afterwards.
-/

namespace MarkupSync

open Text

/-- Splices of a text that starts at byte `n`, in order, with the text before and after them. -/
inductive Rewrites : Nat → Text → List Splice → Text → Prop
  | nil {n : Nat} : Rewrites n [] [] []
  | keep {n : Nat} (a : Text) {s t : Text} {es : List Splice} (h : Rewrites (n + width a) s es t) :
    Rewrites n (a ++ s) es (a ++ t)
  | replace {n : Nat} (a b : Text) {s t : Text} {es : List Splice}
    (h : Rewrites (n + width a) s es t) :
    Rewrites n (a ++ s) (⟨⟨n, n + width a⟩, b⟩ :: es) (b ++ t)

namespace Rewrites

variable {n : Nat} {s t u v : Text} {es fs : List Splice}

theorem refl (n : Nat) (s : Text) : Rewrites n s [] s := by
  have := keep (n := n) s nil
  rwa [List.append_nil] at this

/-- A whole text is replaced. -/
theorem single (n : Nat) (a b : Text) : Rewrites n a [⟨⟨n, n + width a⟩, b⟩] b := by
  have := replace (n := n) a b nil
  rwa [List.append_nil, List.append_nil] at this

theorem append (h : Rewrites n s es t) (h' : Rewrites (n + width s) u fs v) :
    Rewrites n (s ++ u) (es ++ fs) (t ++ v) := by
  induction h with
  | nil => simpa using h'
  | keep a _ ih =>
    rw [List.append_assoc, List.append_assoc]
    refine .keep a (ih ?_)
    rwa [Nat.add_assoc, ← width_append]
  | replace a b _ ih =>
    rw [List.append_assoc, List.append_assoc]
    refine .replace a b (ih ?_)
    rwa [Nat.add_assoc, ← width_append]

/-- Two parts of a text are rewritten, and what stands behind them is kept. -/
theorem append_keep (h : Rewrites n s es t) (h' : Rewrites (n + width s) u fs v) (b : Text) :
    Rewrites n (s ++ (u ++ b)) (es ++ fs) (t ++ (v ++ b)) := by
  have := h.append (h'.append (refl _ b))
  rwa [List.append_nil] at this

/-- Without splices nothing changes. -/
theorem eq_of_nil (h : Rewrites n s [] t) : t = s := by
  generalize hes : [] = es at h
  induction h with
  | nil => rfl
  | keep a _ ih => rw [ih hes]
  | replace => cases hes

/-- Text around what is rewritten is kept. -/
theorem between (a b : Text) (h : Rewrites (n + width a) s es t) :
    Rewrites n (a ++ s ++ b) es (a ++ t ++ b) := by
  have := (h.keep a).append (refl _ b)
  rwa [List.append_nil] at this

/-- The same splices of a text that starts `k` bytes further in front. -/
theorem shift {k : Nat} (h : Rewrites (k + n) s es t) :
    Rewrites n s (es.map fun e => ⟨⟨e.span.start - k, e.span.stop - k⟩, e.replacement⟩) t := by
  generalize hm : k + n = m at h
  induction h generalizing n with
  | nil => exact .nil
  | keep a _ ih =>
    subst hm
    exact .keep a (ih (by omega))
  | @replace m a b s t es h ih =>
    subst hm
    rw [List.map_cons]
    have hspan : (⟨⟨k + n - k, k + n + width a - k⟩, b⟩ : Splice) = ⟨⟨n, n + width a⟩, b⟩ := by
      congr 2 <;> omega
    rw [hspan]
    exact .replace a b (ih (by omega))

/-! ## Applying the splices -/

/-- All splices lie behind the start of the text. -/
theorem start_le (h : Rewrites n s es t) : ∀ e ∈ es, n ≤ e.span.start ∧ e.span.start ≤ e.span.stop := by
  induction h with
  | nil => exact nofun
  | keep a _ ih =>
    exact fun e he => ⟨Nat.le_trans (Nat.le_add_right _ _) (ih e he).1, (ih e he).2⟩
  | replace a b _ ih =>
    intro e he
    rcases List.mem_cons.1 he with rfl | he
    · exact ⟨Nat.le_refl _, Nat.le_add_right _ _⟩
    · exact ⟨Nat.le_trans (Nat.le_add_right _ _) (ih e he).1, (ih e he).2⟩

/-- The splices are in their order. -/
theorem pairwise (h : Rewrites n s es t) : es.Pairwise fun a b => Splice.precedes a b = true := by
  induction h with
  | nil => exact .nil
  | keep a _ ih => exact ih
  | @replace n a b s t es h ih =>
    refine List.pairwise_cons.2 ⟨fun e he => ?_, ih⟩
    obtain ⟨h1, h2⟩ := h.start_le e he
    simp only [Splice.precedes, Bool.or_eq_true, decide_eq_true_eq, Bool.and_eq_true, beq_iff_eq]
    omega

theorem check {p : Text} (h : Rewrites (width p) s es t) {stop : Nat} (hstop : stop ≤ width p) :
    Splice.check (p ++ s) stop es = .ok () := by
  generalize hn : width p = n at h
  induction h generalizing p stop with
  | nil => rfl
  | keep a _ ih =>
    rw [← List.append_assoc]
    exact ih (p := p ++ a) (by simp; omega) (by simp [hn])
  | @replace n a b s t es h ih =>
    subst hn
    have hfault : Splice.fault? (p ++ (a ++ s)) stop ⟨width p, width p + width a⟩ = none := by
      have h1 : isBoundary (width p) (p ++ (a ++ s)) = true := isBoundary_iff.2 ⟨p, _, rfl, rfl⟩
      have h2 : isBoundary (width p + width a) (p ++ (a ++ s)) = true :=
        isBoundary_iff.2 ⟨p ++ a, s, by simp, by simp⟩
      rw [Splice.fault?, h1, h2, if_neg, if_neg, if_neg]
      · exact Nat.not_lt.2 hstop
      · decide
      · simp
    simp only [Splice.check, hfault]
    rw [← List.append_assoc]
    exact ih (p := p ++ a) (by simp) (by simp)

theorem fill (h : Rewrites n s es t) {p : Text} {start : Nat} (hp : start + width p = n) :
    Splice.fill start (p ++ s) es = p ++ t := by
  induction h generalizing p start with
  | nil => rfl
  | keep a _ ih =>
    have := @ih (p ++ a) start (by simp; omega)
    simpa using this
  | replace a b h ih =>
    subst hp
    have h1 : start + width p - start = width p := by omega
    have h2 : start + width p + width a - start = width (p ++ a) := by
      simp
      omega
    have := @ih [] (start + width p + width a) rfl
    rw [List.nil_append, List.nil_append] at this
    simp only [Splice.fill, h1, h2, before_width_append]
    rw [← List.append_assoc p a, after_width_append, this, List.append_assoc]

/-- **Applying the splices never fails and gives the text afterwards.** -/
theorem applyAll (h : Rewrites 0 s es t) : Splice.applyAll es s = .ok t := by
  have hsorted : es.mergeSort Splice.precedes = es := List.mergeSort_of_pairwise h.pairwise
  have hcheck := check (p := []) h (Nat.le_refl 0)
  have hfill : Splice.fill 0 ([] ++ s) es = [] ++ t := h.fill rfl
  simp only [List.nil_append] at hcheck hfill
  simp only [Splice.applyAll, hsorted, hcheck, hfill]

end Rewrites

end MarkupSync
