import MarkupSync.Proofs.Text.Trim

/-!
# Ranges of texts

* `InOrder`: ranges that stand one behind the other between two bytes (`inOrder_append`,
  `InOrder.sublist`, `InOrder.pairwise`);
* `Text.Holds`: the bytes of a range hold a text;
* `Text.IsRange`: a range of whole characters within a region.
-/

namespace MarkupSync

/-! ## Ranges in order -/

/-- Ranges stand one behind the other from byte `lo` to byte `hi`. -/
def InOrder : Nat → Nat → List Span → Prop
  | lo, hi, [] => lo ≤ hi
  | lo, hi, r :: rs => lo ≤ r.start ∧ r.start ≤ r.stop ∧ InOrder r.stop hi rs

section InOrder

variable {lo hi lo' hi' : Nat} {r : Span} {rs qs : List Span}

@[simp] theorem inOrder_nil : InOrder lo hi [] ↔ lo ≤ hi := .rfl

@[simp] theorem inOrder_cons :
    InOrder lo hi (r :: rs) ↔ lo ≤ r.start ∧ r.start ≤ r.stop ∧ InOrder r.stop hi rs := .rfl

theorem InOrder.single (hlo : lo ≤ r.start) (hr : r.start ≤ r.stop) : InOrder lo r.stop [r] :=
  ⟨hlo, hr, Nat.le_refl _⟩

theorem InOrder.le (h : InOrder lo hi rs) : lo ≤ hi := by
  induction rs generalizing lo with
  | nil => exact h
  | cons r rs ih =>
    obtain ⟨hlo, hr, hrs⟩ := inOrder_cons.1 h
    exact Nat.le_trans hlo (Nat.le_trans hr (ih hrs))

theorem InOrder.mono (h : InOrder lo hi rs) (hlo : lo' ≤ lo) (hhi : hi ≤ hi') :
    InOrder lo' hi' rs := by
  induction rs generalizing lo lo' with
  | nil => exact Nat.le_trans hlo (Nat.le_trans h hhi)
  | cons r rs ih => exact ⟨Nat.le_trans hlo h.1, h.2.1, ih h.2.2 (Nat.le_refl _)⟩

theorem inOrder_append :
    InOrder lo hi (rs ++ qs) ↔ ∃ mid, InOrder lo mid rs ∧ InOrder mid hi qs := by
  induction rs generalizing lo with
  | nil =>
    constructor
    · exact fun h => ⟨lo, Nat.le_refl _, h⟩
    · rintro ⟨mid, hlo, hqs⟩
      exact hqs.mono hlo (Nat.le_refl _)
  | cons r rs ih =>
    rw [List.cons_append, inOrder_cons, ih]
    constructor
    · rintro ⟨hlo, hr, mid, hrs, hqs⟩
      exact ⟨mid, ⟨hlo, hr, hrs⟩, hqs⟩
    · rintro ⟨mid, ⟨hlo, hr, hrs⟩, hqs⟩
      exact ⟨hlo, hr, mid, hrs, hqs⟩

theorem InOrder.append {mid : Nat} (h : InOrder lo mid rs) (h' : InOrder mid hi qs) :
    InOrder lo hi (rs ++ qs) := inOrder_append.2 ⟨mid, h, h'⟩

theorem InOrder.sublist (h : InOrder lo hi rs) (hs : qs.Sublist rs) : InOrder lo hi qs := by
  induction hs generalizing lo with
  | slnil => exact h
  | cons r _ ih => exact (ih h.2.2).mono (Nat.le_trans h.1 h.2.1) (Nat.le_refl _)
  | cons_cons r _ ih => exact ⟨h.1, h.2.1, ih h.2.2⟩

theorem InOrder.of_mem (h : InOrder lo hi rs) (hr : r ∈ rs) :
    lo ≤ r.start ∧ r.start ≤ r.stop ∧ r.stop ≤ hi :=
  h.sublist (List.singleton_sublist.2 hr)

/-- No two of the ranges overlap. -/
theorem InOrder.pairwise (h : InOrder lo hi rs) : rs.Pairwise fun a b => a.stop ≤ b.start := by
  induction rs generalizing lo with
  | nil => exact .nil
  | cons r rs ih => exact .cons (fun q hq => (h.2.2.of_mem hq).1) (ih h.2.2)

/-- From the first range to the last. -/
theorem InOrder.hull {a b : Span} (h : InOrder lo hi rs) (ha : rs.head? = some a)
    (hb : rs.getLast? = some b) : lo ≤ a.start ∧ a.start ≤ b.stop ∧ b.stop ≤ hi := by
  cases rs with
  | nil => cases ha
  | cons r rs =>
    cases ha
    obtain ⟨hlo, hr, hrs⟩ := inOrder_cons.1 h
    have hb := List.mem_of_getLast? hb
    obtain ⟨-, hle, hhi⟩ := h.of_mem hb
    obtain rfl | hb := List.mem_cons.1 hb
    · exact ⟨hlo, hle, hhi⟩
    · exact ⟨hlo, Nat.le_trans hr (Nat.le_trans (hrs.of_mem hb).1 hle), hhi⟩

/-- Ranges that are made narrower stay in order. -/
theorem InOrder.filterMap {α : Type} {f : α → Span} {g : α → Option Span} {as : List α}
    (h : InOrder lo hi (as.map f))
    (hg : ∀ a ∈ as, ∀ r, g a = some r → r.Within (f a) ∧ r.start ≤ r.stop) :
    InOrder lo hi (as.filterMap g) := by
  induction as generalizing lo with
  | nil => exact h
  | cons a as ih =>
    obtain ⟨hlo, hle, has⟩ := inOrder_cons.1 h
    have ih := ih has fun a ha => hg a (List.mem_cons_of_mem _ ha)
    cases hga : g a with
    | none =>
      rw [List.filterMap_cons_none hga]
      exact ih.mono (Nat.le_trans hlo hle) (Nat.le_refl _)
    | some r =>
      rw [List.filterMap_cons_some hga]
      obtain ⟨⟨hstart, hstop⟩, hr⟩ := hg a List.mem_cons_self r hga
      exact ⟨Nat.le_trans hlo hstart, hr, ih.mono hstop (Nat.le_refl _)⟩

end InOrder

/-- Two ranges do not touch. -/
def Span.IsApart (a b : Span) : Prop := a.stop < b.start ∨ b.stop < a.start

theorem Span.IsApart.symm {a b : Span} (h : a.IsApart b) : b.IsApart a := Or.symm h

/-! ## What ranges hold -/

namespace Text

/-- The bytes `r` of the text `s` hold the text `t`. -/
def Holds (s : Text) (r : Span) (t : Text) : Prop :=
  ∃ p q, s = p ++ t ++ q ∧ r = ⟨width p, width p + width t⟩

/-- The range `r` lies within `region`, and starts and stops between two characters of `s`. -/
structure IsRange (s : Text) (region r : Span) : Prop where
  within : r.Within region
  le : r.start ≤ r.stop
  start : Boundary r.start s
  stop : Boundary r.stop s

namespace Holds

variable {s t u : Text} {r : Span} {n k : Nat}

theorem stop_eq (h : s.Holds r t) : r.stop = r.start + width t := by
  obtain ⟨p, q, -, rfl⟩ := h
  rfl

theorem le (h : s.Holds r t) : r.start ≤ r.stop := h.stop_eq ▸ Nat.le_add_right _ _

theorem boundary_start (h : s.Holds r t) : Boundary r.start s := by
  obtain ⟨p, q, rfl, rfl⟩ := h
  exact ⟨p, t ++ q, List.append_assoc .., rfl⟩

theorem boundary_stop (h : s.Holds r t) : Boundary r.stop s := by
  obtain ⟨p, q, rfl, rfl⟩ := h
  exact ⟨p ++ t, q, rfl, width_append ..⟩

theorem at_eq (h : s.Holds r t) : s.at r = t := by
  obtain ⟨p, q, rfl, rfl⟩ := h
  exact slice_append p t q

theorem isRange {region : Span} (h : s.Holds r t) (hr : r.Within region) : s.IsRange region r :=
  ⟨hr, h.le, h.boundary_start, h.boundary_stop⟩

/-- A text stands in itself. -/
theorem self (s : Text) : s.Holds ⟨0, width s⟩ s := ⟨[], [], by simp, by simp⟩

theorem left (h : s.Holds ⟨n, k⟩ (t ++ u)) : s.Holds ⟨n, n + width t⟩ t := by
  obtain ⟨p, q, rfl, hr⟩ := h
  cases hr
  exact ⟨p, u ++ q, by simp, rfl⟩

theorem right (h : s.Holds ⟨n, k⟩ (t ++ u)) : s.Holds ⟨n + width t, k⟩ u := by
  obtain ⟨p, q, rfl, hr⟩ := h
  cases hr
  exact ⟨p ++ t, q, by simp, by simp [Nat.add_assoc]⟩

/-- Texts that stand one behind the other. -/
theorem append {m : Nat} (h : s.Holds ⟨n, m⟩ t) (h' : s.Holds ⟨m, k⟩ u) :
    s.Holds ⟨n, k⟩ (t ++ u) := by
  obtain ⟨p, q, rfl, hr⟩ := h
  obtain ⟨p', q', hs, hr'⟩ := h'
  obtain ⟨rfl, rfl⟩ := Span.mk.inj hr
  obtain ⟨hp, rfl⟩ := Span.mk.inj hr'
  have hp' : p' = p ++ t := by
    rw [← before_width_append p' (u ++ q'), ← List.append_assoc, ← hs, ← hp, ← width_append,
      before_width_append]
  subst hp'
  exact ⟨p, q', by rw [hs]; simp, by simp [Nat.add_assoc]⟩

theorem stop_le (h : s.Holds r t) : r.stop ≤ width s := by
  obtain ⟨p, q, rfl, rfl⟩ := h
  simp only [width_append]
  omega

/-- What stands in a part of a text stands in the text. -/
theorem trans {q : Span} (h : s.Holds r t) (h' : t.Holds q u) : s.Holds (q.shift r.start) u := by
  obtain ⟨p, v, rfl, rfl⟩ := h
  obtain ⟨a, b, rfl, rfl⟩ := h'
  exact ⟨p ++ a, b ++ v, by simp, by simp [Span.shift]; omega⟩

theorem shift_within {q : Span} (h : s.Holds r t) (h' : t.Holds q u) :
    (q.shift r.start).Within r := by
  have hstop := h'.stop_le
  rw [Span.Within, h.stop_eq]
  simp only [Span.shift]
  omega

end Holds

/-- Between two boundaries stands a text. -/
theorem exists_holds {s : Text} {r : Span} (hle : r.start ≤ r.stop) (hstart : Boundary r.start s)
    (hstop : Boundary r.stop s) : ∃ t, s.Holds r t := by
  obtain ⟨n, k⟩ := r
  obtain ⟨p, q, rfl, rfl⟩ : ∃ p q, s = p ++ q ∧ width p = n := hstart
  obtain ⟨p', q', hs, rfl⟩ : ∃ p' q', p ++ q = p' ++ q' ∧ width p' = k := hstop
  obtain ⟨t, rfl, rfl⟩ | ⟨t, rfl, rfl⟩ := List.append_eq_append_iff.1 hs
  · exact ⟨t, p, q', (List.append_assoc ..).symm, by rw [width_append]⟩
  · have ht : t = [] := width_eq_zero.1 (by simp only [width_append] at hle; omega)
    subst ht
    exact ⟨[], p', q, by simp, by simp⟩

/-- A range lies within itself. -/
theorem IsRange.self {s : Text} {region r : Span} (h : s.IsRange region r) : s.IsRange r r :=
  ⟨⟨Nat.le_refl _, Nat.le_refl _⟩, h.le, h.start, h.stop⟩

/-- A range divides what stands around it. -/
theorem Holds.exists_split {s t : Text} {r q : Span} (h : s.Holds r t) (hq : s.IsRange r q) :
    ∃ a b c, t = a ++ (b ++ c) ∧ s.Holds ⟨r.start, q.start⟩ a ∧ s.Holds q b ∧
      s.Holds ⟨q.stop, r.stop⟩ c := by
  obtain ⟨a, ha⟩ := Text.exists_holds (r := ⟨r.start, q.start⟩) hq.within.1 h.boundary_start hq.start
  obtain ⟨b, hb⟩ := Text.exists_holds hq.le hq.start hq.stop
  obtain ⟨c, hc⟩ := Text.exists_holds (r := ⟨q.stop, r.stop⟩) hq.within.2 hq.stop h.boundary_stop
  exact ⟨a, b, c, h.at_eq.symm.trans (ha.append (hb.append hc)).at_eq, ha, hb, hc⟩

theorem IsRange.exists_holds {s : Text} {region r : Span} (h : s.IsRange region r) :
    ∃ t, s.Holds r t := Text.exists_holds h.le h.start h.stop

/-- What is left of a text once its blank ends are cut off stands in it. -/
theorem holds_trimmedSpan (s : Text) : s.Holds (trimmedSpan s) (trim isBlank s) := by
  obtain ⟨a, b, hs, -, -, hspan⟩ := exists_trim s
  exact ⟨a, b, hs, hspan⟩

end Text

end MarkupSync
