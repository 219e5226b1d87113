import MarkupSync.Text.Search

/-!
# What is found stays found

* `afterWord?_append_of_le`, `cut?_congr`, `cut?_append`: what is found does not depend on what
  follows it;
* `cut?_singleton_append`: a text is cut at the first of the characters that are looked for;
* `afterWord?_append_of_head`, `startsWith_concat`: a word neither goes on with a character that is not
  in it nor ends with one that is not its last.
-/

namespace MarkupSync.Text

/-- A word is found or not found in as many characters as it has. -/
theorem afterWord?_append_of_le {w s : Text} (h : w.length ≤ s.length) (t : Text) :
    afterWord? w (s ++ t) = (afterWord? w s).map (· ++ t) := by
  induction w generalizing s with
  | nil => simp [afterWord?]
  | cons d w ih =>
    cases s with
    | nil => simp at h
    | cons c s =>
      simp only [List.cons_append, afterWord?]
      split
      · exact ih (by simpa using h)
      · rfl

/-- The first occurrence of a word is found whatever follows it. -/
theorem cut?_congr {w s p r : Text} (h : cut? w s = some (p, r)) (t : Text) :
    cut? w (p ++ w ++ t) = some (p, t) := by
  induction s generalizing p with
  | nil =>
    simp only [cut?] at h
    split at h
    next hw =>
      cases h
      subst hw
      cases t <;> simp [cut?, afterWord?]
    next => cases h
  | cons c s ih =>
    have hs := eq_of_cut?_eq_some h
    simp only [cut?] at h
    split at h
    next hr =>
      cases h
      cases w with
      | nil => cases t <;> simp [cut?, afterWord?]
      | cons d w => simp [cut?, afterWord?]
    next hr =>
      obtain ⟨p', h', rfl⟩ := extend_eq_some.1 h
      -- the word is looked for in as many characters as stand in front of its end
      have hlen : w.length ≤ (c :: (p' ++ w)).length := by simp; omega
      have hnone : afterWord? w (c :: (p' ++ w)) = none := by
        have hcs : c :: s = c :: (p' ++ w) ++ r := by simpa using hs
        rw [hcs, afterWord?_append_of_le hlen] at hr
        simpa using hr
      have : c :: (p' ++ w ++ t) = c :: (p' ++ w) ++ t := by simp
      simp only [List.cons_append, List.nil_append, cut?]
      rw [this, afterWord?_append_of_le hlen, hnone, ih h']
      rfl

/-- The first occurrence of a word stays the first one. -/
theorem cut?_append {w s p r : Text} (h : cut? w s = some (p, r)) (t : Text) :
    cut? w (s ++ t) = some (p, r ++ t) := by
  have := cut?_congr h (r ++ t)
  rwa [← List.append_assoc, ← eq_of_cut?_eq_some h] at this

theorem cut?_singleton_cons (d c : Char) (s : Text) :
    cut? [d] (c :: s) = if d = c then some ([], s) else extend [c] (cut? [d] s) := by
  simp only [cut?, afterWord?]
  by_cases h : d = c <;> simp [h]

theorem cut?_singleton_eq_none {d : Char} {s : Text} : cut? [d] s = none ↔ d ∉ s := by
  induction s with
  | nil => simp [cut?]
  | cons c s ih =>
    rw [cut?_singleton_cons]
    by_cases h : d = c <;> simp [h, extend, ih]

/-- A text is cut at the first of the characters that are looked for. -/
theorem cut?_singleton_append {d : Char} {p : Text} (h : d ∉ p) (r : Text) :
    cut? [d] (p ++ d :: r) = some (p, r) := by
  induction p with
  | nil => simp [cut?_singleton_cons]
  | cons c p ih =>
    simp only [List.mem_cons, not_or] at h
    rw [List.cons_append, cut?_singleton_cons, if_neg h.1, ih h.2]
    rfl

/-- A text is cut at the first of the characters that are looked for, and at no later one. -/
theorem not_mem_of_cut?_eq_some {d : Char} {s p r : Text} (h : cut? [d] s = some (p, r)) : d ∉ p := by
  induction s generalizing p with
  | nil => cases h
  | cons c s ih =>
    rw [cut?_singleton_cons] at h
    split at h
    · cases h
      exact List.not_mem_nil
    next hc =>
      obtain ⟨q, hq, rfl⟩ := extend_eq_some.1 h
      simpa [hc] using ih hq

/-! ## Words at the start of a text -/

variable {w s t : Text}

theorem startsWith_cons (d c : Char) (w s : Text) :
    startsWith (d :: w) (c :: s) = (d == c && startsWith w s) := by
  by_cases h : d = c <;> simp [startsWith, afterWord?, h]

@[simp] theorem startsWith_nil_left (s : Text) : startsWith [] s = true := by
  cases s <;> rfl

/-- A word does not go on with a character that is not in it. -/
theorem afterWord?_append_of_head (h : ∀ c ∈ t.head?, c ∉ w) (s : Text) :
    afterWord? w (s ++ t) = (afterWord? w s).map (· ++ t) := by
  induction w generalizing s with
  | nil => simp [afterWord?]
  | cons d w ih =>
    have hw : ∀ c ∈ t.head?, c ∉ w := fun c hc hm => h c hc (List.mem_cons_of_mem _ hm)
    cases s with
    | nil =>
      cases t with
      | nil => rfl
      | cons c t =>
        have hne : d ≠ c := fun heq => h c rfl (heq ▸ List.mem_cons_self)
        simp [afterWord?, hne]
    | cons c s =>
      by_cases hc : d = c
      · simp [afterWord?, hc, ih hw]
      · simp [afterWord?, hc]

theorem startsWith_append_of_head (h : ∀ c ∈ t.head?, c ∉ w) (s : Text) :
    startsWith w (s ++ t) = startsWith w s := by
  rw [startsWith, afterWord?_append_of_head h, Option.isSome_map, startsWith]

/-- A word does not end with a character that is not its last one. -/
theorem startsWith_concat {c : Char} (h : ∀ d ∈ w.getLast?, d ≠ c) (s : Text) :
    startsWith w (s ++ [c]) = startsWith w s := by
  induction w generalizing s with
  | nil => simp
  | cons d w ih =>
    cases s with
    | nil =>
      cases w with
      | nil =>
        have hne : d ≠ c := h d rfl
        simp [startsWith, afterWord?, hne]
      | cons e w => simp [startsWith, afterWord?]
    | cons b s =>
      rw [List.cons_append, startsWith_cons, startsWith_cons]
      cases w with
      | nil => simp
      | cons e w => rw [ih (by simpa using h)]

/-- A text that starts with a word goes on doing so. -/
theorem startsWith_append (h : startsWith w s = true) (t : Text) :
    startsWith w (s ++ t) = true := by
  induction w generalizing s with
  | nil => simp
  | cons d w ih =>
    cases s with
    | nil => cases h
    | cons c s =>
      rw [startsWith_cons, Bool.and_eq_true] at h
      rw [List.cons_append, startsWith_cons, h.1, ih h.2]
      rfl

theorem lower_append (s t : Text) : lower (s ++ t) = lower s ++ lower t := List.map_append

end MarkupSync.Text
