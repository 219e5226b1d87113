import MarkupSync.Proofs.Text.Entity
import MarkupSync.Section
import MarkupSync.Text.Flow

/-!
# Marks of templates

The end of a template is found by its text: whatever looks like a tag of a template counts, also in
a comment or in a value.

* `Section.isMark`, `Section.hasMark`: whether a tag of a template, or of an element whose name goes
  on, stands at the start of a text or somewhere in it, in any letter case;
* **`hasMark_append`**: no mark arises where a text goes on with a character that is in no mark;
* `hasMark_of_decodeEntities`, `hasMark_of_collapse`: a mark stays in what is read of a text;
* `templateContent?_append`: content without marks is found again.
-/

namespace MarkupSync

open Text

namespace Section

/-! ## Marks -/

/-- Whether a tag of a template, or of an element whose name goes on, starts here. -/
def isMark (s : Text) : Bool :=
  startsWith ('<' :: SectionKind.template.tag) (lower s) || closes .template s

/-- Whether there is a mark somewhere in a text. -/
def hasMark : Text → Bool
  | [] => false
  | c :: s => isMark (c :: s) || hasMark s

/-- Whether a character can stand in a mark behind its angle. -/
def continuesMark (c : Char) : Bool := ('/' :: SectionKind.template.tag).contains c.toLower

variable {c : Char} {s t : Text}

theorem isMark_of_closes (h : closes .template s = true) : isMark s = true := by
  rw [isMark, h, Bool.or_true]

theorem isMark_of_opens (h : opens .template s = true) : isMark s = true := by
  rw [isMark, startsWith]
  rw [opens] at h
  split at h
  next hw => simp [hw]
  next => cases h

/-- Only an angle starts a mark. -/
theorem isMark_of_ne (h : c ≠ '<') (s : Text) : isMark (c :: s) = false := by
  have hlower : '<' ≠ c.toLower := fun hc => h (eq_of_toLower_eq (by decide) hc.symm)
  simp [isMark, closes, lower, startsWith_cons, hlower]

theorem hasMark_cons_of_ne (h : c ≠ '<') (s : Text) : hasMark (c :: s) = hasMark s := by
  rw [hasMark, isMark_of_ne h, Bool.false_or]

theorem hasMark_append_of_not_mem (h : '<' ∉ s) (t : Text) : hasMark (s ++ t) = hasMark t := by
  induction s with
  | nil => rfl
  | cons c s ih =>
    simp only [List.mem_cons, not_or] at h
    rw [List.cons_append, hasMark_cons_of_ne (Ne.symm h.1), ih h.2]

theorem hasMark_of_not_mem (h : '<' ∉ s) : hasMark s = false := by
  have := hasMark_append_of_not_mem h []
  rwa [List.append_nil] at this

theorem not_continuesMark (h : continuesMark c = false) :
    c.toLower ∉ '/' :: SectionKind.template.tag := by
  rwa [continuesMark, List.contains_eq_mem, decide_eq_false_iff_not] at h

/-- A mark does not go on with a character that is in no mark. -/
theorem isMark_append (h : ∀ d ∈ t.head?, continuesMark d = false) (c : Char) (s : Text) :
    isMark (c :: s ++ t) = isMark (c :: s) := by
  have key {w : Text} (hw : w ⊆ '/' :: SectionKind.template.tag) :
      startsWith ('<' :: w) (lower (c :: s ++ t)) = startsWith ('<' :: w) (lower (c :: s)) := by
    rw [List.cons_append, lower, List.map_cons, lower, List.map_cons, startsWith_cons, startsWith_cons,
      List.map_append, startsWith_append_of_head]
    intro d hd hm
    rw [List.head?_map, Option.mem_def, Option.map_eq_some_iff] at hd
    obtain ⟨e, he, rfl⟩ := hd
    exact not_continuesMark (h e he) (hw hm)
  rw [isMark, isMark, closes, closes, key (List.subset_cons_self ..), key (List.Subset.refl _)]

/-- **No mark arises where a text goes on with a character that is in no mark.** -/
theorem hasMark_append (h : ∀ d ∈ t.head?, continuesMark d = false) (s : Text) :
    hasMark (s ++ t) = (hasMark s || hasMark t) := by
  induction s with
  | nil => rfl
  | cons c s ih =>
    have := isMark_append h c s
    rw [List.cons_append] at this ⊢
    rw [hasMark, hasMark, this, ih, Bool.or_assoc]

/-- No mark ends with a character that is not the last of marks. -/
theorem hasMark_concat (h : 'e' ≠ c.toLower) (s : Text) : hasMark (s ++ [c]) = hasMark s := by
  have key {w : Text} (hw : w.getLast? = some 'e') (s : Text) :
      startsWith w (lower (s ++ [c])) = startsWith w (lower s) := by
    rw [lower_append]
    refine startsWith_concat (fun d hd => ?_) _
    rw [hw, Option.mem_some_iff] at hd
    exact hd ▸ h
  induction s with
  | nil =>
    have : isMark [c] = isMark [] := by
      have := key (w := '<' :: SectionKind.template.tag) rfl []
      have := key (w := '<' :: '/' :: SectionKind.template.tag) rfl []
      simp_all [isMark, closes]
    simp [hasMark, this]
    decide
  | cons d s ih =>
    have : isMark (d :: (s ++ [c])) = isMark (d :: s) := by
      rw [isMark, isMark, closes, closes, ← List.cons_append, key rfl, key rfl]
    rw [List.cons_append, hasMark, hasMark, this, ih]

/-- There is no mark in the parts of a text without one. -/
theorem hasMark_of_append (h : hasMark (s ++ t) = false) : hasMark s = false ∧ hasMark t = false := by
  induction s with
  | nil => exact ⟨rfl, h⟩
  | cons c s ih =>
    rw [List.cons_append, hasMark, Bool.or_eq_false_iff] at h
    obtain ⟨hs, ht⟩ := ih h.2
    refine ⟨?_, ht⟩
    rw [hasMark, hs, Bool.or_false, ← Bool.not_eq_true]
    intro hm
    have : isMark (c :: (s ++ t)) = true := by
      rw [isMark, Bool.or_eq_true, closes] at hm ⊢
      rw [← List.cons_append, lower_append]
      exact hm.imp (startsWith_append · _) (startsWith_append · _)
    rw [h.1] at this
    cases this

/-- Behind its angle a mark is made of characters of marks. -/
theorem exists_of_hasMark (h : hasMark s = true) :
    ∃ a m b, s = a ++ '<' :: (m ++ b) ∧ isMark ('<' :: m) = true ∧
      ∀ c ∈ m, continuesMark c = true := by
  induction s with
  | nil => cases h
  | cons c s ih =>
    rw [hasMark, Bool.or_eq_true] at h
    obtain h | h := h
    · have key {w : Text} (h : startsWith ('<' :: w) (lower (c :: s)) = true)
          (hw : w ⊆ '/' :: SectionKind.template.tag) : c = '<' ∧ ∃ m b, s = m ++ b ∧ lower m = w ∧
            ∀ d ∈ m, continuesMark d = true := by
        obtain ⟨r, hr⟩ := Option.isSome_iff_exists.1 h
        obtain ⟨hc, hs⟩ := List.cons.inj (eq_of_afterWord? hr)
        obtain ⟨m, b, rfl, hm, -⟩ := List.map_eq_append_iff.1 hs
        refine ⟨eq_of_toLower_eq (by decide) hc, m, b, rfl, hm, fun d hd => ?_⟩
        rw [continuesMark, List.contains_eq_mem, decide_eq_true_iff]
        exact hw (hm ▸ List.mem_map_of_mem hd)
      have hlower (m : Text) : lower ('<' :: m) = '<' :: lower m := rfl
      rw [isMark, closes, Bool.or_eq_true] at h
      obtain h | h := h
      · obtain ⟨rfl, m, b, rfl, hm, hall⟩ := key h (List.subset_cons_self ..)
        exact ⟨[], m, b, rfl, by rw [isMark, hlower, hm]; rfl, hall⟩
      · obtain ⟨rfl, m, b, rfl, hm, hall⟩ := key h (List.Subset.refl _)
        exact ⟨[], m, b, rfl, by rw [isMark, closes, hlower, hm]; rfl, hall⟩
    · obtain ⟨a, m, b, rfl, hm, hall⟩ := ih h
      exact ⟨c :: a, m, b, rfl, hm, hall⟩

theorem hasMark_of_isMark {m : Text} (h : isMark ('<' :: m) = true) (a b : Text) :
    hasMark (a ++ '<' :: (m ++ b)) = true := by
  rw [← Bool.not_eq_false]
  intro hnone
  have := (hasMark_of_append (hasMark_of_append (t := '<' :: m ++ b) hnone).2).1
  rw [hasMark, h] at this
  cases this

/-! ## Marks in what is read -/

/-- A mark stays in what is read of a text with references. -/
theorem hasMark_of_decodeEntities (h : hasMark (decodeEntities s) = false) : hasMark s = false := by
  rw [← Bool.not_eq_true] at h ⊢
  refine fun hs => h ?_
  obtain ⟨a, m, b, rfl, hm, hall⟩ := exists_of_hasMark hs
  have hplain : decodeEntities (m ++ b) = m ++ decodeEntities b := by
    clear hs h hm
    induction m with
    | nil => rfl
    | cons c m ih =>
      obtain ⟨hc, hall⟩ := List.forall_mem_cons.1 hall
      have hne : c ≠ '&' := by
        rintro rfl
        exact absurd hc (by decide)
      rw [List.cons_append, decodeEntities_cons_of_ne hne, ih hall, List.cons_append]
  rw [decodeEntities_append_angle, hplain]
  exact hasMark_of_isMark hm _ _

theorem continuesMark_of_isBlank (h : isBlank c = true) : continuesMark c = false := by
  simp only [isBlank, Bool.or_eq_true, beq_iff_eq] at h
  rcases h with (((rfl | rfl) | rfl) | rfl) | rfl <;> decide

theorem hasMark_append_cons (hc : continuesMark c = false) (hne : c ≠ '<') (s t : Text) :
    hasMark (s ++ c :: t) = (hasMark s || hasMark t) := by
  rw [hasMark_append (fun d hd => by cases hd; exact hc), hasMark_cons_of_ne hne]

/-- The marks of a text are those of its words. -/
theorem any_hasMark_words (s : Text) : (words s).any hasMark = hasMark s := by
  induction h : s.length using Nat.strongRecOn generalizing s with
  | _ n ih =>
    subst h
    by_cases hs : ∀ c ∈ s, isBlank c = false
    · cases s with
      | nil => rfl
      | cons c s => simp [words_of_word (List.cons_ne_nil _ _) hs]
    · simp only [not_forall, Bool.not_eq_false] at hs
      obtain ⟨c, hc, hblank⟩ := hs
      obtain ⟨a, t, rfl⟩ := List.append_of_mem hc
      have hne : c ≠ '<' := by
        rintro rfl
        exact absurd hblank (by decide)
      rw [words_append_cons hblank, List.any_append, ih a.length (by simp) a rfl,
        ih t.length (by simp; omega) t rfl, hasMark_append_cons (continuesMark_of_isBlank hblank) hne]

/-- What collapses keeps its marks. -/
theorem hasMark_collapse (s : Text) : hasMark (collapse s) = hasMark s := by
  have key (ws : List Text) : hasMark ([' '].intercalate ws) = ws.any hasMark := by
    induction ws with
    | nil => rfl
    | cons w ws ih =>
      cases ws with
      | nil => simp
      | cons v ws =>
        rw [List.intercalate_cons_cons, List.append_assoc, List.singleton_append,
          hasMark_append_cons (by decide) (by decide), ih]
        rfl
  rw [collapse, key, any_hasMark_words]

/-! ## Content of templates -/

/-- **Content without marks is found again**, up to the close tag behind it. -/
theorem templateContent?_append (h : hasMark s = false) (ht : closes .template t = true) :
    templateContent? 0 (s ++ t) = some (s, t) := by
  have hhead : ∀ d ∈ t.head?, continuesMark d = false := by
    cases t with
    | nil => cases ht
    | cons d t =>
      intro e he
      cases he
      by_cases hd : d = '<'
      · rw [hd]
        decide
      · have := isMark_of_ne hd t
        rw [isMark_of_closes ht] at this
        cases this
  induction s with
  | nil =>
    cases t with
    | nil => cases ht
    | cons d t => simp [templateContent?, ht]
  | cons c s ih =>
    rw [hasMark, Bool.or_eq_false_iff, ← isMark_append hhead] at h
    have hcloses : closes .template (c :: s ++ t) ≠ true := fun hc => by
      rw [isMark_of_closes hc] at h
      cases h.1
    have hopens : opens .template (c :: s ++ t) ≠ true := fun ho => by
      rw [isMark_of_opens ho] at h
      cases h.1
    rw [List.cons_append] at hcloses hopens ⊢
    rw [templateContent?, if_neg hcloses, if_neg hopens, ih h.2]
    rfl

end Section

end MarkupSync
