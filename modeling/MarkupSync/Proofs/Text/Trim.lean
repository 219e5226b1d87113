import Mathlib.Data.List.DropRight
import MarkupSync.Proofs.Text.Words

/-!
# Blanks at the ends of a text

* `trim_trim`: what has been cut off is cut off;
* `exists_trim`: a text is its trimmed form between blanks, and `trimmedSpan` says where;
* `trim_eq_nil_iff`: nothing is left of a blank text;
* `trim_between`: blanks around a text are cut off;
* `EndsInk`: texts that end without a blank (`EndsInk.trimEnd`);
* `collapse_collapse`, `trim_collapse`: texts with single spaces have nothing to lose.
-/

namespace MarkupSync.Text

theorem trim_eq (p : Char → Bool) (s : Text) : trim p s = (s.dropWhile p).rdropWhile p := rfl

theorem trim_sublist (p : Char → Bool) (s : Text) : (trim p s).Sublist s :=
  (List.rdropWhile_prefix ..).sublist.trans (List.dropWhile_sublist _)

/-- What has been cut off is cut off. -/
theorem trim_trim (p : Char → Bool) (s : Text) : trim p (trim p s) = trim p s := by
  have hstart : (trim p s).dropWhile p = trim p s := by
    rw [List.dropWhile_eq_self_iff]
    intro hlen
    have hprefix : trim p s <+: s.dropWhile p := List.rdropWhile_prefix ..
    have hhead := hprefix.head (List.length_pos_iff.1 hlen)
    rw [← List.head_eq_getElem_zero (List.length_pos_iff.1 hlen), hhead]
    simp [List.head_dropWhile_not]
  rw [trim_eq p (trim p s), hstart, trim_eq, List.rdropWhile_idempotent]

theorem trimEnd_append (p : Char → Bool) {a s : Text} (h : trimEnd p s ≠ []) :
    trimEnd p (a ++ s) = a ++ trimEnd p s := by
  have hs : s.reverse.dropWhile p ≠ [] := fun hd => h (by rw [trimEnd, hd]; rfl)
  rw [trimEnd, trimEnd, List.reverse_append, List.dropWhile_append]
  simp [hs]

/-- A text is what is left when its end is cut off, and what was cut off. -/
theorem exists_trimEnd_append (p : Char → Bool) (s : Text) :
    ∃ e, s = trimEnd p s ++ e ∧ e.all p = true := by
  refine ⟨(s.reverse.takeWhile p).reverse, ?_, ?_⟩
  · rw [trimEnd, ← List.reverse_append, List.takeWhile_append_dropWhile, List.reverse_reverse]
  · rw [List.all_reverse, List.all_takeWhile]

theorem trimEnd_getLast? (p : Char → Bool) (s : Text) :
    ∀ c ∈ (trimEnd p s).getLast?, p c = false := by
  rw [trimEnd, List.getLast?_reverse]
  exact head?_dropWhile p s.reverse

theorem trimEnd_append_of_all {p : Char → Bool} {s e : Text}
    (hs : ∀ c ∈ s.getLast?, p c = false) (he : e.all p = true) : trimEnd p (s ++ e) = s := by
  have hdrop : (s ++ e).reverse.dropWhile p = s.reverse := by
    rw [List.reverse_append]
    refine dropWhile_append_of_stop ?_ ?_
    · rwa [List.all_reverse]
    · intro c hc
      rw [List.head?_reverse] at hc
      exact hs c hc
  rw [trimEnd, hdrop, List.reverse_reverse]

theorem trimStart_eq_nil_iff {s : Text} : trimStart isBlank s = [] ↔ IsBlankText s := by
  induction s with
  | nil => simp [trimStart, isBlankText_nil]
  | cons c s ih =>
    rw [trimStart] at ih
    rw [trimStart, List.dropWhile_cons, isBlankText_cons]
    by_cases hc : isBlank c = true <;> simp [hc, ih]

theorem trimEnd_eq_nil_iff {s : Text} : trimEnd isBlank s = [] ↔ IsBlankText s := by
  have h := trimStart_eq_nil_iff (s := s.reverse)
  rw [trimStart] at h
  rw [trimEnd, List.reverse_eq_nil_iff, h, IsBlankText, IsBlankText]
  simp

theorem takeWhile_isBlank (s : Text) : IsBlankText (s.takeWhile isBlank) := fun c hc => by
  have := List.all_takeWhile (p := isBlank) (l := s)
  exact List.all_eq_true.1 this c hc

/-- A text is its trimmed start behind blanks. -/
theorem exists_trimStart (s : Text) : ∃ a, s = a ++ trimStart isBlank s ∧ IsBlankText a :=
  ⟨s.takeWhile isBlank, List.takeWhile_append_dropWhile.symm, takeWhile_isBlank s⟩

/-- A text is its trimmed end in front of blanks. -/
theorem exists_trimEnd (s : Text) : ∃ b, s = trimEnd isBlank s ++ b ∧ IsBlankText b := by
  obtain ⟨b, hs, hb⟩ := exists_trimEnd_append isBlank s
  exact ⟨b, hs, List.all_eq_true.1 hb⟩

theorem trimStart_head (s : Text) : ∀ c ∈ (trimStart isBlank s).head?, isBlank c = false :=
  head?_dropWhile isBlank s

/-- Nothing is left of a blank text, and only of that. -/
theorem trim_eq_nil_iff {s : Text} : trim isBlank s = [] ↔ IsBlankText s := by
  rw [trim, trimEnd_eq_nil_iff]
  constructor
  · intro h
    cases hs : trimStart isBlank s with
    | nil => exact trimStart_eq_nil_iff.1 hs
    | cons c t =>
      have hc := trimStart_head s c (by rw [hs]; rfl)
      rw [hs] at h
      rw [(isBlankText_cons.1 h).1] at hc
      cases hc
  · intro h
    rw [trimStart_eq_nil_iff.2 h]
    exact isBlankText_nil

/-- A text is its trimmed form between blanks. -/
theorem exists_trim (s : Text) : ∃ a b, s = a ++ trim isBlank s ++ b ∧ IsBlankText a ∧
    IsBlankText b ∧ trimmedSpan s = ⟨width a, width a + width (trim isBlank s)⟩ := by
  obtain ⟨a, ha, hblank⟩ := exists_trimStart s
  obtain ⟨b, hb, hblank'⟩ := exists_trimEnd (trimStart isBlank s)
  refine ⟨a, b, ?_, hblank, hblank', ?_⟩
  · rw [trim, List.append_assoc, ← hb]
    exact ha
  · have hstart : width s - width (trimStart isBlank s) = width a := by
      rw [ha, width_append, ← ha]
      omega
    simp only [trimmedSpan, hstart]
    by_cases h : trim isBlank s = []
    · rw [trimEnd_eq_nil_iff.2 (trim_eq_nil_iff.1 h), h]
      simp
    · have : trimEnd isBlank s = a ++ trim isBlank s := by
        rw [trim] at h ⊢
        rw [← trimEnd_append isBlank h, ← ha]
      rw [this, width_append, Nat.max_eq_left (Nat.le_add_right _ _)]

theorem at_trimmedSpan (s : Text) : s.at (trimmedSpan s) = trim isBlank s := by
  obtain ⟨a, b, heq, -, -, hspan⟩ := exists_trim s
  have := slice_append a (trim isBlank s) b
  rw [← heq] at this
  rw [hspan]
  exact this

/-- Blanks around a text are cut off. -/
theorem trim_between {a t b : Text} (ha : IsBlankText a) (hb : IsBlankText b) (hn : trim isBlank t ≠ []) :
    trim isBlank (a ++ (t ++ b)) = trim isBlank t := by
  have hstart : trimStart isBlank t ≠ [] := fun h => hn (by rw [trim, h]; rfl)
  have h1 : trimStart isBlank (a ++ (t ++ b)) = trimStart isBlank t ++ b := by
    rw [trimStart] at hstart
    rw [trimStart, List.dropWhile_append_of_pos ha, List.dropWhile_append, if_neg (by simpa using hstart)]
    rfl
  rw [trim, h1, trim, trimEnd, trimEnd, List.reverse_append, List.dropWhile_append_of_pos]
  exact fun c hc => hb c (List.mem_reverse.1 hc)

/-! ## Texts without blanks at the end -/

/-- There is no blank at the end of a text. -/
def EndsInk (s : Text) : Prop := ∀ c ∈ s.getLast?, isBlank c = false

theorem EndsInk.trimEnd {s : Text} (h : EndsInk s) {b : Text} (hb : IsBlankText b) :
    Text.trimEnd isBlank (s ++ b) = s :=
  trimEnd_append_of_all h (List.all_eq_true.2 hb)

theorem EndsInk.trimEnd_append {s : Text} (h : EndsInk s) (b : Text) :
    Text.trimEnd isBlank (s ++ b) = s ++ Text.trimEnd isBlank b := by
  by_cases hb : Text.trimEnd isBlank b = []
  · rw [h.trimEnd (trimEnd_eq_nil_iff.1 hb), hb, List.append_nil]
  · exact Text.trimEnd_append isBlank hb

theorem endsInk_append {s t : Text} (ht : t ≠ []) (h : EndsInk t) : EndsInk (s ++ t) := by
  intro c hc
  rw [List.getLast?_append] at hc
  cases hlast : t.getLast? with
  | none => exact absurd (List.getLast?_eq_none_iff.1 hlast) ht
  | some d =>
    rw [hlast] at hc
    cases hc
    exact h _ hlast

/-! ## Collapsed texts -/

theorem words_collapse (s : Text) : words (collapse s) = words s :=
  words_intercalate fun _ => of_mem_words

theorem collapse_collapse (s : Text) : collapse (collapse s) = collapse s := by
  rw [collapse, words_collapse, ← collapse]

/-- Words with spaces between them have no blank at either end. -/
theorem ends_intercalate {ws : List Text} (h : ∀ w ∈ ws, w ≠ [] ∧ ∀ c ∈ w, isBlank c = false) :
    (∀ c ∈ ([' '].intercalate ws).head?, isBlank c = false) ∧ EndsInk ([' '].intercalate ws) := by
  induction ws with
  | nil => exact ⟨nofun, nofun⟩
  | cons w ws ih =>
    obtain ⟨⟨hne, hw⟩, hws⟩ := List.forall_mem_cons.1 h
    obtain ⟨c, u, rfl⟩ := List.exists_cons_of_ne_nil hne
    have hhead : isBlank c = false := hw c List.mem_cons_self
    cases ws with
    | nil =>
      refine ⟨by simpa using hhead, fun d hd => hw d ?_⟩
      exact List.mem_of_getLast? (by simpa using hd)
    | cons v vs =>
      rw [List.intercalate_cons_cons]
      refine ⟨by simpa using hhead, endsInk_append ?_ (ih hws).2⟩
      have hv := (hws v List.mem_cons_self).1
      cases vs <;> simp [List.intercalate, hv]

/-- A collapsed text has no blanks around it. -/
theorem trim_collapse (s : Text) : trim isBlank (collapse s) = collapse s := by
  obtain ⟨hstart, hend⟩ := ends_intercalate fun w (hw : w ∈ words s) => of_mem_words hw
  have hfirst : trimStart isBlank (collapse s) = collapse s := by
    rw [trimStart]
    exact dropWhile_append_of_stop (s := []) rfl hstart
  have hlast := hend.trimEnd isBlankText_nil
  rw [List.append_nil] at hlast
  rw [trim, hfirst]
  exact hlast

end MarkupSync.Text
