import MarkupSync.Text.Flow

/-!
# Words and blanks

* `takeWhile_append_of_stop`, `dropWhile_append_of_stop`: where a run of characters ends;
* `words_append_blank`, `words_blank_append`: blanks around a text do not change its words;
* `collapsed?_eq_none_iff`: a text without words is blank;
* `isLower_toLower`, `eq_of_toLower_eq`, `lower_of_space`: letters in lower case, and white space;
* `collapsed?_of_collapse_eq`: a text whose words have single spaces between them stays as it is.
-/

namespace MarkupSync.Text

/-- All characters are blanks of markup. -/
def IsBlankText (s : Text) : Prop := ∀ c ∈ s, isBlank c = true

theorem isBlankText_nil : IsBlankText [] := nofun

theorem isBlankText_cons {c : Char} {s : Text} :
    IsBlankText (c :: s) ↔ isBlank c = true ∧ IsBlankText s := by
  simp [IsBlankText]

theorem isBlankText_append {s t : Text} :
    IsBlankText (s ++ t) ↔ IsBlankText s ∧ IsBlankText t := by
  simp only [IsBlankText, List.mem_append]
  exact ⟨fun h => ⟨fun c hc => h c (.inl hc), fun c hc => h c (.inr hc)⟩,
    fun h c hc => hc.elim (h.1 c) (h.2 c)⟩

/-! ## Runs of characters -/

/-- A run of characters of a class ends in front of a character of another class. -/
theorem takeWhile_append_of_stop {p : Char → Bool} {s t : Text} (hs : s.all p = true)
    (ht : ∀ c ∈ t.head?, p c = false) : (s ++ t).takeWhile p = s := by
  rw [List.takeWhile_append_of_pos (by simpa using hs)]
  cases t with
  | nil => simp
  | cons c t => simp [ht c rfl]

theorem dropWhile_append_of_stop {p : Char → Bool} {s t : Text} (hs : s.all p = true)
    (ht : ∀ c ∈ t.head?, p c = false) : (s ++ t).dropWhile p = t := by
  rw [List.dropWhile_append_of_pos (by simpa using hs)]
  cases t with
  | nil => rfl
  | cons c t => simp [ht c rfl]

theorem head?_dropWhile (p : Char → Bool) (s : Text) : ∀ c ∈ (s.dropWhile p).head?, p c = false := by
  intro c hc
  have := List.head?_dropWhile_not p s
  rw [hc] at this
  simpa using this

/-! ## Fields -/

theorem fields_ne_nil (p : Char → Bool) (s : Text) : fields p s ≠ [] := by
  cases s with
  | nil => simp [fields]
  | cons c s =>
    rw [fields]
    split
    · simp
    · split <;> simp

/-- Fields consist of characters of the text that are no separators. -/
theorem of_mem_fields {p : Char → Bool} {s w : Text} (hw : w ∈ fields p s) {c : Char} (hc : c ∈ w) :
    p c = false ∧ c ∈ s := by
  induction s generalizing w with
  | nil =>
    rw [fields, List.mem_singleton] at hw
    subst hw
    cases hc
  | cons d s ih =>
    rw [fields] at hw
    obtain ⟨v, vs, hv⟩ := List.exists_cons_of_ne_nil (fields_ne_nil p s)
    split at hw
    next =>
      rcases List.mem_cons.1 hw with rfl | hw
      · cases hc
      · exact (ih hw hc).imp_right (List.mem_cons_of_mem _)
    next hd =>
      simp only [hv] at hw ih
      rcases List.mem_cons.1 hw with rfl | hw
      · rcases List.mem_cons.1 hc with rfl | hc
        · exact ⟨by simpa using hd, List.mem_cons_self⟩
        · exact (ih List.mem_cons_self hc).imp_right (List.mem_cons_of_mem _)
      · exact (ih (List.mem_cons_of_mem _ hw) hc).imp_right (List.mem_cons_of_mem _)

/-- A separator divides the fields in front of it from those behind it. -/
theorem fields_append_cons {p : Char → Bool} {c : Char} (hc : p c = true) (s t : Text) :
    fields p (s ++ c :: t) = fields p s ++ fields p t := by
  induction s with
  | nil => simp [fields, hc]
  | cons d s ih =>
    rw [List.cons_append, fields, fields, ih]
    by_cases hd : p d = true
    · simp [hd]
    · simp only [hd]
      obtain ⟨w, ws, hw⟩ := List.exists_cons_of_ne_nil (fields_ne_nil p s)
      simp [hw]

theorem words_append_cons {c : Char} (hc : isBlank c = true) (s t : Text) :
    words (s ++ c :: t) = words s ++ words t := by
  rw [words, fields_append_cons hc, List.filter_append]
  rfl

theorem words_nil : words [] = [] := rfl

theorem of_mem_words {s w : Text} (h : w ∈ words s) : w ≠ [] ∧ ∀ c ∈ w, isBlank c = false := by
  obtain ⟨hf, hn⟩ := List.mem_filter.1 h
  exact ⟨by simpa using hn, fun c hc => (of_mem_fields hf hc).1⟩

theorem words_of_word {w : Text} (hn : w ≠ []) (h : ∀ c ∈ w, isBlank c = false) : words w = [w] := by
  have key {w : Text} (h : ∀ c ∈ w, isBlank c = false) : fields isBlank w = [w] := by
    induction w with
    | nil => rfl
    | cons c w ih =>
      rw [fields, ih fun b hb => h b (List.mem_cons_of_mem _ hb), h c List.mem_cons_self]
      rfl
  rw [words, key h]
  simp [hn]

/-- Words with single spaces between them are read as these words. -/
theorem words_intercalate {ws : List Text} (h : ∀ w ∈ ws, w ≠ [] ∧ ∀ c ∈ w, isBlank c = false) :
    words ([' '].intercalate ws) = ws := by
  induction ws with
  | nil => rfl
  | cons w ws ih =>
    obtain ⟨hn, hw⟩ := h w List.mem_cons_self
    cases ws with
    | nil => simpa using words_of_word hn hw
    | cons v vs =>
      rw [List.intercalate_cons_cons, List.append_assoc, List.singleton_append,
        words_append_cons rfl, words_of_word hn hw, ih fun u hu => h u (List.mem_cons_of_mem _ hu)]
      rfl

theorem words_cons_blank {c : Char} (hc : isBlank c = true) (s : Text) : words (c :: s) = words s :=
  words_append_cons hc [] s

/-- Blanks in front do not change the words. -/
theorem words_blank_append {b : Text} (hb : IsBlankText b) (s : Text) : words (b ++ s) = words s := by
  induction b with
  | nil => rfl
  | cons c b ih =>
    obtain ⟨hc, hb⟩ := isBlankText_cons.1 hb
    rw [List.cons_append, words_cons_blank hc, ih hb]

/-- Blanks behind do not change the words. -/
theorem words_append_blank (s : Text) {b : Text} (hb : IsBlankText b) : words (s ++ b) = words s := by
  cases b with
  | nil => rw [List.append_nil]
  | cons c b =>
    obtain ⟨hc, hb⟩ := isBlankText_cons.1 hb
    have hw : words b = [] := by
      have := words_blank_append hb []
      rwa [List.append_nil, words_nil] at this
    rw [words_append_cons hc, hw, List.append_nil]

theorem words_eq_nil_iff {s : Text} : words s = [] ↔ IsBlankText s := by
  constructor
  · intro h
    induction s with
    | nil => exact isBlankText_nil
    | cons c s ih =>
      by_cases hc : isBlank c = true
      · rw [words_cons_blank hc] at h
        exact isBlankText_cons.2 ⟨hc, ih h⟩
      · rw [words, fields] at h
        simp only [hc] at h
        obtain ⟨w, ws, hw⟩ := List.exists_cons_of_ne_nil (fields_ne_nil isBlank s)
        simp [hw] at h
  · intro h
    have := words_append_blank [] h
    rwa [List.nil_append, words_nil] at this

/-! ## Letters -/

theorem isUpper_iff {c : Char} : c.isUpper = true ↔ 65 ≤ c.val ∧ c.val ≤ 90 := decide_eq_true_iff

theorem isLower_iff {c : Char} : c.isLower = true ↔ 97 ≤ c.val ∧ c.val ≤ 122 :=
  (Bool.and_eq_true _ _).to_iff.trans (and_congr decide_eq_true_iff decide_eq_true_iff)

theorem isAlpha_iff {c : Char} : c.isAlpha = true ↔ c.isUpper = true ∨ c.isLower = true :=
  (Bool.or_eq_true _ _).to_iff

theorem toLower_of_isUpper {c : Char} (h : c.isUpper = true) : c.toLower.val = c.val + 32 :=
  congrArg Char.val (dif_pos (isUpper_iff.1 h))

theorem toLower_of_not_isUpper {c : Char} (h : c.isUpper = false) : c.toLower = c :=
  dif_neg fun hc => Bool.noConfusion (h.symm.trans (isUpper_iff.2 hc))

/-- A capital letter becomes a small one. -/
theorem isLower_toLower {c : Char} (h : c.isUpper = true) : c.toLower.isLower = true := by
  obtain ⟨h1, h2⟩ := isUpper_iff.1 h
  rw [isLower_iff, toLower_of_isUpper h]
  simp only [UInt32.le_iff_toNat_le, UInt32.toNat_add] at h1 h2 ⊢
  simp at h1 h2 ⊢
  omega

/-- Only letters have another form in lower case. -/
theorem eq_of_toLower_eq {c d : Char} (hd : d.isAlpha = false) (h : c.toLower = d) : c = d := by
  cases hc : c.isUpper with
  | false => exact (toLower_of_not_isUpper hc).symm.trans h
  | true =>
    have := isAlpha_iff.2 (.inr (isLower_toLower hc))
    rw [h, hd] at this
    cases this

/-- A character with the lower case of a letter is a letter. -/
theorem isAlpha_of_toLower_eq {c d : Char} (hd : d.isAlpha = true) (h : c.toLower = d.toLower) :
    c.isAlpha = true := by
  have hlower : d.toLower.isAlpha = true := by
    cases hl : d.toLower.isAlpha with
    | true => rfl
    | false =>
      rw [← eq_of_toLower_eq hl rfl, hd] at hl
      cases hl
  cases hc : c.isUpper with
  | true => exact isAlpha_iff.2 (.inl hc)
  | false => rwa [← h, toLower_of_not_isUpper hc] at hlower

theorem not_isAlpha_of_isSpace {c : Char} (h : isSpace c = true) : c.isAlpha = false := by
  rw [Bool.eq_false_iff]
  intro halpha
  rw [isAlpha_iff, isUpper_iff, isLower_iff] at halpha
  simp only [isSpace, Bool.or_eq_true, Bool.and_eq_true, beq_iff_eq, decide_eq_true_eq,
    Char.le_def, Char.ext_iff, UInt32.le_iff_toNat_le, ← UInt32.toNat_inj] at h halpha
  simp at h halpha
  omega

theorem not_isAlpha_of_isBlank {c : Char} (h : isBlank c = true) : c.isAlpha = false :=
  not_isAlpha_of_isSpace (isSpace_of_isBlank h)

/-- Blanks are blanks in lower case, and only they are. -/
theorem isBlank_toLower (c : Char) : isBlank c.toLower = isBlank c := by
  by_cases h : isBlank c.toLower = true
  · have hc : c = c.toLower := eq_of_toLower_eq (not_isAlpha_of_isBlank h) rfl
    rw [← hc]
  · have h' : isBlank c.toLower = false := Bool.eq_false_iff.2 h
    rw [h']
    cases hc : isBlank c with
    | false => rfl
    | true =>
      simp only [isBlank, Bool.or_eq_true, beq_iff_eq] at hc
      rcases hc with (((rfl | rfl) | rfl) | rfl) | rfl <;> revert h' <;> decide

/-- White space has no other form in lower case. -/
theorem lower_of_space {s : Text} (hs : s.all isSpace = true) : lower s = s := by
  refine (List.map_congr_left fun c hc => ?_).trans (List.map_id s)
  have halpha := not_isAlpha_of_isSpace (List.all_eq_true.1 hs c hc)
  refine toLower_of_not_isUpper ?_
  rw [Bool.eq_false_iff]
  intro hupper
  rw [isAlpha_iff.2 (.inl hupper)] at halpha
  cases halpha

theorem not_mem_lower {d : Char} (hd : d.isAlpha = false) {s : Text} (h : d ∉ s) : d ∉ lower s := by
  rw [lower, List.mem_map]
  rintro ⟨c, hc, hcd⟩
  exact h (eq_of_toLower_eq hd hcd ▸ hc)

end MarkupSync.Text

namespace MarkupSync

/-! ## Collapsing -/

/-- A character of words with spaces between them is a space or one of a word. -/
theorem Text.of_mem_intercalate {ws : List Text} {c : Char} (h : c ∈ [' '].intercalate ws) :
    c = ' ' ∨ ∃ w ∈ ws, c ∈ w := by
  induction ws with
  | nil => cases h
  | cons w ws ih =>
    cases ws with
    | nil => exact .inr ⟨w, List.mem_cons_self, by simpa using h⟩
    | cons v vs =>
      rw [List.intercalate_cons_cons, List.append_assoc, List.mem_append, List.mem_append,
        List.mem_singleton] at h
      rcases h with h | rfl | h
      · exact .inr ⟨w, List.mem_cons_self, h⟩
      · exact .inl rfl
      · exact (ih h).imp_right fun ⟨u, hu, hc⟩ => ⟨u, List.mem_cons_of_mem _ hu, hc⟩

/-- The only blanks of a collapsed text are spaces. -/
theorem Text.of_mem_collapse {s : Text} {c : Char} (h : c ∈ Text.collapse s) :
    c = ' ' ∨ isBlank c = false :=
  (of_mem_intercalate h).imp_right fun ⟨_, hw, hc⟩ => (of_mem_words hw).2 c hc

theorem Text.collapse_eq_nil_iff {s : Text} : Text.collapse s = [] ↔ Text.IsBlankText s := by
  rw [← Text.words_eq_nil_iff, Text.collapse]
  constructor
  · intro h
    cases hw : Text.words s with
    | nil => rfl
    | cons w ws =>
      have hne : w ≠ [] := by
        have : w ∈ Text.words s := hw ▸ List.mem_cons_self
        simpa using (List.mem_filter.1 this).2
      rw [hw] at h
      cases ws <;> simp [List.intercalate, hne] at h
  · intro h
    rw [h]
    rfl

theorem collapsed?_eq_none_iff {s : Text} : collapsed? s = none ↔ Text.IsBlankText s := by
  rw [collapsed?, ← Text.collapse_eq_nil_iff]
  by_cases h : Text.collapse s = [] <;> simp [h]

theorem collapsed?_congr {s t : Text} (h : Text.words s = Text.words t) :
    collapsed? s = collapsed? t := by
  rw [collapsed?, collapsed?, Text.collapse, Text.collapse, h]

/-- Blanks around a text do not change its collapsed form. -/
theorem collapsed?_blank {a b : Text} (ha : Text.IsBlankText a) (hb : Text.IsBlankText b)
    (s : Text) : collapsed? (a ++ s ++ b) = collapsed? s :=
  collapsed?_congr (by rw [Text.words_append_blank _ hb, Text.words_blank_append ha])

theorem collapsed?_of_collapse_eq {s : Text} (hn : s ≠ []) (h : Text.collapse s = s) :
    collapsed? s = some s := by
  rw [collapsed?, h]
  simp [hn]

end MarkupSync
