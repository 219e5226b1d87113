import MarkupSync.Lexeme.Scan
import MarkupSync.Proofs.Text.Entity
import MarkupSync.Proofs.Text.Indent
import MarkupSync.Proofs.Text.Search
import MarkupSync.Proofs.Text.Trim

/-!
# Other blanks at line breaks

* `Text.IsBreak`: blanks with a line break among them;
* `Text.Reflow`: a text with other blanks at its line breaks, and at its end;
* `Reflow.takeWhile`, `Reflow.afterWord?`, `Reflow.cut?`: words are found as before;
* `Reflow.eq_of_not_mem`: a text without line breaks stays as it is;
* **`Reflow.words`**: the words of the text with its references decoded stay as they are.
-/

namespace MarkupSync.Text

/-- Blanks with a line break among them. -/
structure IsBreak (x : Text) : Prop where
  blank : IsBlankText x
  newline : '\n' ∈ x

theorem IsBreak.ne_nil {x : Text} (h : IsBreak x) : x ≠ [] := List.ne_nil_of_mem h.newline

/-- A text with other blanks at its line breaks; the new ones may stand in a close tag. Its end `a`
becomes `b`. -/
inductive Reflow (a b : Text) : Text → Text → Prop
  | stop : Reflow a b a b
  | char (c : Char) {s t : Text} (h : Reflow a b s t) : Reflow a b (c :: s) (c :: t)
  | blanks {x y s t : Text} (hx : IsBreak x) (hy : IsBreak y) (hclose : y.all isCloseBlank = true)
    (h : Reflow a b s t) : Reflow a b (x ++ s) (y ++ t)

namespace Reflow

variable {a b s t u v w x : Text} {c : Char}

theorem append_left (p : Text) (h : Reflow a b s t) : Reflow a b (p ++ s) (p ++ t) := by
  induction p with
  | nil => exact h
  | cons c p ih => exact .char c ih

theorem refl (s : Text) : Reflow [] [] s s := by
  simpa using append_left s (.stop : Reflow [] [] [] [])

theorem append (h : Reflow [] [] s t) (hu : Reflow a b u v) : Reflow a b (s ++ u) (t ++ v) := by
  induction h with
  | stop => exact hu
  | char c _ ih => exact .char c ih
  | blanks hx hy hclose _ ih =>
    rw [List.append_assoc, List.append_assoc]
    exact .blanks hx hy hclose ih

/-- A text without line breaks stays as it is. -/
theorem eq_of_not_mem (h : Reflow [] [] s t) (hs : '\n' ∉ s) : t = s := by
  induction h with
  | stop => rfl
  | char c _ ih => rw [ih fun h => hs (List.mem_cons_of_mem _ h)]
  | blanks hx => exact absurd (List.mem_append_left _ hx.newline) hs

theorem isBlankText_iff (ha : IsBlankText a) (hb : IsBlankText b) (h : Reflow a b s t) :
    IsBlankText t ↔ IsBlankText s := by
  induction h with
  | stop => exact iff_of_true hb ha
  | char c _ ih => rw [isBlankText_cons, isBlankText_cons, ih]
  | blanks hx hy _ _ ih =>
    rw [isBlankText_append, isBlankText_append, ih]
    exact ⟨fun h => ⟨hx.blank, h.2⟩, fun h => ⟨hy.blank, h.2⟩⟩

theorem eq_nil_iff (h : Reflow [] [] s t) : t = [] ↔ s = [] := by
  cases h with
  | stop => rfl
  | char => exact ⟨nofun, nofun⟩
  | blanks hx hy => simp [hx.ne_nil, hy.ne_nil]

/-! ## Ends that are blank -/

theorem lower_eq (hx : IsBlankText x) : Text.lower x = x :=
  lower_of_space (List.all_eq_true.2 fun c hc => isSpace_of_isBlank (hx c hc))

theorem lower (ha : IsBlankText a) (hb : IsBlankText b) (h : Reflow a b s t) :
    Reflow a b (lower s) (lower t) := by
  induction h with
  | stop =>
    rw [lower_eq ha, lower_eq hb]
    exact .stop
  | char c _ ih => exact .char c.toLower ih
  | blanks hx hy hclose _ ih =>
    rw [lower_append, lower_append, lower_eq hx.blank, lower_eq hy.blank]
    exact .blanks hx hy hclose ih

/-- The same text, up to the first place where the blanks may differ. -/
theorem exists_word (ha : IsBlankText a) (hb : IsBlankText b) (h : Reflow a b s t) :
    ∃ w u v, s = w ++ u ∧ t = w ++ v ∧ (∀ c ∈ w, isBlank c = false) ∧
      (∀ c ∈ u.head?, isBlank c = true) ∧ (∀ c ∈ v.head?, isBlank c = true) ∧ Reflow a b u v := by
  have hhead {x : Text} (hx : IsBlankText x) : ∀ c ∈ x.head?, isBlank c = true :=
    fun c hc => hx c (List.mem_of_mem_head? hc)
  have hbreak {x : Text} (hx : IsBreak x) (s : Text) : ∀ c ∈ (x ++ s).head?, isBlank c = true := by
    rw [List.head?_append_of_ne_nil _ hx.ne_nil]
    exact hhead hx.blank
  induction h with
  | stop => exact ⟨[], a, b, rfl, rfl, nofun, hhead ha, hhead hb, .stop⟩
  | @char c s t h ih =>
    by_cases hc : isBlank c = true
    · exact ⟨[], c :: s, c :: t, rfl, rfl, nofun, by simpa using hc, by simpa using hc, .char c h⟩
    · obtain ⟨w, u, v, rfl, rfl, hw, hu, hv, huv⟩ := ih
      exact ⟨c :: w, u, v, rfl, rfl, List.forall_mem_cons.2 ⟨by simpa using hc, hw⟩, hu, hv, huv⟩
  | @blanks x y s t hx hy hclose h ih =>
    exact ⟨[], x ++ s, y ++ t, rfl, rfl, nofun, hbreak hx s, hbreak hy t,
      .blanks hx hy hclose h⟩

/-- What stands first is not blank if it was not, and is the same then. -/
theorem head?_eq_some_iff (ha : IsBlankText a) (hb : IsBlankText b) (h : Reflow a b s t)
    (hc : isBlank c = false) : t.head? = some c ↔ s.head? = some c := by
  obtain ⟨w, u, v, rfl, rfl, -, hu, hv, -⟩ := h.exists_word ha hb
  have hne {x : Text} (hx : ∀ c ∈ x.head?, isBlank c = true) : x.head? ≠ some c := fun h => by
    rw [hx c h] at hc
    cases hc
  cases w with
  | nil => exact iff_of_false (hne hv) (hne hu)
  | cons d w => rfl

/-- The character at the start stays, unless it is blank. -/
theorem exists_cons (ha : IsBlankText a) (h : Reflow a b (c :: s) t) (hc : isBlank c = false) :
    ∃ u, t = c :: u ∧ Reflow a b s u := by
  generalize hs : c :: s = s' at h
  cases h with
  | stop => simp [ha c (hs ▸ List.mem_cons_self)] at hc
  | char d h =>
    cases hs
    exact ⟨_, rfl, h⟩
  | @blanks x y s₀ t₀ hx hy =>
    obtain ⟨d, x, rfl⟩ := List.exists_cons_of_ne_nil hx.ne_nil
    cases hs
    simp [hx.blank c List.mem_cons_self] at hc

/-- A word at the start stays. -/
theorem exists_append (ha : IsBlankText a) (hw : ∀ c ∈ w, isBlank c = false)
    (h : Reflow a b (w ++ s) t) : ∃ u, t = w ++ u ∧ Reflow a b s u := by
  induction w generalizing t with
  | nil => exact ⟨t, rfl, h⟩
  | cons c w ih =>
    obtain ⟨hc, hw⟩ := List.forall_mem_cons.1 hw
    obtain ⟨u, rfl, hu⟩ := h.exists_cons ha hc
    obtain ⟨v, rfl, hv⟩ := ih hw hu
    exact ⟨v, rfl, hv⟩

/-- Characters that are not blank are taken as before. -/
theorem takeWhile {p : Char → Bool} (hp : ∀ c, isBlank c = true → p c = false)
    (ha : IsBlankText a) (hb : IsBlankText b) (h : Reflow a b s t) :
    t.takeWhile p = s.takeWhile p ∧ Reflow a b (s.dropWhile p) (t.dropWhile p) := by
  have hstop {x : Text} (hx : IsBlankText x) (s : Text) (hs : x = [] → s = []) :
      (x ++ s).takeWhile p = [] ∧ (x ++ s).dropWhile p = x ++ s := by
    cases x with
    | nil => simp [hs rfl]
    | cons c x => simp [hp c (hx c List.mem_cons_self)]
  induction h with
  | stop =>
    have hs := hstop ha [] fun _ => rfl
    have ht := hstop hb [] fun _ => rfl
    simp only [List.append_nil] at hs ht
    rw [hs.1, ht.1, hs.2, ht.2]
    exact ⟨rfl, .stop⟩
  | char c h ih =>
    cases hc : p c with
    | true => simpa [List.takeWhile_cons, List.dropWhile_cons, hc] using ih
    | false => simpa [List.takeWhile_cons, List.dropWhile_cons, hc] using h.char c
  | @blanks x y s t hx hy hclose h ih =>
    have hs := hstop hx.blank s fun h => absurd h hx.ne_nil
    have ht := hstop hy.blank t fun h => absurd h hy.ne_nil
    rw [hs.1, ht.1, hs.2, ht.2]
    exact ⟨rfl, .blanks hx hy hclose h⟩

/-- A word without blanks is found where it was. -/
theorem afterWord? (ha : IsBlankText a) (hb : IsBlankText b) (hw : ∀ c ∈ w, isBlank c = false)
    (h : Reflow a b s t) : Option.Rel (Reflow a b) (afterWord? w s) (afterWord? w t) := by
  induction w generalizing s t with
  | nil => exact .some h
  | cons d w ih =>
    obtain ⟨hd, hw⟩ := List.forall_mem_cons.1 hw
    have hnone {x : Text} (hx : IsBlankText x) (s : Text) (hs : x = [] → s = []) :
        Text.afterWord? (d :: w) (x ++ s) = none := by
      cases x with
      | nil =>
        rw [hs rfl]
        rfl
      | cons c x =>
        refine if_neg ?_
        rintro rfl
        simp [hx _ List.mem_cons_self] at hd
    cases h with
    | stop =>
      have hs := hnone ha [] fun _ => rfl
      have ht := hnone hb [] fun _ => rfl
      rw [List.append_nil] at hs ht
      rw [hs, ht]
      exact .none
    | char c h =>
      simp only [Text.afterWord?]
      split_ifs
      · exact ih hw h
      · exact .none
    | blanks hx hy =>
      rw [hnone hx.blank _ fun h => absurd h hx.ne_nil,
        hnone hy.blank _ fun h => absurd h hy.ne_nil]
      exact .none

/-- A text is cut at a word without blanks as before. -/
theorem cut? (ha : IsBlankText a) (hb : IsBlankText b) (hw : ∀ d ∈ c :: w, isBlank d = false)
    (h : Reflow a b s t) :
    Option.Rel (fun q q' => Reflow [] [] q.1 q'.1 ∧ Reflow a b q.2 q'.2) (cut? (c :: w) s)
      (cut? (c :: w) t) := by
  have hnot {x : Text} (hx : IsBlankText x) : c ∉ x := fun hm =>
    absurd ((hx c hm).symm.trans (hw c List.mem_cons_self)) nofun
  have hnone {x : Text} (hx : IsBlankText x) : Text.cut? (c :: w) x = none := by
    have := cut?_append_of_not_mem (w := w) (hnot hx) []
    simpa [Text.cut?, extend] using this
  induction h with
  | stop =>
    rw [hnone ha, hnone hb]
    exact .none
  | @char d s t h ih =>
    have hword := afterWord? ha hb hw (h.char d)
    simp only [Text.cut?]
    cases hs : Text.afterWord? (c :: w) (d :: s) with
    | some r =>
      rw [hs] at hword
      cases ht : Text.afterWord? (c :: w) (d :: t) with
      | some r' =>
        rw [ht] at hword
        cases hword with
        | some hr => exact .some ⟨.stop, hr⟩
      | none =>
        rw [ht] at hword
        cases hword
    | none =>
      rw [hs] at hword
      cases ht : Text.afterWord? (c :: w) (d :: t) with
      | some r' =>
        rw [ht] at hword
        cases hword
      | none =>
        generalize Text.cut? (c :: w) s = k at ih
        generalize Text.cut? (c :: w) t = k' at ih
        cases ih with
        | none => exact .none
        | some hr => exact .some ⟨.char d hr.1, hr.2⟩
  | @blanks x y s t hx hy hclose h ih =>
    rw [cut?_append_of_not_mem (hnot hx.blank), cut?_append_of_not_mem (hnot hy.blank)]
    generalize Text.cut? (c :: w) s = k at ih
    generalize Text.cut? (c :: w) t = k' at ih
    cases ih with
    | none => exact .none
    | some hr => exact .some ⟨.blanks hx hy hclose hr.1, hr.2⟩

theorem exists_cut? (ha : IsBlankText a) (hb : IsBlankText b)
    (hw : ∀ d ∈ c :: w, isBlank d = false) (h : Reflow a b s t) {p r : Text}
    (hs : Text.cut? (c :: w) s = some (p, r)) :
    ∃ p' r', Text.cut? (c :: w) t = some (p', r') ∧ Reflow [] [] p p' ∧ Reflow a b r r' := by
  have hrel := h.cut? ha hb hw
  rw [hs] at hrel
  generalize ht : Text.cut? (c :: w) t = q at hrel
  cases hrel with
  | some hq => exact ⟨_, _, rfl, hq.1, hq.2⟩

/-! ## Words -/

/-- Blanks in a text part its words, whatever they are. -/
theorem words_blanks (hx : IsBlankText x) (hn : x ≠ []) (p s : Text) :
    words (decodeEntities (p ++ (x ++ s))) =
      words (decodeEntities p) ++ words (decodeEntities s) := by
  obtain ⟨c, x, rfl⟩ := List.exists_cons_of_ne_nil hn
  obtain ⟨hc, hx⟩ := isBlankText_cons.1 hx
  have hdecoded : IsBlankText (decodeEntities x) := by rwa [decodeEntities_of_blank hx]
  rw [List.cons_append, decodeEntities_append_cons (.inr hc), words_append_cons hc,
    decodeEntities_append_of_blank hdecoded, words_blank_append hdecoded]

/-- **The words of a text stay what they are**, if its end changes no words. -/
theorem words (hab : ∀ p, words (decodeEntities (p ++ b)) = words (decodeEntities (p ++ a)))
    (h : Reflow a b s t) (p : Text) :
    words (decodeEntities (p ++ t)) = words (decodeEntities (p ++ s)) := by
  induction h generalizing p with
  | stop => exact hab p
  | @char c s t _ ih => simpa using ih (p ++ [c])
  | blanks hx hy _ _ ih =>
    rw [words_blanks hx.blank hx.ne_nil, words_blanks hy.blank hy.ne_nil]
    exact congrArg _ (ih [])

/-- Blanks at the end of a text are no words. -/
theorem words_end (ha : IsBlankText a) (hb : IsBlankText b) (p : Text) :
    Text.words (decodeEntities (p ++ b)) = Text.words (decodeEntities (p ++ a)) := by
  have hend {x : Text} (hx : IsBlankText x) :
      Text.words (decodeEntities (p ++ x)) = Text.words (decodeEntities p) := by
    have hdecoded : IsBlankText (decodeEntities x) := by rwa [decodeEntities_of_blank hx]
    rw [decodeEntities_append_blank p hdecoded, words_append_blank _ hdecoded]
  rw [hend ha, hend hb]

end Reflow

end MarkupSync.Text
