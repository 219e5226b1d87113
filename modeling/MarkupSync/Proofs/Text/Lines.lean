import MarkupSync.Lexeme.Scan
import MarkupSync.Proofs.Text.Entity
import MarkupSync.Proofs.Text.Indent

/-!
# Running text of JSX

* `joinedLines?_eq_self_iff`: the running text of JSX that reads as it is written;
* **`flowText?_escapeExpressionText`**: such a text is read again where braces open expressions;
* `isPlain_escapeExpressionText`: nothing in it opens anything;
* `flowText?_newline`: a line break with indentation behind it is no text;
* `letters`: the characters of a text that are no white space;
* `letters_decodeEntities_lines`: the letters of a text are those of its lines;
* **`letters_flowText?`**: how white space is read does not change the letters of running text;
* `IsReadApart`: texts behind which references are read by themselves: blanks, and what is written
  between tags where braces open expressions.
-/

namespace MarkupSync

open Text

/-! ## Lines -/

theorem lines_of_not_mem {s : Text} (h : '\n' ∉ s) : lines s = [s] := by
  have hfields : fields (· == '\n') [] = [[]] := rfl
  have hline : ∀ c ∈ s, (c == '\n') = false := by
    rintro c hc
    rw [beq_eq_false_iff_ne]
    rintro rfl
    exact h hc
  have := fields_append hline hfields
  rwa [List.append_nil] at this

theorem mem_of_mem_trimEnd {p : Char → Bool} {s : Text} {c : Char} (h : c ∈ trimEnd p s) : c ∈ s :=
  List.mem_reverse.1 ((List.dropWhile_sublist p).subset (List.mem_reverse.1 h))

theorem mem_of_mem_trimLine {isFirst isLast : Bool} {l : Text} {c : Char}
    (h : c ∈ trimLine isFirst isLast l) : c ∈ l := by
  simp only [trimLine] at h
  have start {s : Text} (h : c ∈ if isFirst then s else trimStart isIndent s) : c ∈ s := by
    split at h
    · exact h
    · exact (List.dropWhile_sublist _).subset h
  split at h
  · exact mem_of_mem_trimEnd (start h)
  · exact mem_of_mem_trimEnd (start (mem_of_mem_trimEnd h))

theorem exists_of_mem_trimLines {isFirst : Bool} {ls : List Text} {w : Text}
    (hw : w ∈ trimLines isFirst ls) {c : Char} (hc : c ∈ w) : ∃ l ∈ ls, c ∈ l := by
  fun_induction trimLines isFirst ls with
  | case1 => cases hw
  | case2 isFirst l =>
    rw [List.mem_singleton] at hw
    subst hw
    exact ⟨l, List.mem_singleton_self l, mem_of_mem_trimLine hc⟩
  | case3 isFirst l ls _ ih =>
    rcases List.mem_cons.1 hw with rfl | hw
    · exact ⟨l, List.mem_cons_self, mem_of_mem_trimLine hc⟩
    · obtain ⟨k, hk, hc⟩ := ih hw
      exact ⟨k, List.mem_cons_of_mem l hk, hc⟩

/-- No line breaks are left when lines are joined. -/
theorem not_mem_of_joinedLines? {s t : Text} (h : joinedLines? s = some t) : '\n' ∉ t := by
  rw [joinedLines?] at h
  split at h
  · cases h
  · cases h
    intro hmem
    obtain hspace | ⟨w, hw, hc⟩ := of_mem_intercalate hmem
    · exact absurd hspace (by decide)
    · obtain ⟨l, hl, hc⟩ := exists_of_mem_trimLines (List.mem_filter.1 hw).1 hc
      exact absurd (of_mem_fields hl hc).1 (by decide)

theorem trimEnd_eq_self_iff {p : Char → Bool} {s : Text} :
    trimEnd p s = s ↔ ∀ c ∈ s.getLast?, p c = false := by
  rw [trimEnd, List.reverse_eq_iff, ← List.head?_reverse]
  constructor
  · intro h c hc
    rw [← h] at hc
    exact head?_dropWhile p _ c hc
  · intro h
    cases hs : s.reverse with
    | nil => rfl
    | cons c u =>
      have hc := h c (by rw [hs]; rfl)
      rw [List.dropWhile_cons_of_neg (by simp [hc])]

theorem joinedLines?_of_not_mem {s : Text} (h : '\n' ∉ s) :
    joinedLines? s =
      if (trimEnd (· == '\r') s).all isSpace then none else some (trimEnd (· == '\r') s) := by
  have hjoin (t : Text) : [' '].intercalate ([t].filter (!·.isEmpty)) = t := by
    cases t <;> simp
  rw [joinedLines?, lines_of_not_mem h]
  exact congrArg (fun t => if t.all isSpace then none else some t) (hjoin _)

/-- The running text that reads as it is written: it stands on one line, has no carriage return at
the end and is not all white space. -/
theorem joinedLines?_eq_self_iff {s : Text} : joinedLines? s = some s ↔
    '\n' ∉ s ∧ (∀ c ∈ s.getLast?, (c == '\r') = false) ∧ ∃ c ∈ s, isSpace c = false := by
  constructor
  · intro h
    have hline := not_mem_of_joinedLines? h
    rw [joinedLines?_of_not_mem hline] at h
    split at h
    · cases h
    next hspace =>
      have htrim := Option.some.inj h
      rw [htrim] at hspace
      exact ⟨hline, trimEnd_eq_self_iff.1 htrim, by simpa using hspace⟩
  · rintro ⟨hline, hend, hspace⟩
    rw [joinedLines?_of_not_mem hline, trimEnd_eq_self_iff.2 hend, if_neg (by simpa using hspace)]

/-! ## Text where braces open expressions -/

/-- A character is written as itself or as a reference. -/
theorem escapedExpressionChar_cases (c : Char) :
    escapedExpressionChar c = [c] ∧ isPlain c = true ∨
      ∃ s, escapedExpressionChar c = '&' :: (s ++ [';']) ∧
        s.all (fun d => isPlain d && d != '\n') = true := by
  rw [escapedExpressionChar, escapedChar]
  split_ifs with h1 h2 h3 h4 h5
  · exact .inr ⟨['#', '1', '2', '3'], rfl, rfl⟩
  · exact .inr ⟨['#', '1', '2', '5'], rfl, rfl⟩
  · exact .inr ⟨['a', 'm', 'p'], rfl, rfl⟩
  · exact .inr ⟨['l', 't'], rfl, rfl⟩
  · exact .inr ⟨['g', 't'], rfl, rfl⟩
  · exact .inl ⟨rfl, by simp [isPlain, h1, h4]⟩

/-- What a character is written as opens nothing, and breaks the line only if the character does. -/
theorem of_mem_escapedExpressionChar {c d : Char} (h : d ∈ escapedExpressionChar c) :
    isPlain d = true ∧ (d = '\n' → c = '\n') := by
  obtain ⟨hself, hplain⟩ | ⟨s, href, hs⟩ := escapedExpressionChar_cases c
  · rw [hself, List.mem_singleton] at h
    subst h
    exact ⟨hplain, id⟩
  · rw [href, List.mem_cons, List.mem_append, List.mem_singleton] at h
    rcases h with rfl | h | rfl
    · exact ⟨rfl, by rintro ⟨⟩⟩
    · have := List.all_eq_true.1 hs d h
      simp only [Bool.and_eq_true, bne_iff_ne] at this
      exact ⟨this.1, fun hd => absurd hd this.2⟩
    · exact ⟨rfl, by rintro ⟨⟩⟩

/-- Nothing in a written text opens anything. -/
theorem isPlain_escapeExpressionText (s : Text) : (escapeExpressionText s).all isPlain = true := by
  refine List.all_eq_true.2 fun c hc => ?_
  obtain ⟨d, -, hc⟩ := List.mem_flatMap.1 hc
  exact (of_mem_escapedExpressionChar hc).1

/-- **A text that reads as it is written is read again** where braces open expressions. -/
theorem flowText?_escapeExpressionText {s : Text} (h : joinedLines? s = some s) :
    flowText? .jsx (escapeExpressionText s) = some s := by
  obtain ⟨hline, hend, c, hc, hspace⟩ := joinedLines?_eq_self_iff.1 h
  have hwritten : joinedLines? (escapeExpressionText s) = some (escapeExpressionText s) := by
    refine joinedLines?_eq_self_iff.2 ⟨fun hmem => ?_, fun d hd => ?_, ?_⟩
    · obtain ⟨d, hd, hmem⟩ := List.mem_flatMap.1 hmem
      exact hline ((of_mem_escapedExpressionChar hmem).2 rfl ▸ hd)
    · -- the last character is that of the text or a semicolon
      obtain ⟨t, e, rfl⟩ : ∃ t e, s = t ++ [e] := by
        rcases List.eq_nil_or_concat s with rfl | ⟨t, e, rfl⟩
        · cases hc
        · exact ⟨t, e, by simp⟩
      rw [escapeExpressionText, List.flatMap_append, List.flatMap_singleton] at hd
      obtain ⟨hself, -⟩ | ⟨u, href, -⟩ := escapedExpressionChar_cases e
      · rw [hself, List.getLast?_concat] at hd
        exact hend d (by rwa [List.getLast?_concat])
      · rw [href, ← List.cons_append, ← List.append_assoc, List.getLast?_concat] at hd
        cases hd
        rfl
    · obtain ⟨hself, -⟩ | ⟨u, href, -⟩ := escapedExpressionChar_cases c
      · exact ⟨c, List.mem_flatMap.2 ⟨c, hc, by simp [hself]⟩, hspace⟩
      · exact ⟨'&', List.mem_flatMap.2 ⟨c, hc, by simp [href]⟩, by decide⟩
  rw [flowText?, hwritten, Option.map_some, decodeEntities_escapeExpressionText]

/-- A line break with indentation behind it is no text. -/
theorem flowText?_newline {indent : Text} (h : ∀ c ∈ indent, isIndent c = true) :
    flowText? .jsx ('\n' :: indent) = none := by
  have hread := joinedLines?_indented h ['\n']
  rw [indented_newline, indented_nil, List.append_nil] at hread
  rw [flowText?, hread]
  rfl

/-! ## Letters -/

namespace Text

/-- The characters that are no white space. -/
def letters (s : Text) : Text := s.filter (!isSpace ·)

@[simp] theorem letters_nil : letters [] = [] := rfl

@[simp] theorem letters_append (s t : Text) : letters (s ++ t) = letters s ++ letters t :=
  List.filter_append ..

theorem letters_eq_nil_iff {s : Text} : letters s = [] ↔ s.all isSpace = true := by
  simp [letters]

theorem letters_of_blank {s : Text} (hs : IsBlankText s) : letters s = [] :=
  letters_eq_nil_iff.2 (List.all_eq_true.2 fun c hc => isSpace_of_isBlank (hs c hc))

/-! ## Blanks -/

variable {s t b : Text}

theorem letters_decodeEntities_blank_append (hb : IsBlankText b) (s : Text) :
    letters (decodeEntities (b ++ s)) = letters (decodeEntities s) := by
  have hread := decodeEntities_of_blank hb
  rw [decodeEntities_append_of_blank (hread.symm ▸ hb), hread, letters_append, letters_of_blank hb,
    List.nil_append]

theorem letters_decodeEntities_append_blank (hb : IsBlankText b) (s : Text) :
    letters (decodeEntities (s ++ b)) = letters (decodeEntities s) := by
  have hread := decodeEntities_of_blank hb
  rw [decodeEntities_append_blank s (hread.symm ▸ hb), hread, letters_append, letters_of_blank hb,
    List.append_nil]

/-- A blank parts the letters of a text. -/
theorem letters_decodeEntities_append_cons {c : Char} (hc : isBlank c = true) (s t : Text) :
    letters (decodeEntities (s ++ c :: t)) =
      letters (decodeEntities s) ++ letters (decodeEntities t) := by
  rw [decodeEntities_append_cons (.inr hc), letters_append, ← List.singleton_append, letters_append,
    letters_of_blank (List.forall_mem_singleton.2 hc), List.nil_append]

/-! ## Lines -/

/-- The letters of a text are those of its lines. -/
theorem letters_decodeEntities_lines (s : Text) :
    (lines s).flatMap (letters ∘ decodeEntities) = letters (decodeEntities s) := by
  induction h : s.length using Nat.strongRecOn generalizing s with
  | _ n ih =>
    subst h
    by_cases hs : '\n' ∈ s
    · obtain ⟨a, b, rfl⟩ := List.append_of_mem hs
      have hlines : lines (a ++ '\n' :: b) = lines a ++ lines b := fields_append_cons rfl a b
      rw [hlines, List.flatMap_append, ih _ (by simp) a rfl, ih _ (by simp; omega) b rfl,
        letters_decodeEntities_append_cons rfl]
    · rw [lines_of_not_mem hs, List.flatMap_singleton, Function.comp_apply]

theorem letters_decodeEntities_trimStart {p : Char → Bool} (hp : ∀ c, p c = true → isBlank c = true)
    (s : Text) : letters (decodeEntities (trimStart p s)) = letters (decodeEntities s) := by
  have hblank : IsBlankText (s.takeWhile p) := fun c hc =>
    hp c (List.all_eq_true.1 List.all_takeWhile c hc)
  have hs : s.takeWhile p ++ trimStart p s = s := List.takeWhile_append_dropWhile
  rw [← letters_decodeEntities_blank_append hblank, hs]

theorem letters_decodeEntities_trimEnd {p : Char → Bool} (hp : ∀ c, p c = true → isBlank c = true)
    (s : Text) : letters (decodeEntities (trimEnd p s)) = letters (decodeEntities s) := by
  have hblank : IsBlankText (s.reverse.takeWhile p).reverse := fun c hc =>
    hp c (List.all_eq_true.1 List.all_takeWhile c (List.mem_reverse.1 hc))
  have hs : trimEnd p s ++ (s.reverse.takeWhile p).reverse = s := by
    rw [trimEnd, ← List.reverse_append, List.takeWhile_append_dropWhile, List.reverse_reverse]
  rw [← letters_decodeEntities_append_blank hblank, hs]

/-- Only blanks are cut off a line. -/
theorem letters_decodeEntities_trimLine (isFirst isLast : Bool) (l : Text) :
    letters (decodeEntities (trimLine isFirst isLast l)) = letters (decodeEntities l) := by
  have hreturn : ∀ c, (c == '\r') = true → isBlank c = true := by
    intro c hc
    rw [beq_iff_eq.1 hc]
    rfl
  have hstart := letters_decodeEntities_trimStart (fun _ => isBlank_of_isIndent)
    (trimEnd (· == '\r') l)
  rw [← letters_decodeEntities_trimEnd hreturn l, trimLine]
  cases isFirst <;> cases isLast
  · exact (letters_decodeEntities_trimEnd (fun _ => isBlank_of_isIndent) _).trans hstart
  · exact hstart
  · exact letters_decodeEntities_trimEnd (fun _ => isBlank_of_isIndent) _
  · rfl

theorem letters_decodeEntities_trimLines (isFirst : Bool) (ls : List Text) :
    (trimLines isFirst ls).flatMap (letters ∘ decodeEntities) =
      ls.flatMap (letters ∘ decodeEntities) := by
  fun_induction trimLines isFirst ls with
  | case1 => rfl
  | case2 isFirst l => simp [letters_decodeEntities_trimLine]
  | case3 isFirst l ls _ ih => simp [letters_decodeEntities_trimLine, ih]

/-- Spaces between lines add no letters. -/
theorem letters_decodeEntities_intercalate (ls : List Text) :
    letters (decodeEntities ([' '].intercalate (ls.filter (!·.isEmpty)))) =
      ls.flatMap (letters ∘ decodeEntities) := by
  have hjoin (ls : List Text) : letters (decodeEntities ([' '].intercalate ls)) =
      ls.flatMap (letters ∘ decodeEntities) := by
    induction ls with
    | nil => rfl
    | cons l ls ih =>
      cases ls with
      | nil => simp
      | cons k ks =>
        rw [List.intercalate_cons_cons, List.append_assoc, List.singleton_append,
          letters_decodeEntities_append_cons rfl, ih]
        rfl
  rw [hjoin]
  induction ls with
  | nil => rfl
  | cons l ls ih =>
    cases l with
    | nil => simpa [decodeEntities, decodeFrom] using ih
    | cons => simp [ih]

end Text

/-- **How white space is read does not change the letters** of running text. -/
theorem letters_flowText? (s : Text) :
    letters ((flowText? .jsx s).getD []) = letters (decodeEntities s) := by
  have hjoined := letters_decodeEntities_intercalate (trimLines true (lines s))
  rw [letters_decodeEntities_trimLines, letters_decodeEntities_lines] at hjoined
  rw [← hjoined, flowText?, joinedLines?]
  split
  next hspace =>
    -- white space has no references
    have hamp {t : Text} (ht : t.all isSpace = true) : decodeEntities t = t := by
      induction t with
      | nil => rfl
      | cons c t ih =>
        rw [List.all_cons, Bool.and_eq_true] at ht
        have hc : c ≠ '&' := by
          rintro rfl
          exact absurd ht.1 (by decide)
        rw [decodeEntities_cons_of_ne hc, ih ht.2]
    rw [hamp hspace, letters_eq_nil_iff.2 hspace]
    rfl
  next => rfl

/-! ## Texts that are read apart -/

/-- References behind the text are read by themselves. -/
def Text.IsReadApart (x : Text) : Prop :=
  ∀ s, decodeEntities (x ++ s) = decodeEntities x ++ decodeEntities s

theorem isReadApart_of_blank {b : Text} (hb : IsBlankText b) : b.IsReadApart :=
  decodeEntities_append_of_blank ((decodeEntities_of_blank hb).symm ▸ hb)

theorem isReadApart_escapeExpressionText (t : Text) : (escapeExpressionText t).IsReadApart := by
  intro s
  rw [decodeEntities_escapeExpressionText]
  exact decodeEntities_flatMap_append decodeEntities_escapedExpressionChar t s

end MarkupSync
