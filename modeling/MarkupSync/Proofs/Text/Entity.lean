import Mathlib.Data.List.Basic
import MarkupSync.Proofs.Text.Search
import MarkupSync.Proofs.Text.Words

/-!
# Character references are read as they were written

* `decodeEntities_escapeText`, `decodeEntities_escapeExpressionText`, `decodeEntities_escapeQuoted`:
  what is written as references is read again;
* `decodeEntities_append_of_blank`, `decodeEntities_append_blank`: a text that stands for blanks is
  read the same in front of other text and behind it;
* `decodeEntities_append_cons`: an open angle or a blank parts what is read;
* **`decodes_and_hides`**: what is written as references is read again, and none of the delimiters
  around it is left in it.
-/

namespace MarkupSync

open Text

/-! ## One reference -/

theorem decodeEntities_cons_of_ne {c : Char} (h : c ≠ '&') (s : Text) :
    decodeEntities (c :: s) = c :: decodeEntities s := by
  simp [decodeEntities, decodeFrom, h]

theorem decodeEntities_amp_of_some {s : Text} {d : Char} {n : Nat} (h : reference? s = some (d, n)) :
    decodeEntities ('&' :: s) = d :: decodeEntities (s.drop n) := by
  simp [decodeEntities, decodeFrom, h, decodeFrom_eq_drop n]

theorem decodeEntities_amp_of_none {s : Text} (h : reference? s = none) :
    decodeEntities ('&' :: s) = '&' :: decodeEntities s := by
  simp [decodeEntities, decodeFrom, h]

/-- A reference is as long as its name and the semicolon. -/
theorem length_of_reference? {s : Text} {d : Char} {n : Nat} (h : reference? s = some (d, n)) :
    0 < n ∧ n ≤ s.length := by
  simp only [reference?] at h
  split at h
  · cases h
  next name r hc =>
    split at h
    · obtain ⟨c, -, hcn⟩ := Option.map_eq_some_iff.1 h
      have := congrArg List.length (eq_of_cut?_eq_some hc)
      cases hcn
      simp only [List.length_append, List.length_singleton] at this
      omega
    · cases h

/-- A reference that is complete is read the same whatever follows. -/
theorem reference?_append {s : Text} (h : ';' ∈ s) (t : Text) :
    reference? (s ++ t) = reference? s := by
  cases hc : cut? [';'] s with
  | none => exact absurd h (cut?_singleton_eq_none.1 hc)
  | some pr => rw [reference?, reference?, hc, cut?_append hc]

theorem semicolon_of_reference? {s : Text} {d : Char} {n : Nat} (h : reference? s = some (d, n)) :
    ';' ∈ s := by
  simp only [reference?] at h
  split at h
  · cases h
  next hc => exact List.mem_iff_append.2 ⟨_, _, by simpa using eq_of_cut?_eq_some hc⟩

/-! ## Names of references -/

theorem readDigits_eq_none {b : Nat} {c : Char} (hc : digitValue b c = none) {s : Text} (h : c ∈ s)
    (n : Nat) : readDigits b n s = none := by
  induction s generalizing n with
  | nil => cases h
  | cons d s ih =>
    rw [readDigits]
    rcases List.mem_cons.1 h with rfl | h
    · rw [hc]
      rfl
    · cases digitValue b d with
      | none => rfl
      | some v => exact ih h _

theorem readNumber_eq_none {b : Nat} {c : Char} (hc : digitValue b c = none) (hp : c ≠ '+')
    {s : Text} (h : c ∈ s) : readNumber b s = none := by
  fun_cases readNumber b s with
  | case1 | case2 => rfl
  | case3 s => exact readDigits_eq_none hc ((List.mem_cons.1 h).resolve_left hp) 0
  | case4 => exact readDigits_eq_none hc h 0

/-- No reference has an ampersand, an angle or a blank in its name. -/
theorem referenced_eq_none {name : Text} {c : Char} (h : c ∈ name)
    (hc : c = '&' ∨ c = '<' ∨ isBlank c = true) : referenced name = none := by
  have hd : digitValue 16 c = none ∧ digitValue 10 c = none ∧ c ≠ '+' ∧ c ≠ '#' ∧ c ≠ 'x' ∧
      c ≠ 'X' := by
    simp only [isBlank, Bool.or_eq_true, beq_iff_eq] at hc
    rcases hc with rfl | rfl | (((rfl | rfl) | rfl) | rfl) | rfl <;> decide
  have hl : namedCharacters.lookup name = none := by
    rw [List.lookup_eq_none_iff]
    intro e he
    suffices name ≠ e.1 by simpa using this
    rintro rfl
    simp only [isBlank, Bool.or_eq_true, beq_iff_eq] at hc
    simp only [namedCharacters, List.mem_cons, List.not_mem_nil, or_false] at he
    rcases he with rfl | rfl | rfl | rfl | rfl | rfl <;> revert h <;>
      rcases hc with rfl | rfl | (((rfl | rfl) | rfl) | rfl) | rfl <;> decide
  obtain ⟨h16, h10, hplus, hsharp, hx, hX⟩ := hd
  fun_cases referenced name with
  | case1 _ v hv => cases hl.symm.trans hv
  | case2 digits =>
    have : c ∈ digits := by simpa [hsharp, hx] using h
    rw [readNumber_eq_none h16 hplus this]
    rfl
  | case3 digits =>
    have : c ∈ digits := by simpa [hsharp, hX] using h
    rw [readNumber_eq_none h16 hplus this]
    rfl
  | case4 digits =>
    have : c ∈ digits := by simpa [hsharp] using h
    rw [readNumber_eq_none h10 hplus this]
    rfl
  | case5 => simp only [hl]

theorem not_mem_of_reference? {s : Text} {d : Char} {n : Nat} (h : reference? s = some (d, n)) :
    '<' ∉ s.take n := by
  simp only [reference?] at h
  split at h
  · cases h
  next name r hc =>
    split at h
    · obtain ⟨c, hname, hcn⟩ := Option.map_eq_some_iff.1 h
      cases hcn
      rw [eq_of_cut?_eq_some hc]
      intro hm
      have hm : '<' ∈ name := by simpa [List.take_append, List.take_of_length_le] using hm
      rw [referenced_eq_none hm (.inr (.inl rfl))] at hname
      cases hname
    · cases h

/-! ## Texts put together -/

/-- No open angle is in a text that stands for blanks. -/
theorem not_mem_of_blank {g : Text} (hg : IsBlankText (decodeEntities g)) : '<' ∉ g := by
  induction h : g.length using Nat.strongRecOn generalizing g with
  | _ n ih =>
    subst h
    cases g with
    | nil => exact List.not_mem_nil
    | cons c g =>
      by_cases hc : c = '&'
      · subst hc
        cases hr : reference? g with
        | none =>
          rw [decodeEntities_amp_of_none hr] at hg
          exact absurd (isBlankText_cons.1 hg).1 (by decide)
        | some dn =>
          obtain ⟨d, n⟩ := dn
          have hn := (length_of_reference? hr).1
          rw [decodeEntities_amp_of_some hr] at hg
          rw [← List.take_append_drop n g, List.mem_cons, List.mem_append]
          simp only [not_or]
          refine ⟨by decide, not_mem_of_reference? hr, ih _ ?_ (isBlankText_cons.1 hg).2 rfl⟩
          simp only [List.length_cons, List.length_drop]
          omega
      · rw [decodeEntities_cons_of_ne hc] at hg
        simp only [List.mem_cons, not_or]
        refine ⟨?_, ih _ (by simp) (isBlankText_cons.1 hg).2 rfl⟩
        rintro rfl
        exact absurd (isBlankText_cons.1 hg).1 (by decide)

/-- A text that stands for blanks is read the same in front of other text. -/
theorem decodeEntities_append_of_blank {g : Text} (hg : IsBlankText (decodeEntities g)) (s : Text) :
    decodeEntities (g ++ s) = decodeEntities g ++ decodeEntities s := by
  induction h : g.length using Nat.strongRecOn generalizing g with
  | _ n ih =>
    subst h
    cases g with
    | nil => rfl
    | cons c g =>
      by_cases hc : c = '&'
      · subst hc
        cases hr : reference? g with
        | none =>
          rw [decodeEntities_amp_of_none hr] at hg
          exact absurd (isBlankText_cons.1 hg).1 (by decide)
        | some dn =>
          obtain ⟨d, n⟩ := dn
          have hlen := (length_of_reference? hr).2
          rw [decodeEntities_amp_of_some hr] at hg ⊢
          rw [List.cons_append, decodeEntities_amp_of_some
            ((reference?_append (semicolon_of_reference? hr) s).trans hr),
            List.drop_append_of_le_length hlen, ih _ _ (isBlankText_cons.1 hg).2 rfl,
            List.cons_append]
          simp only [List.length_cons, List.length_drop]
          omega
      · rw [decodeEntities_cons_of_ne hc] at hg ⊢
        rw [List.cons_append, decodeEntities_cons_of_ne hc, List.cons_append,
          ih _ (by simp) (isBlankText_cons.1 hg).2 rfl]

/-- Blanks are read as blanks. -/
theorem decodeEntities_of_blank {g : Text} (hg : IsBlankText g) : decodeEntities g = g := by
  induction g with
  | nil => rfl
  | cons c g ih =>
    obtain ⟨hc, hg⟩ := isBlankText_cons.1 hg
    have hc : c ≠ '&' := by
      rintro rfl
      exact absurd hc (by decide)
    rw [decodeEntities_cons_of_ne hc, ih hg]

/-- A reference cannot end in a text that stands for blanks. -/
theorem reference?_append_blank {s g : Text} (hg : IsBlankText (decodeEntities g)) :
    reference? (s ++ g) = reference? s := by
  by_cases hs : ';' ∈ s
  · exact reference?_append hs g
  have hnone : reference? s = none := by rw [reference?, cut?_singleton_eq_none.2 hs]
  rw [hnone]
  by_cases hgs : ';' ∈ g
  · obtain ⟨p, r, rfl, hp⟩ := List.eq_append_cons_of_mem hgs
    have hcut : cut? [';'] (s ++ (p ++ ';' :: r)) = some (s ++ p, r) := by
      rw [← List.append_assoc]
      exact cut?_singleton_append (by simp [hs, hp]) r
    -- the first character of `g` is an ampersand or a blank
    obtain ⟨c, hc, hcc⟩ : ∃ c ∈ p, c = '&' ∨ c = '<' ∨ isBlank c = true := by
      cases p with
      | nil =>
        rw [List.nil_append, decodeEntities_cons_of_ne (by decide)] at hg
        exact absurd (isBlankText_cons.1 hg).1 (by decide)
      | cons c p =>
        refine ⟨c, List.mem_cons_self, ?_⟩
        by_cases hc : c = '&'
        · exact .inl hc
        · rw [List.cons_append, decodeEntities_cons_of_ne hc] at hg
          exact .inr (.inr (isBlankText_cons.1 hg).1)
    rw [reference?, hcut]
    simp [referenced_eq_none (List.mem_append_right s hc) hcc]
  · rw [reference?, cut?_singleton_eq_none.2 (by simp [hs, hgs])]

/-- A text that stands for blanks is read the same behind other text. -/
theorem decodeEntities_append_blank (s : Text) {g : Text} (hg : IsBlankText (decodeEntities g)) :
    decodeEntities (s ++ g) = decodeEntities s ++ decodeEntities g := by
  induction h : s.length using Nat.strongRecOn generalizing s with
  | _ n ih =>
    subst h
    cases s with
    | nil => rfl
    | cons c s =>
      by_cases hc : c = '&'
      · subst hc
        rw [List.cons_append]
        cases hr : reference? s with
        | none =>
          rw [decodeEntities_amp_of_none hr,
            decodeEntities_amp_of_none ((reference?_append_blank hg).trans hr), List.cons_append,
            ih _ (by simp) _ rfl]
        | some dn =>
          obtain ⟨d, n⟩ := dn
          have hlen := (length_of_reference? hr).2
          rw [decodeEntities_amp_of_some hr,
            decodeEntities_amp_of_some ((reference?_append_blank hg).trans hr),
            List.drop_append_of_le_length hlen, List.cons_append, ih _ _ _ rfl]
          simp only [List.length_cons, List.length_drop]
          omega
      · rw [List.cons_append, decodeEntities_cons_of_ne hc, decodeEntities_cons_of_ne hc,
          List.cons_append, ih _ (by simp) _ rfl]

/-- No reference goes on behind an ampersand, an open angle or a blank. -/
theorem reference?_append_cons {c : Char} (hc : c = '&' ∨ c = '<' ∨ isBlank c = true) (s t : Text) :
    reference? (s ++ c :: t) = reference? s := by
  by_cases hs : ';' ∈ s
  · exact reference?_append hs _
  have hnone : reference? s = none := by rw [reference?, cut?_singleton_eq_none.2 hs]
  rw [hnone, reference?]
  split
  · rfl
  next name r hcut =>
    have heq := eq_of_cut?_eq_some hcut
    -- the semicolon comes behind the character, so that the character would be in the name
    have hm : c ∈ name := by
      rw [List.append_assoc, List.append_eq_append_iff] at heq
      obtain ⟨a, rfl, ha⟩ | ⟨a, rfl, ha⟩ := heq
      · cases a with
        | nil =>
          obtain ⟨rfl, -⟩ := List.cons.inj ha
          exact absurd hc (by decide)
        | cons d a =>
          cases ha
          simp
      · cases a with
        | nil =>
          obtain ⟨rfl, -⟩ := List.cons.inj ha
          exact absurd hc (by decide)
        | cons d a =>
          cases ha
          simp at hs
    simp [referenced_eq_none hm hc]

/-- An open angle or a blank parts what is read of references. -/
theorem decodeEntities_append_cons {c : Char} (hc : c = '<' ∨ isBlank c = true) (s t : Text) :
    decodeEntities (s ++ c :: t) = decodeEntities s ++ c :: decodeEntities t := by
  induction h : s.length using Nat.strongRecOn generalizing s with
  | _ n ih =>
    subst h
    cases s with
    | nil =>
      refine decodeEntities_cons_of_ne ?_ t
      rintro rfl
      exact absurd hc (by decide)
    | cons d s =>
      by_cases hd : d = '&'
      · subst hd
        have happend := reference?_append_cons (.inr hc) s t
        rw [List.cons_append]
        cases hr : reference? s with
        | none =>
          rw [decodeEntities_amp_of_none hr, decodeEntities_amp_of_none (happend.trans hr),
            List.cons_append, ih _ (by simp) _ rfl]
        | some dn =>
          obtain ⟨d, n⟩ := dn
          have hlen := (length_of_reference? hr).2
          rw [decodeEntities_amp_of_some hr, decodeEntities_amp_of_some (happend.trans hr),
            List.drop_append_of_le_length hlen, List.cons_append, ih _ _ _ rfl]
          simp only [List.length_cons, List.length_drop]
          omega
      · rw [List.cons_append, decodeEntities_cons_of_ne hd, decodeEntities_cons_of_ne hd,
          List.cons_append, ih _ (by simp) _ rfl]

/-- An open angle parts what is read of references. -/
theorem decodeEntities_append_angle (s t : Text) :
    decodeEntities (s ++ '<' :: t) = decodeEntities s ++ '<' :: decodeEntities t :=
  decodeEntities_append_cons (.inl rfl) s t

/-! ## What is written is read again -/

theorem decodeEntities_escapedChar (c : Char) (s : Text) :
    decodeEntities (escapedChar c ++ s) = c :: decodeEntities s := by
  rw [escapedChar]
  split_ifs with h1 h2 h3
  · subst h1; rfl
  · subst h2; rfl
  · subst h3; rfl
  · exact decodeEntities_cons_of_ne h1 s

theorem decodeEntities_escapedExpressionChar (c : Char) (s : Text) :
    decodeEntities (escapedExpressionChar c ++ s) = c :: decodeEntities s := by
  rw [escapedExpressionChar]
  split_ifs with h1 h2
  · subst h1; rfl
  · subst h2; rfl
  · exact decodeEntities_escapedChar c s

theorem decodeEntities_escapedQuotedChar (q c : Char) (s : Text) :
    decodeEntities (escapedQuotedChar q c ++ s) = c :: decodeEntities s := by
  rw [escapedQuotedChar]
  split_ifs with h1 h2 h3
  · subst h1; rfl
  · obtain ⟨rfl, rfl⟩ := h2; rfl
  · obtain ⟨rfl, rfl⟩ := h3; rfl
  · exact decodeEntities_cons_of_ne h1 s

/-- What is written one character after another is read one character after another, and what
follows it by itself. -/
theorem decodeEntities_flatMap_append {written : Char → Text}
    (hwritten : ∀ c s, decodeEntities (written c ++ s) = c :: decodeEntities s) (t s : Text) :
    decodeEntities (t.flatMap written ++ s) = t ++ decodeEntities s := by
  induction t with
  | nil => rfl
  | cons c t ih => rw [List.flatMap_cons, List.append_assoc, hwritten, ih, List.cons_append]

theorem decodeEntities_flatMap {written : Char → Text}
    (hwritten : ∀ c s, decodeEntities (written c ++ s) = c :: decodeEntities s) (t : Text) :
    decodeEntities (t.flatMap written) = t := by
  have h := decodeEntities_flatMap_append hwritten t []
  rwa [List.append_nil, show decodeEntities [] = [] from rfl, List.append_nil] at h

/-- A text written between tags is read again. -/
theorem decodeEntities_escapeText (s : Text) : decodeEntities (escapeText s) = s :=
  decodeEntities_flatMap decodeEntities_escapedChar s

/-- A text written between tags where braces open expressions is read again. -/
theorem decodeEntities_escapeExpressionText (s : Text) :
    decodeEntities (escapeExpressionText s) = s :=
  decodeEntities_flatMap decodeEntities_escapedExpressionChar s

/-- A value written in quotes is read again. -/
theorem decodeEntities_escapeQuoted (q : Char) (s : Text) :
    decodeEntities (escapeQuoted q s) = s :=
  decodeEntities_flatMap (decodeEntities_escapedQuotedChar q) s

/-! ## Delimiters are hidden -/

theorem angle_not_mem_escapedChar {d : Char} (hd : d = '<' ∨ d = '>') (c : Char) :
    d ∉ escapedChar c := by
  rw [escapedChar]
  split_ifs with h1 h2 h3
  · rcases hd with rfl | rfl <;> decide
  · rcases hd with rfl | rfl <;> decide
  · rcases hd with rfl | rfl <;> decide
  · rw [List.mem_singleton]
    rintro rfl
    exact hd.elim h2 h3

theorem not_mem_escapedExpressionChar {d : Char} (hd : d ∈ ['<', '>', '\x7b', '\x7d']) (c : Char) :
    d ∉ escapedExpressionChar c := by
  have hcases : (d = '<' ∨ d = '>') ∨ d = '\x7b' ∨ d = '\x7d' := by simpa [or_assoc] using hd
  rw [escapedExpressionChar]
  split_ifs with h1 h2
  · rcases hcases with (rfl | rfl) | rfl | rfl <;> decide
  · rcases hcases with (rfl | rfl) | rfl | rfl <;> decide
  · rcases hcases with hangle | hbrace
    · exact angle_not_mem_escapedChar hangle c
    · -- a brace that is written as itself would be the character that is written
      rw [escapedChar]
      split_ifs
      · rcases hbrace with rfl | rfl <;> decide
      · rcases hbrace with rfl | rfl <;> decide
      · rcases hbrace with rfl | rfl <;> decide
      · rw [List.mem_singleton]
        rintro rfl
        exact hbrace.elim h1 h2

/-- No angle is left in a text written between tags. -/
theorem angle_not_mem_escapeText {d : Char} (hd : d = '<' ∨ d = '>') (s : Text) :
    d ∉ escapeText s := fun h =>
  have ⟨c, _, hc⟩ := List.mem_flatMap.1 h
  angle_not_mem_escapedChar hd c hc

theorem not_mem_escapeText (s : Text) : '<' ∉ escapeText s := angle_not_mem_escapeText (.inl rfl) s

/-- No angle and no brace is left in a text written where braces open expressions. -/
theorem not_mem_escapeExpressionText {d : Char} (hd : d ∈ ['<', '>', '\x7b', '\x7d']) (s : Text) :
    d ∉ escapeExpressionText s := fun h =>
  have ⟨c, _, hc⟩ := List.mem_flatMap.1 h
  not_mem_escapedExpressionChar hd c hc

/-- The quote of a value is not left in it. -/
theorem not_mem_escapeQuoted {q : Char} (hq : q = '"' ∨ q = '\'') (s : Text) :
    q ∉ escapeQuoted q s := by
  simp only [escapeQuoted, List.mem_flatMap, not_exists, not_and, escapedQuotedChar]
  intro c _
  split_ifs with h1 h2 h3
  · rcases hq with rfl | rfl <;> decide
  · rcases hq with rfl | rfl <;> decide
  · rcases hq with rfl | rfl <;> decide
  · rintro hc
    obtain rfl : q = c := by simpa using hc
    rcases hq with rfl | rfl <;> simp_all

/-- **Escaping is undone by decoding and hides every delimiter**: between tags the angles, where
braces open expressions the braces too, and in quotes the quote. -/
theorem decodes_and_hides (t : Text) {q : Char} (hq : q = '"' ∨ q = '\'') :
    (decodeEntities (escapeText t) = t ∧ '<' ∉ escapeText t ∧ '>' ∉ escapeText t) ∧
      (decodeEntities (escapeExpressionText t) = t ∧
        ∀ d ∈ ['<', '>', '\x7b', '\x7d'], d ∉ escapeExpressionText t) ∧
      decodeEntities (escapeQuoted q t) = t ∧ q ∉ escapeQuoted q t := by
  refine ⟨⟨decodeEntities_escapeText t, ?_, ?_⟩, ⟨decodeEntities_escapeExpressionText t, ?_⟩,
    decodeEntities_escapeQuoted q t, not_mem_escapeQuoted hq t⟩
  · exact angle_not_mem_escapeText (.inl rfl) t
  · exact angle_not_mem_escapeText (.inr rfl) t
  · exact fun d hd => not_mem_escapeExpressionText hd t

/-- A text that holds references, part of one, and delimiters. -/
theorem decodes_and_hides_references :
    ('"' = '"' ∨ '"' = '\'') ∧
      escapeQuoted '"' "&lt;&am\"".toList = "&amp;lt;&amp;am&quot;".toList ∧
      decodeEntities "&amp;lt;&amp;am&quot;".toList = "&lt;&am\"".toList :=
  have hwritten : escapeQuoted '"' "&lt;&am\"".toList = "&amp;lt;&amp;am&quot;".toList := rfl
  ⟨.inl rfl, hwritten, hwritten ▸ (decodes_and_hides "&lt;&am\"".toList (.inl rfl)).2.2.1⟩

end MarkupSync
