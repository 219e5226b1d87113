import MarkupSync.Lexeme.Tag
import MarkupSync.Proofs.Text.Search
import MarkupSync.Proofs.Text.Words
import MarkupSync.Text.Flow

/-!
# Texts put further in

What is found in a text is found in the same text with its lines put further in, and with more
text behind it.

* `Text.inset`: a text put further in, and what follows it;
* `Text.cut?_inset`, `Text.takeWhile_inset`: words and runs of characters;
* `closeBraces?_inset`: expressions in braces;
* **`joinedLines?_indented`**: running text of JSX reads the same further in.
-/

namespace MarkupSync

namespace Text

variable {indent rest : Text}

/-- A text put further in, with `rest` behind it. -/
def inset (indent rest s : Text) : Text := indented indent s ++ rest

theorem isIndent_iff {c : Char} : isIndent c = true ↔ c = ' ' ∨ c = '\t' := by
  simp [isIndent]

theorem isBlank_of_isIndent {c : Char} (h : isIndent c = true) : isBlank c = true := by
  rcases isIndent_iff.1 h with rfl | rfl <;> rfl

theorem isBlankText_of_isIndent {s : Text} (h : s.all isIndent = true) : IsBlankText s :=
  fun c hc => isBlank_of_isIndent (List.all_eq_true.1 h c hc)

theorem all_isIndent_lineIndent (n : Nat) (s : Text) : (lineIndent n s).all isIndent = true :=
  List.all_takeWhile

theorem not_mem_of_isIndent (hindent : ∀ c ∈ indent, isIndent c = true) {d : Char}
    (hd : isIndent d = false) : d ∉ indent := fun h => by
  rw [hindent d h] at hd
  cases hd

@[simp] theorem indented_nil : indented indent [] = [] := rfl

theorem indented_cons {c : Char} (h : c ≠ '\n') (s : Text) :
    indented indent (c :: s) = c :: indented indent s := by
  rw [indented, replaceChar, if_neg h, indented]

theorem indented_newline (s : Text) :
    indented indent ('\n' :: s) = '\n' :: (indent ++ indented indent s) := by
  rw [indented, replaceChar, if_pos rfl, indented, List.cons_append]

@[simp] theorem indented_append (s t : Text) :
    indented indent (s ++ t) = indented indent s ++ indented indent t := by
  induction s with
  | nil => rfl
  | cons c s ih =>
    by_cases hc : c = '\n'
    · subst hc
      rw [List.cons_append, indented_newline, indented_newline, ih]
      simp
    · rw [List.cons_append, indented_cons hc, indented_cons hc, ih, List.cons_append]

/-- A single line stays as it is. -/
theorem indented_of_not_mem {s : Text} (h : '\n' ∉ s) : indented indent s = s := by
  induction s with
  | nil => rfl
  | cons c s ih =>
    simp only [List.mem_cons, not_or] at h
    rw [indented_cons (Ne.symm h.1), ih h.2]

theorem indented_eq_nil_iff {s : Text} : indented indent s = [] ↔ s = [] := by
  cases s with
  | nil => simp
  | cons c s =>
    by_cases hc : c = '\n'
    · subst hc
      simp [indented_newline]
    · simp [indented_cons hc]

@[simp] theorem inset_nil : inset indent rest [] = rest := rfl

theorem inset_cons {c : Char} (h : c ≠ '\n') (s : Text) :
    inset indent rest (c :: s) = c :: inset indent rest s := by
  rw [inset, indented_cons h, inset, List.cons_append]

theorem inset_newline (s : Text) :
    inset indent rest ('\n' :: s) = '\n' :: (indent ++ inset indent rest s) := by
  rw [inset, indented_newline, inset, List.cons_append, List.append_assoc]

theorem inset_append (s t : Text) :
    inset indent rest (s ++ t) = indented indent s ++ inset indent rest t := by
  rw [inset, indented_append, inset, List.append_assoc]

theorem exists_inset_cons (c : Char) (s : Text) : ∃ u, inset indent rest (c :: s) = c :: u := by
  by_cases hc : c = '\n'
  · subst hc
    exact ⟨_, inset_newline s⟩
  · exact ⟨_, inset_cons hc s⟩

theorem head?_inset {s : Text} (h : s ≠ []) : (inset indent rest s).head? = s.head? := by
  obtain ⟨c, u, rfl⟩ := List.exists_cons_of_ne_nil h
  obtain ⟨v, hv⟩ := @exists_inset_cons indent rest c u
  rw [hv]
  rfl

theorem inset_ne_nil {s : Text} (h : s ≠ []) : inset indent rest s ≠ [] := fun h' =>
  h (indented_eq_nil_iff.1 (List.append_eq_nil_iff.1 h').1)

/-! ## Words -/

theorem afterWord?_inset {w s : Text} (hw : '\n' ∉ w) (hle : w.length ≤ s.length) :
    afterWord? w (inset indent rest s) = (afterWord? w s).map (inset indent rest) := by
  induction w generalizing s with
  | nil => rfl
  | cons d w ih =>
    simp only [List.mem_cons, not_or] at hw
    cases s with
    | nil => cases hle
    | cons c s =>
      by_cases hc : c = '\n'
      · subst hc
        rw [inset_newline, afterWord?, afterWord?, if_neg (Ne.symm hw.1), if_neg (Ne.symm hw.1)]
        rfl
      · rw [inset_cons hc, afterWord?, afterWord?]
        split
        · exact ih hw.2 (Nat.le_of_succ_le_succ hle)
        · rfl

/-- A word is not found in characters that it does not start with. -/
theorem cut?_append_of_not_mem {d : Char} {w p : Text} (h : d ∉ p) (s : Text) :
    cut? (d :: w) (p ++ s) = extend p (cut? (d :: w) s) := by
  induction p with
  | nil => cases h : cut? (d :: w) s <;> simp [extend, h]
  | cons c p ih =>
    simp only [List.mem_cons, not_or] at h
    rw [List.cons_append, cut?, afterWord?, if_neg h.1, ih h.2]
    cases cut? (d :: w) s <;> simp [extend]

variable (rest) in
/-- The first occurrence of a word stays the first one. -/
theorem cut?_inset {d : Char} {w s p r : Text} (hw : '\n' ∉ d :: w) (hd : d ∉ indent)
    (h : cut? (d :: w) s = some (p, r)) :
    cut? (d :: w) (inset indent rest s) = some (indented indent p, inset indent rest r) := by
  induction s generalizing p with
  | nil => simp [cut?] at h
  | cons c s ih =>
    have hlen := congrArg List.length (eq_of_cut?_eq_some h)
    rw [List.length_append, List.length_append] at hlen
    have hword := @afterWord?_inset indent rest (d :: w) (c :: s) hw (by omega)
    rw [cut?] at h
    split at h
    next t ht =>
      cases h
      rw [ht] at hword
      cases hs : inset indent rest (c :: s) with
      | nil => exact absurd hs (inset_ne_nil (List.cons_ne_nil c s))
      | cons e u =>
        rw [hs] at hword
        rw [cut?, hword]
        rfl
    next hnone =>
      obtain ⟨q, hq, rfl⟩ := extend_eq_some.1 h
      rw [hnone] at hword
      by_cases hc : c = '\n'
      · subst hc
        rw [inset_newline] at hword ⊢
        rw [cut?, hword, cut?_append_of_not_mem hd, ih hq]
        simp [extend, indented_newline]
      · rw [inset_cons hc] at hword ⊢
        rw [cut?, hword, ih hq, List.cons_append, List.nil_append, indented_cons hc]
        rfl

/-! ## Runs of characters -/

variable {p : Char → Bool}

variable (indent rest) in
/-- A run that ends within a text, of characters that indentation may stand among, is the same
run further in. -/
theorem takeWhile_inset (hp : p '\n' = true → ∀ c ∈ indent, p c = true) {s : Text}
    (h : s.dropWhile p ≠ []) :
    (inset indent rest s).takeWhile p = indented indent (s.takeWhile p) ∧
      (inset indent rest s).dropWhile p = inset indent rest (s.dropWhile p) := by
  induction s with
  | nil => exact absurd rfl h
  | cons c s ih =>
    by_cases hc : p c = true
    · rw [List.dropWhile_cons_of_pos hc] at h
      obtain ⟨htake, hdrop⟩ := ih h
      rw [List.takeWhile_cons_of_pos hc, List.dropWhile_cons_of_pos hc]
      by_cases hn : c = '\n'
      · subst hn
        rw [inset_newline, indented_newline, List.takeWhile_cons_of_pos hc,
          List.dropWhile_cons_of_pos hc, List.takeWhile_append_of_pos (hp hc),
          List.dropWhile_append_of_pos (hp hc), htake, hdrop]
        exact ⟨rfl, rfl⟩
      · rw [inset_cons hn, indented_cons hn, List.takeWhile_cons_of_pos hc,
          List.dropWhile_cons_of_pos hc, htake, hdrop]
        exact ⟨rfl, rfl⟩
    · rw [List.takeWhile_cons_of_neg hc, List.dropWhile_cons_of_neg hc]
      by_cases hn : c = '\n'
      · subst hn
        rw [inset_newline, List.takeWhile_cons_of_neg hc, List.dropWhile_cons_of_neg hc]
        exact ⟨rfl, rfl⟩
      · rw [inset_cons hn, List.takeWhile_cons_of_neg hc, List.dropWhile_cons_of_neg hc]
        exact ⟨rfl, rfl⟩

end Text

open Text

variable {indent rest : Text}

/-! ## Expressions -/

theorem isStringQuote_of_isIndent {c : Char} (h : isIndent c = true) :
    isStringQuote c = false ∧ c ≠ '\x7b' ∧ c ≠ '\x7d' ∧ c ≠ '\\' := by
  rcases isIndent_iff.1 h with rfl | rfl <;> decide

theorem closeFrom_quoted {q c : Char} (hc : c ≠ '\\') (depth : Nat) (s : Text) :
    closeFrom (some q) depth (c :: s) =
      extend [c] (closeFrom (if c = q then none else some q) depth s) := by
  rw [closeFrom.eq_def]
  split <;> simp_all

theorem closeFrom_code {c : Char} (hc : c ≠ '\x7d') (depth : Nat) (s : Text) :
    closeFrom none depth (c :: s) =
      extend [c] (closeFrom (if isStringQuote c then some c else none)
        (if c = '\x7b' then depth + 1 else depth) s) := by
  rw [closeFrom.eq_def]
  by_cases ho : c = '\x7b'
  · subst ho
    rfl
  · simp only [ho, hc, if_false]
    split <;> rfl

theorem closeFrom_close (depth : Nat) (s : Text) :
    closeFrom none (depth + 1) ('\x7d' :: s) = extend ['\x7d'] (closeFrom none depth s) := by
  rw [closeFrom.eq_def]
  rfl

/-- Indentation neither opens nor closes anything in an expression. -/
theorem closeFrom_append (hindent : ∀ c ∈ indent, isIndent c = true) {q : Option Char}
    (hq : ∀ c ∈ q, isStringQuote c = true) (depth : Nat) (s : Text) :
    closeFrom q depth (indent ++ s) = extend indent (closeFrom q depth s) := by
  induction indent with
  | nil => cases h : closeFrom q depth s <;> simp [extend, h]
  | cons c u ih =>
    obtain ⟨hstring, hopen, hclose, hescape⟩ :=
      isStringQuote_of_isIndent (hindent c List.mem_cons_self)
    have hstep : closeFrom q depth (c :: (u ++ s)) = extend [c] (closeFrom q depth (u ++ s)) := by
      cases q with
      | none =>
        rw [closeFrom_code hclose, hstring, if_neg hopen]
        rfl
      | some d =>
        have hd : c ≠ d := by
          rintro rfl
          rw [hq c rfl] at hstring
          cases hstring
        rw [closeFrom_quoted hescape, if_neg hd]
    rw [List.cons_append, hstep, ih fun d hd => hindent d (List.mem_cons_of_mem c hd)]
    cases closeFrom q depth s <;> simp [extend]

/-- The brace that closes an expression closes it further in as well. -/
theorem closeFrom_inset (hindent : ∀ c ∈ indent, isIndent c = true) {q : Option Char}
    (hq : ∀ c ∈ q, isStringQuote c = true) {depth : Nat} {s p r : Text}
    (h : closeFrom q depth s = some (p, r)) :
    closeFrom q depth (inset indent rest s) =
      some (indented indent p, inset indent rest r) := by
  -- a character that is read by itself
  have next {c : Char} {q q' : Option Char} {depth depth' : Nat} {s p : Text}
      (hstep : ∀ u, closeFrom q depth (c :: u) = extend [c] (closeFrom q' depth' u))
      (hq : ∀ c ∈ q', isStringQuote c = true)
      (ih : closeFrom q' depth' (inset indent rest s) =
        some (indented indent p, inset indent rest r)) :
      closeFrom q depth (inset indent rest (c :: s)) =
        some (indented indent ([c] ++ p), inset indent rest r) := by
    by_cases hc : c = '\n'
    · subst hc
      rw [inset_newline, hstep, closeFrom_append hindent hq, ih]
      simp [extend, indented_newline]
    · rw [inset_cons hc, hstep, ih, List.singleton_append, indented_cons hc]
      rfl
  fun_induction closeFrom q depth s generalizing p with
  | case1 | case2 => cases h
  | case3 q depth d s ih =>
    obtain ⟨p, h', rfl⟩ := extend_eq_some.1 h
    have := ih hq h'
    rw [inset_cons (by decide), List.cons_append, indented_cons (by decide)]
    by_cases hd : d = '\n'
    · subst hd
      rw [inset_newline, closeFrom, closeFrom_append hindent hq, this]
      simp [extend, indented_newline]
    · rw [inset_cons hd, closeFrom, this, List.singleton_append, indented_cons hd]
      rfl
  | case4 q depth c s hend hpair ih =>
    obtain ⟨p, h', rfl⟩ := extend_eq_some.1 h
    have hc : c ≠ '\\' := by
      cases s with
      | nil => exact fun h => hend h rfl
      | cons d s => exact fun h => hpair d s h rfl
    have hq' : ∀ d ∈ if c = q then none else some q, isStringQuote d = true := by
      split
      · rintro _ ⟨⟩
      · exact hq
    exact next (closeFrom_quoted hc depth) hq' (ih hq' h')
  | case5 depth s ih =>
    obtain ⟨p, h', rfl⟩ := extend_eq_some.1 h
    exact next (closeFrom_code (by decide) depth) hq (ih hq h')
  | case6 =>
    cases h
    rw [inset_cons (by decide), closeFrom.eq_def]
    rfl
  | case7 s depth hne ih =>
    obtain ⟨p, h', rfl⟩ := extend_eq_some.1 h
    exact next (closeFrom_close depth) hq (ih hq h')
  | case8 depth c s hopen hclose hquote ih =>
    obtain ⟨p, h', rfl⟩ := extend_eq_some.1 h
    have hq' : ∀ d ∈ some c, isStringQuote d = true := by
      rintro _ ⟨⟩
      exact hquote
    exact next (fun u => by rw [closeFrom_code hclose, if_pos hquote, if_neg hopen]) hq'
      (ih hq' h')
  | case9 depth c s hopen hclose hquote ih =>
    obtain ⟨p, h', rfl⟩ := extend_eq_some.1 h
    exact next (fun u => by rw [closeFrom_code hclose, if_neg hquote, if_neg hopen]) hq (ih hq h')

variable (rest) in
theorem closeBraces?_inset (hindent : ∀ c ∈ indent, isIndent c = true) {s p r : Text}
    (h : closeBraces? s = some (p, r)) :
    closeBraces? (inset indent rest s) = some (indented indent p, inset indent rest r) :=
  closeFrom_inset hindent (by rintro _ ⟨⟩) h

/-! ## Running text -/

theorem fields_append {p : Char → Bool} {a : Text} (ha : ∀ c ∈ a, p c = false) {s w : Text}
    {ws : List Text} (h : fields p s = w :: ws) : fields p (a ++ s) = (a ++ w) :: ws := by
  induction a with
  | nil => exact h
  | cons c a ih =>
    have hc : p c = false := ha c List.mem_cons_self
    rw [List.cons_append, fields, hc, ih fun d hd => ha d (List.mem_cons_of_mem c hd)]
    rfl

theorem not_newline_of_isIndent {c : Char} (h : isIndent c = true) : (c == '\n') = false := by
  rcases isIndent_iff.1 h with rfl | rfl <;> decide

/-- All lines but the first are put further in. -/
theorem exists_lines_indented (hindent : ∀ c ∈ indent, isIndent c = true) (s : Text) :
    ∃ l ls, lines s = l :: ls ∧ lines (indented indent s) = l :: ls.map (indent ++ ·) := by
  induction s with
  | nil => exact ⟨[], [], rfl, rfl⟩
  | cons c s ih =>
    obtain ⟨l, ls, hs, hi⟩ := ih
    rw [lines] at hs hi ⊢
    by_cases hc : c = '\n'
    · subst hc
      refine ⟨[], l :: ls, by simp [fields, hs], ?_⟩
      have := fields_append (fun d hd => not_newline_of_isIndent (hindent d hd)) hi
      rw [lines, indented_newline, fields, this]
      rfl
    · refine ⟨c :: l, ls, by simp [fields, hs, hc], ?_⟩
      rw [lines, indented_cons hc]
      simp [fields, hi, hc]

theorem trimEnd_append_of_not {p : Char → Bool} {a : Text} (ha : ∀ c ∈ a, p c = false) (s : Text) :
    trimEnd p (a ++ s) = a ++ trimEnd p s := by
  have hrev : a.reverse.dropWhile p = a.reverse := by
    cases hr : a.reverse with
    | nil => rfl
    | cons c u =>
      have hc : c ∈ a := by
        rw [← List.mem_reverse, hr]
        exact List.mem_cons_self
      exact List.dropWhile_cons_of_neg (by simp [ha c hc])
  rw [trimEnd, trimEnd, List.reverse_append, List.dropWhile_append]
  split
  next h => simp [hrev, List.isEmpty_iff.1 h]
  next => simp

theorem trimLine_append (hindent : ∀ c ∈ indent, isIndent c = true) (isLast : Bool) (l : Text) :
    trimLine false isLast (indent ++ l) = trimLine false isLast l := by
  have hcr : ∀ c ∈ indent, (c == '\r') = false := fun c hc => by
    rcases isIndent_iff.1 (hindent c hc) with rfl | rfl <;> decide
  simp only [trimLine, trimEnd_append_of_not hcr, trimStart, Bool.false_eq_true, if_false,
    List.dropWhile_append_of_pos hindent]

theorem trimLines_cons (isFirst : Bool) (l : Text) {ls : List Text} (h : ls ≠ []) :
    trimLines isFirst (l :: ls) = trimLine isFirst false l :: trimLines false ls := by
  cases ls with
  | nil => exact absurd rfl h
  | cons k ls => rfl

theorem trimLines_map (hindent : ∀ c ∈ indent, isIndent c = true) (ls : List Text) :
    trimLines false (ls.map (indent ++ ·)) = trimLines false ls := by
  induction ls with
  | nil => rfl
  | cons l ls ih =>
    by_cases hls : ls = []
    · subst hls
      exact congrArg (fun l => [l]) (trimLine_append hindent true l)
    · rw [List.map_cons, trimLines_cons _ _ hls, trimLines_cons _ _ (by simpa using hls), ih,
        trimLine_append hindent]

/-- **Running text of JSX reads the same further in.** -/
theorem joinedLines?_indented (hindent : ∀ c ∈ indent, isIndent c = true) (s : Text) :
    joinedLines? (indented indent s) = joinedLines? s := by
  obtain ⟨l, ls, hs, hi⟩ := exists_lines_indented hindent s
  have htrim : trimLines true (l :: ls.map (indent ++ ·)) = trimLines true (l :: ls) := by
    by_cases hls : ls = []
    · subst hls
      rfl
    · rw [trimLines_cons _ _ hls, trimLines_cons _ _ (by simpa using hls), trimLines_map hindent]
  rw [joinedLines?, joinedLines?, hs, hi, htrim]

end MarkupSync
