import MarkupSync.Format.Lines
import MarkupSync.Proofs.Text.Lines
import MarkupSync.Proofs.Text.Trim

/-!
# Lines that are formatted

* `Text.lines_eq_splitOn`, `Text.dropReturns`, **`Text.lines_replaceAll`**: the lines of a text, and
  its lines without the carriage returns in front of line feeds;
* `indentColumns_indentOf`: an indentation takes the columns it is written for;
* `LineParts`, **`formatLine_formatLine`**: the parts of a line, and that a formatted line stays;
* `markedLines`, `formatLines_eq`: lines with what they start inside are formatted one by one;
* `exists_lines_formatLines`: the lines of a formatted text.
-/

namespace MarkupSync

namespace Text

/-! ## Lines of a text -/

theorem lines_eq_splitOn (s : Text) : lines s = s.splitOn '\n' := by
  induction s with
  | nil => rfl
  | cons c s ih =>
    rw [List.splitOn, List.splitOnP_cons_eq_if_modifyHead, ← List.splitOn, ← ih, lines, fields,
      ← lines]
    split
    · rfl
    · cases hs : lines s with
      | nil => exact absurd hs (fields_ne_nil _ s)
      | cons l ls => rfl

theorem lines_ne_nil (s : Text) : lines s ≠ [] := fields_ne_nil _ s

theorem intercalate_lines (s : Text) : ['\n'].intercalate (lines s) = s := by
  rw [lines_eq_splitOn, List.intercalate_splitOn]

theorem lines_intercalate {ls : List Text} (hls : ∀ l ∈ ls, '\n' ∉ l) (hne : ls ≠ []) :
    lines (['\n'].intercalate ls) = ls := by
  rw [lines_eq_splitOn, List.splitOn_intercalate _ hls hne]

theorem not_mem_of_mem_lines {s l : Text} (hl : l ∈ lines s) : '\n' ∉ l := fun h =>
  absurd (of_mem_fields hl h).1 (by decide)

/-! ## Carriage returns -/

/-- A line without a carriage return at its end. -/
def dropReturn (l : Text) : Text := if l.getLast? = some '\r' then l.dropLast else l

/-- Lines without the carriage returns in front of the line feeds between them. -/
def dropReturns : List Text → List Text
  | [] => []
  | [l] => [l]
  | l :: ls => dropReturn l :: dropReturns ls

theorem dropReturn_cases (l : Text) : dropReturn l = l ∨ dropReturn l ++ ['\r'] = l := by
  rw [dropReturn]
  split_ifs with h
  · exact .inr (List.dropLast_append_getLast? _ h)
  · exact .inl rfl

theorem dropReturn_cons {c : Char} {l : Text} (h : c = '\r' → l ≠ []) :
    dropReturn (c :: l) = c :: dropReturn l := by
  cases l with
  | nil =>
    have hc : c ≠ '\r' := fun hc => h hc rfl
    simp [dropReturn, hc]
  | cons d l =>
    simp only [dropReturn, List.getLast?_cons_cons]
    split_ifs <;> rfl

theorem dropReturns_cons {l : Text} {ls : List Text} (h : ls ≠ []) :
    dropReturns (l :: ls) = dropReturn l :: dropReturns ls := by
  cases ls with
  | nil => exact absurd rfl h
  | cons => rfl

theorem mem_of_mem_dropReturns {ls : List Text} {l : Text} (h : l ∈ dropReturns ls) :
    ∃ k ∈ ls, l = k ∨ l ++ ['\r'] = k := by
  induction ls with
  | nil => cases h
  | cons k ls ih =>
    cases ls with
    | nil => exact ⟨l, h, .inl rfl⟩
    | cons j ls =>
      rw [dropReturns_cons (List.cons_ne_nil _ _)] at h
      obtain rfl | h := List.mem_cons.1 h
      · exact ⟨k, List.mem_cons_self, dropReturn_cases k⟩
      · obtain ⟨i, hi, hl⟩ := ih h
        exact ⟨i, List.mem_cons_of_mem _ hi, hl⟩

theorem length_dropReturns (ls : List Text) : (dropReturns ls).length = ls.length := by
  induction ls with
  | nil => rfl
  | cons l ls ih =>
    cases ls with
    | nil => rfl
    | cons k ls =>
      rw [dropReturns_cons (List.cons_ne_nil _ _), List.length_cons, ih]
      rfl

theorem dropReturns_eq_self_iff {ls : List Text} :
    dropReturns ls = ls ↔ ∀ l ∈ ls.dropLast, l.getLast? ≠ some '\r' := by
  induction ls with
  | nil => simp [dropReturns]
  | cons l ls ih =>
    cases ls with
    | nil => simp [dropReturns]
    | cons k ls =>
      rw [dropReturns_cons (List.cons_ne_nil _ _), List.cons_eq_cons, ih, List.dropLast_cons_cons,
        List.forall_mem_cons]
      refine and_congr_left fun _ => ⟨fun h hlast => ?_, fun h => if_neg h⟩
      have hlength := congrArg List.length (List.dropLast_append_getLast? _ hlast)
      rw [dropReturn, if_pos hlast] at h
      simp [h] at hlength

theorem replaceAll_crlf (s : Text) : replaceAll ['\r', '\n'] ['\n'] ('\r' :: '\n' :: s) =
    '\n' :: replaceAll ['\r', '\n'] ['\n'] s := rfl

theorem replaceAll_cons {c : Char} {s : Text} (h : c = '\r' → s.head? ≠ some '\n') :
    replaceAll ['\r', '\n'] ['\n'] (c :: s) = c :: replaceAll ['\r', '\n'] ['\n'] s := by
  have hstarts : startsWith ['\r', '\n'] (c :: s) = false := by
    by_cases hc : c = '\r'
    · cases s with
      | nil => simp [startsWith, afterWord?, hc]
      | cons d s =>
        have hd : d ≠ '\n' := fun hd => h hc (by rw [hd]; rfl)
        simp [startsWith, afterWord?, hc, Ne.symm hd]
    · simp [startsWith, afterWord?, Ne.symm hc]
  simp [replaceAll, replaceFrom, hstarts]

theorem lines_cons_newline (s : Text) : lines ('\n' :: s) = [] :: lines s := rfl

theorem lines_cons {c : Char} (hc : c ≠ '\n') {s l : Text} {ls : List Text}
    (hs : lines s = l :: ls) : lines (c :: s) = (c :: l) :: ls := by
  rw [lines] at hs
  simp [lines, fields, hc, hs]

/-- **Line feeds alone end the lines of a text in place of carriage returns and line feeds.** -/
theorem lines_replaceAll (s : Text) :
    lines (replaceAll ['\r', '\n'] ['\n'] s) = dropReturns (lines s) := by
  induction hlen : s.length using Nat.strongRecOn generalizing s with
  | _ n ih =>
    subst hlen
    cases s with
    | nil => rfl
    | cons c s =>
      by_cases hcrlf : c = '\r' ∧ s.head? = some '\n'
      · obtain ⟨rfl, hhead⟩ := hcrlf
        obtain ⟨r, rfl⟩ := List.head?_eq_some_iff.1 hhead
        rw [replaceAll_crlf, lines_cons_newline, ih r.length (by simp +arith) r rfl,
          lines_cons (by decide) (lines_cons_newline r), dropReturns_cons (lines_ne_nil r)]
        rfl
      · rw [replaceAll_cons fun hc hhead => hcrlf ⟨hc, hhead⟩]
        have hrest := ih s.length (Nat.lt_succ_self _) s rfl
        by_cases hc : c = '\n'
        · rw [hc, lines_cons_newline, lines_cons_newline, hrest, dropReturns_cons (lines_ne_nil s)]
          rfl
        · obtain ⟨l, ls, hs⟩ := List.exists_cons_of_ne_nil (lines_ne_nil s)
          rw [lines_cons hc hs]
          cases ls with
          | nil =>
            rw [hs] at hrest
            exact lines_cons hc hrest
          | cons k ls =>
            rw [hs, dropReturns_cons (List.cons_ne_nil _ _)] at hrest
            rw [lines_cons hc hrest, dropReturns_cons (List.cons_ne_nil _ _), dropReturn_cons]
            rintro hreturn rfl
            refine hcrlf ⟨hreturn, ?_⟩
            rw [← intercalate_lines s, hs, List.intercalate_cons_cons]
            rfl

end Text

open Text

variable {o : FormatOptions} {hasScripts : Bool} {s t : Text}

/-! ## Indentation -/

theorem indentOf_isIndent (o : FormatOptions) (n : Nat) : (indentOf o n).all isIndent = true := by
  rw [indentOf]
  split_ifs <;> simp [isIndent]

theorem indentColumns_cons (o : FormatOptions) (c : Char) (x : Text) :
    indentColumns o (c :: x) = (if c = '\t' then o.columns else 1) + indentColumns o x := by
  rw [indentColumns, indentColumns, ← List.sum_eq_foldl, ← List.sum_eq_foldl, List.map_cons,
    List.sum_cons]

theorem indentColumns_append (o : FormatOptions) (x y : Text) :
    indentColumns o (x ++ y) = indentColumns o x + indentColumns o y := by
  induction x with
  | nil => simp [indentColumns]
  | cons c x ih => rw [List.cons_append, indentColumns_cons, indentColumns_cons, ih, Nat.add_assoc]

theorem indentColumns_replicate (o : FormatOptions) (n : Nat) (c : Char) :
    indentColumns o (List.replicate n c) = n * if c = '\t' then o.columns else 1 := by
  induction n with
  | zero => simp [indentColumns]
  | succ n ih => rw [List.replicate_succ, indentColumns_cons, ih, Nat.succ_mul, Nat.add_comm]

theorem FormatOptions.columns_pos (o : FormatOptions) : 0 < o.columns :=
  Nat.lt_of_lt_of_le Nat.one_pos (Nat.le_max_right ..)

/-- An indentation takes the columns it is written for. -/
theorem indentColumns_indentOf (o : FormatOptions) (n : Nat) :
    indentColumns o (indentOf o n) = n := by
  rw [indentOf]
  split_ifs
  · rw [indentColumns_append, indentColumns_replicate, indentColumns_replicate, if_pos rfl,
      if_neg (by decide), Nat.mul_one, Nat.mul_comm, Nat.div_add_mod]
  · rw [indentColumns_replicate, if_neg (by decide), Nat.mul_one]

theorem indentColumns_eq_zero_iff {x : Text} : indentColumns o x = 0 ↔ x = [] := by
  cases x with
  | nil => simp [indentColumns]
  | cons c x =>
    have := o.columns_pos
    rw [indentColumns_cons]
    simp only [List.cons_ne_nil, iff_false]
    split_ifs <;> omega

/-- Nothing is written for no indentation, and only for that. -/
theorem indentOf_indentColumns_eq_nil_iff {x : Text} :
    indentOf o (indentColumns o x) = [] ↔ x = [] := by
  rw [← indentColumns_eq_zero_iff (o := o), indentColumns_indentOf, indentColumns_eq_zero_iff]

/-! ## One line -/

/-- A line with words: its indentation, its words and the white space behind them. -/
structure LineParts (lead body rest line : Text) : Prop where
  eq : line = lead ++ (body ++ rest)
  lead : lead.all isIndent = true
  ne_nil : body ≠ []
  head : ∀ c ∈ body.head?, isIndent c = false
  last : ∀ c ∈ body.getLast?, isSpace c = false
  rest : rest.all isSpace = true

/-- A line is all white space or has words. -/
theorem exists_lineParts (line : Text) :
    line.all isSpace = true ∨ ∃ lead body rest, LineParts lead body rest line := by
  obtain ⟨rest, hline, hrest⟩ := exists_trimEnd_append isSpace line
  by_cases htrim : trimEnd isSpace line = []
  · rw [htrim, List.nil_append] at hline
    exact .inl (hline ▸ hrest)
  have hlast := trimEnd_getLast? isSpace line
  have hsplit := (List.takeWhile_append_dropWhile (p := isIndent) (l := trimEnd isSpace line)).symm
  have hbody : (trimEnd isSpace line).dropWhile isIndent ≠ [] := by
    intro hnil
    have hindent : ∀ c ∈ trimEnd isSpace line, isIndent c = true := by
      simpa [List.dropWhile_eq_nil_iff] using hnil
    have hend := hlast _ (List.getLast?_eq_some_getLast htrim)
    rw [isSpace_of_isBlank (isBlank_of_isIndent (hindent _ (List.getLast_mem htrim)))] at hend
    cases hend
  have heq : line = (trimEnd isSpace line).takeWhile isIndent ++
      ((trimEnd isSpace line).dropWhile isIndent ++ rest) := by
    rwa [← List.append_assoc, ← hsplit]
  refine .inr ⟨_, _, rest, heq, List.all_takeWhile, hbody, head?_dropWhile _ _, ?_, hrest⟩
  intro c hc
  refine hlast c ?_
  rw [hsplit, List.getLast?_append_of_ne_nil _ hbody]
  exact hc

theorem formatLine_of_all {line : Text} (h : line.all isSpace = true) :
    formatLine o line = [] := by
  have htrim : trimEnd isSpace line = [] := trimEnd_append_of_all (s := []) nofun h
  rw [formatLine, htrim]
  rfl

namespace LineParts

variable {lead body rest line : Text}

theorem trimEnd (h : LineParts lead body rest line) :
    Text.trimEnd isSpace line = lead ++ body := by
  rw [h.eq, ← List.append_assoc]
  refine trimEnd_append_of_all (fun c hc => h.last c ?_) h.rest
  rwa [List.getLast?_append_of_ne_nil _ h.ne_nil] at hc

/-- The columns of the indentation are kept, and the words. -/
theorem formatLine (h : LineParts lead body rest line) :
    formatLine o line = indentOf o (indentColumns o lead) ++ body := by
  have htake : (lead ++ body).takeWhile isIndent = lead := takeWhile_append_of_stop h.lead h.head
  have hdrop : (lead ++ body).dropWhile isIndent = body := dropWhile_append_of_stop h.lead h.head
  simp only [MarkupSync.formatLine, h.trimEnd, htake, hdrop]
  split
  · exact absurd rfl h.ne_nil
  · rfl

/-- A formatted line has the same words. -/
theorem formatted (h : LineParts lead body rest line) :
    LineParts (indentOf o (indentColumns o lead)) body [] (MarkupSync.formatLine o line) :=
  ⟨by rw [h.formatLine, List.append_nil], indentOf_isIndent .., h.ne_nil, h.head, h.last, rfl⟩

end LineParts

/-- **A formatted line stays as it is.** -/
theorem formatLine_formatLine (o : FormatOptions) (line : Text) :
    formatLine o (formatLine o line) = formatLine o line := by
  obtain h | ⟨lead, body, rest, h⟩ := exists_lineParts line
  · rw [formatLine_of_all h]
    rfl
  · rw [h.formatted.formatLine, indentColumns_indentOf, h.formatLine]

theorem getLast?_formatLine (line : Text) :
    ∀ c ∈ (formatLine o line).getLast?, isSpace c = false := by
  obtain hall | ⟨lead, body, rest, h⟩ := exists_lineParts line
  · rw [formatLine_of_all hall]
    exact nofun
  · rw [h.formatLine, List.getLast?_append_of_ne_nil _ h.ne_nil]
    exact h.last

/-! ## All lines -/

namespace Verbatim

/-- Lines, each with what it starts inside; the first starts inside `v`. -/
def marked (hasScripts : Bool) (v : Verbatim) : List Text → List (Verbatim × Text)
  | [] => []
  | line :: rest => (v, line) :: marked hasScripts (v.next hasScripts line) rest

theorem map_snd_marked (hasScripts : Bool) (v : Verbatim) (lines : List Text) :
    (marked hasScripts v lines).map Prod.snd = lines := by
  induction lines generalizing v with
  | nil => rfl
  | cons line rest ih => rw [marked, List.map_cons, ih]

end Verbatim

/-- What is written for a line. -/
def formatMarked (o : FormatOptions) (m : Verbatim × Text) : Text :=
  if m.1.keepsLine then m.2 else formatLine o m.2

theorem formatMarked_formatMarked (m : Verbatim × Text) :
    formatMarked o (m.1, formatMarked o m) = formatMarked o m := by
  simp only [formatMarked]
  split_ifs
  · rfl
  · exact formatLine_formatLine o m.2

theorem newline_not_mem_formatMarked {m : Verbatim × Text} (hm : '\n' ∉ m.2) :
    '\n' ∉ formatMarked o m := by
  rw [formatMarked]
  split_ifs
  · exact hm
  · obtain hall | ⟨lead, body, rest, h⟩ := exists_lineParts m.2
    · rw [formatLine_of_all hall]
      exact List.not_mem_nil
    · rw [h.formatLine, List.mem_append, not_or]
      refine ⟨fun hmem => ?_, fun hmem => hm ?_⟩
      · exact absurd (List.all_eq_true.1 (indentOf_isIndent ..) _ hmem) (by decide)
      · rw [h.eq]
        simp [hmem]

/-- Lines are formatted one by one. -/
theorem formatAll_eq (o : FormatOptions) (v : Verbatim) (lines : List Text) :
    formatAll o hasScripts v lines = (v.marked hasScripts lines).map (formatMarked o) := by
  induction lines generalizing v with
  | nil => rfl
  | cons line rest ih =>
    rw [formatAll, Verbatim.marked, List.map_cons, ih]
    rfl

/-- The lines of a text that is formatted, each with what it starts inside. -/
def markedLines (hasScripts : Bool) (s : Text) : List (Verbatim × Text) :=
  Verbatim.outside.marked hasScripts (dropReturns (lines s))

/-- The text before its end is written. -/
def joinedLines (o : FormatOptions) (hasScripts : Bool) (s : Text) : Text :=
  ['\n'].intercalate ((markedLines hasScripts s).map (formatMarked o))

theorem formatLines_eq (o : FormatOptions) (s : Text) :
    formatLines o hasScripts s = if o.finalNewline then endWithNewline (joinedLines o hasScripts s)
      else joinedLines o hasScripts s := by
  rw [formatLines, lines_replaceAll, formatAll_eq]
  rfl

theorem length_markedLines (hasScripts : Bool) (s : Text) :
    (markedLines hasScripts s).length = (lines s).length := by
  have hsnd := congrArg List.length
    (Verbatim.map_snd_marked hasScripts .outside (dropReturns (lines s)))
  rwa [List.length_map, length_dropReturns] at hsnd

theorem newline_not_mem_markedLines {m : Verbatim × Text} (hm : m ∈ markedLines hasScripts s) :
    '\n' ∉ m.2 := by
  have hline := List.mem_map_of_mem (f := Prod.snd) hm
  rw [markedLines, Verbatim.map_snd_marked] at hline
  obtain ⟨k, hk, rfl | rfl⟩ := mem_of_mem_dropReturns hline
  · exact not_mem_of_mem_lines hk
  · exact fun h => not_mem_of_mem_lines hk (List.mem_append_left _ h)

theorem lines_joinedLines (o : FormatOptions) (hasScripts : Bool) (s : Text) :
    lines (joinedLines o hasScripts s) = (markedLines hasScripts s).map (formatMarked o) := by
  refine lines_intercalate (List.forall_mem_map.2 fun m hm => ?_) fun h => ?_
  · exact newline_not_mem_formatMarked (newline_not_mem_markedLines hm)
  · have hlength := length_markedLines hasScripts s
    rw [List.map_eq_nil_iff.1 h] at hlength
    exact lines_ne_nil s (List.length_eq_zero_iff.1 hlength.symm)

theorem joinedLines_eq_self (hreturns : dropReturns (lines t) = lines t)
    (hfixed : ∀ m ∈ markedLines hasScripts t, formatMarked o m = m.2) :
    joinedLines o hasScripts t = t := by
  rw [joinedLines, List.map_congr_left hfixed, markedLines, Verbatim.map_snd_marked, hreturns,
    intercalate_lines]

/-! ## The end of a text -/

/-- The lines of a text with one line break at its end are some first lines and an empty one. -/
theorem exists_lines_endWithNewline (t : Text) :
    ∃ p k, lines t = p ++ k ∧ lines (endWithNewline t) = p ++ [[]] ∧
      (k.length = 1 → endWithNewline t = t) := by
  obtain ⟨e, ht, he⟩ := exists_trimEnd_append (· == '\n') t
  have hend : lines (endWithNewline t) = lines (trimEnd (· == '\n') t) ++ [[]] :=
    fields_append_cons (c := '\n') rfl (trimEnd (· == '\n') t) []
  cases e with
  | nil =>
    rw [List.append_nil] at ht
    exact ⟨lines t, [], (List.append_nil _).symm, by rw [hend, ← ht], nofun⟩
  | cons c e =>
    rw [List.all_cons, Bool.and_eq_true, beq_iff_eq] at he
    obtain ⟨rfl, he⟩ := he
    have hlines : lines t = lines (trimEnd (· == '\n') t) ++ lines e := by
      conv_lhs => rw [ht]
      exact fields_append_cons rfl _ e
    refine ⟨_, _, hlines, hend, fun hone => ?_⟩
    cases e with
    | nil => exact ht.symm
    | cons d e =>
      rw [List.all_cons, Bool.and_eq_true, beq_iff_eq] at he
      rw [he.1, lines_cons_newline, List.length_cons, Nat.succ_inj] at hone
      exact absurd (List.length_eq_zero_iff.1 hone) (lines_ne_nil e)

theorem endWithNewline_endWithNewline (t : Text) :
    endWithNewline (endWithNewline t) = endWithNewline t := by
  rw [endWithNewline, endWithNewline, trimEnd_append_of_all (trimEnd_getLast? _ t) rfl]

/-- The lines of a formatted text are first lines of those that are written, and empty ones. -/
theorem exists_lines_formatLines (o : FormatOptions) (hasScripts : Bool) (s : Text) :
    ∃ p k r, (markedLines hasScripts s).map (formatMarked o) = p ++ k ∧
      lines (formatLines o hasScripts s) = p ++ r ∧ ∀ l ∈ r, l = [] := by
  rw [formatLines_eq, ← lines_joinedLines]
  split_ifs
  · obtain ⟨p, k, hp, hend, -⟩ := exists_lines_endWithNewline (joinedLines o hasScripts s)
    exact ⟨p, k, [[]], hp, hend, fun l hl => List.mem_singleton.1 hl⟩
  · exact ⟨_, [], [], (List.append_nil _).symm, (List.append_nil _).symm, nofun⟩

end MarkupSync
