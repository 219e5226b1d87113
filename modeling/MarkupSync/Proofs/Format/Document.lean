import MarkupSync.Format.Checked
import MarkupSync.Proofs.Document.Reflow
import MarkupSync.Proofs.Format.Lines

/-!
# Documents of formatted texts

* `EndsInBlanks`: a line with nothing but blanks among the white space at its end;
* `exists_line_reflow`, `exists_lines_reflow`: a line that is formatted, and all lines;
* **`exists_formatLines_reflow`**: a formatted text has other blanks at its line breaks only;
* **`Formatter.exists_read_standard`**: it can be read, and has the same document exactly if its
  open tags say the same.
-/

namespace MarkupSync

open Text

variable {o : FormatOptions} {hasScripts : Bool} {a b s t : Text}

/-! ## Blanks at line breaks -/

/-- The white space at the end of a line is blank. -/
def EndsInBlanks (line : Text) : Prop := trimEnd isSpace line = trimEnd isBlank line

instance : DecidablePred EndsInBlanks := fun line =>
  inferInstanceAs (Decidable (trimEnd isSpace line = trimEnd isBlank line))

theorem EndsInBlanks.of_all {line : Text} (h : EndsInBlanks line) (hall : line.all isSpace = true) :
    IsBlankText line := by
  have htrim : trimEnd isSpace line = [] := trimEnd_append_of_all (s := []) nofun hall
  rw [EndsInBlanks, htrim] at h
  exact trimEnd_eq_nil_iff.1 h.symm

theorem LineParts.isBlankText_rest {lead body rest line : Text}
    (h : LineParts lead body rest line) (hend : EndsInBlanks line) : IsBlankText rest := by
  obtain ⟨e, hline, he⟩ := exists_trimEnd line
  rw [← hend, h.trimEnd, h.eq, ← List.append_assoc] at hline
  rwa [List.append_cancel_left hline]

/-- What is written for a line, with the blanks around the words of the line named. -/
theorem exists_line_reflow {m : Verbatim × Text} {line : Text}
    (hline : m.2 = line ∨ m.2 ++ ['\r'] = line) (hend : m.1.keepsLine = false → EndsInBlanks m.2) :
    ∃ x p y e, line = x ++ (p ++ e) ∧ formatMarked o m = y ++ p ∧ x.all isIndent = true ∧
      y.all isIndent = true ∧ (x = [] ↔ y = []) ∧ IsBlankText e := by
  obtain ⟨r, rfl, hr⟩ : ∃ r, line = m.2 ++ r ∧ IsBlankText r := by
    obtain rfl | rfl := hline
    · exact ⟨[], (List.append_nil _).symm, isBlankText_nil⟩
    · exact ⟨['\r'], rfl, List.forall_mem_singleton.2 rfl⟩
  rw [formatMarked]
  split_ifs with hkeeps
  · exact ⟨[], m.2, [], r, rfl, rfl, rfl, rfl, Iff.rfl, hr⟩
  replace hend := hend (by simpa using hkeeps)
  obtain hall | ⟨lead, body, rest, h⟩ := exists_lineParts m.2
  · rw [formatLine_of_all hall]
    exact ⟨[], [], [], m.2 ++ r, rfl, rfl, rfl, rfl, Iff.rfl,
      isBlankText_append.2 ⟨hend.of_all hall, hr⟩⟩
  · refine ⟨lead, body, _, rest ++ r, ?_, h.formatLine, h.lead, indentOf_isIndent .., ?_,
      isBlankText_append.2 ⟨h.isBlankText_rest hend, hr⟩⟩
    · rw [h.eq, List.append_assoc, List.append_assoc]
    · exact indentOf_indentColumns_eq_nil_iff.symm

theorem all_isCloseBlank {y : Text} (hy : y.all isIndent = true) :
    ('\n' :: y).all isCloseBlank = true := by
  rw [List.all_cons, Bool.and_eq_true]
  refine ⟨rfl, List.all_eq_true.2 fun c hc => ?_⟩
  obtain rfl | rfl := isIndent_iff.1 (List.all_eq_true.1 hy c hc) <;> rfl

/-- **Formatted lines have other blanks at line breaks**, and none at their end. -/
theorem exists_lines_reflow (v : Verbatim) {ls : List Text} (hne : ls ≠ [])
    (hends : ∀ m ∈ v.marked hasScripts (dropReturns ls), m.1.keepsLine = false →
      EndsInBlanks m.2) :
    ∃ x s y t a, ['\n'].intercalate ls = x ++ s ∧
      ['\n'].intercalate ((v.marked hasScripts (dropReturns ls)).map (formatMarked o)) = y ++ t ∧
      x.all isIndent = true ∧ y.all isIndent = true ∧ (x = [] ↔ y = []) ∧ IsBlankText a ∧
      Text.Reflow a [] s t := by
  induction ls generalizing v with
  | nil => exact absurd rfl hne
  | cons l ls ih =>
    cases ls with
    | nil =>
      obtain ⟨x, p, y, e, hline, hwritten, hx, hy, hxy, he⟩ :=
        exists_line_reflow (o := o) (m := (v, l)) (.inl rfl) (hends _ (List.mem_singleton_self _))
      refine ⟨x, p ++ e, y, p, e, ?_, ?_, hx, hy, hxy, he, ?_⟩
      · simpa [List.intercalate] using hline
      · simpa [List.intercalate, dropReturns, Verbatim.marked] using hwritten
      · simpa using Reflow.append_left p (.stop : Text.Reflow e [] e [])
    | cons k ls =>
      rw [dropReturns_cons (List.cons_ne_nil _ _), Verbatim.marked, List.forall_mem_cons] at hends
      obtain ⟨x, p, y, e, hline, hwritten, hx, hy, hxy, he⟩ :=
        exists_line_reflow (o := o) (dropReturn_cases l) hends.1
      obtain ⟨x', s, y', t, a, hlines, hwritten', hx', hy', -, ha, h⟩ :=
        ih (v.next hasScripts (dropReturn l)) (List.cons_ne_nil _ _) hends.2
      have hbreak : IsBreak (e ++ '\n' :: x') :=
        ⟨isBlankText_append.2 ⟨he, isBlankText_cons.2 ⟨rfl, isBlankText_of_isIndent hx'⟩⟩, by simp⟩
      have hbreak' : IsBreak ('\n' :: y') :=
        ⟨isBlankText_cons.2 ⟨rfl, isBlankText_of_isIndent hy'⟩, List.mem_cons_self⟩
      refine ⟨x, p ++ (e ++ '\n' :: x' ++ s), y, p ++ ('\n' :: y' ++ t), a, ?_, ?_, hx, hy, hxy, ha,
        .append_left p (.blanks hbreak hbreak' (all_isCloseBlank hy') h)⟩
      · rw [List.intercalate_cons_cons, hlines, hline]
        simp
      · obtain ⟨m, ms, hms⟩ : ∃ m ms, (v.next hasScripts (dropReturn l)).marked hasScripts
            (dropReturns (k :: ls)) = m :: ms := by
          cases ls <;> exact ⟨_, _, rfl⟩
        rw [dropReturns_cons (List.cons_ne_nil _ _), Verbatim.marked]
        rw [hms] at hwritten' ⊢
        rw [List.map_cons, List.map_cons, List.intercalate_cons_cons, ← List.map_cons, hwritten',
          hwritten]
        simp

/-! ## The end of a text -/

theorem endWithNewline_append {p : Text} (hp : ∀ c ∈ p, c ≠ '\n') (t : Text) :
    endWithNewline (p ++ t) = p ++ endWithNewline t := by
  rw [endWithNewline, trimEnd_append_of_not (fun c hc => beq_false_of_ne (hp c hc)),
    List.append_assoc]
  rfl

theorem endWithNewline_append_of_ne {t : Text} (ht : trimEnd (· == '\n') t ≠ []) (p : Text) :
    endWithNewline (p ++ t) = p ++ endWithNewline t := by
  rw [endWithNewline, trimEnd_append _ ht, List.append_assoc]
  rfl

theorem isBlankText_endWithNewline (ht : IsBlankText t) : IsBlankText (endWithNewline t) :=
  isBlankText_append.2 ⟨fun c hc => ht c (mem_of_mem_trimEnd hc), List.forall_mem_singleton.2 rfl⟩

/-- One line break at the end of a text with other blanks makes other blanks. -/
theorem Text.Reflow.endWithNewline (ha : IsBlankText a) (hb : IsBlankText b)
    (h : Text.Reflow a b s t) : ∃ a' b', IsBlankText a' ∧ IsBlankText b' ∧
      Text.Reflow a' b' s (endWithNewline t) := by
  have hblank {s t : Text} (h : Text.Reflow a b s t) (ht : IsBlankText t) :
      ∃ a' b', IsBlankText a' ∧ IsBlankText b' ∧
        Text.Reflow a' b' s (MarkupSync.endWithNewline t) :=
    ⟨s, _, (h.isBlankText_iff ha hb).1 ht, isBlankText_endWithNewline ht, .stop⟩
  have hink {t : Text} (ht : ¬ IsBlankText t) : trimEnd (· == '\n') t ≠ [] := by
    intro hnil
    obtain ⟨e, ht', he⟩ := exists_trimEnd_append (· == '\n') t
    refine ht fun c hc => ?_
    rw [ht', hnil, List.nil_append] at hc
    rw [beq_iff_eq.1 (List.all_eq_true.1 he c hc)]
    rfl
  induction h with
  | stop => exact hblank .stop hb
  | @char c s t h ih =>
    by_cases ht : IsBlankText t
    · by_cases hc : isBlank c = true
      · exact hblank (.char c h) (isBlankText_cons.2 ⟨hc, ht⟩)
      · have hne : ∀ d ∈ [c], d ≠ '\n' := by
          rintro d hd rfl
          rw [← List.mem_singleton.1 hd] at hc
          exact hc rfl
        obtain ⟨a', b', ha', hb', hend⟩ := ih
        exact ⟨a', b', ha', hb', (endWithNewline_append hne t).symm ▸ hend.char c⟩
    · obtain ⟨a', b', ha', hb', hend⟩ := ih
      exact ⟨a', b', ha', hb', (endWithNewline_append_of_ne (hink ht) [c]).symm ▸ hend.char c⟩
  | @blanks x y s t hx hy hclose h ih =>
    by_cases ht : IsBlankText t
    · exact hblank (.blanks hx hy hclose h) (isBlankText_append.2 ⟨hy.blank, ht⟩)
    · obtain ⟨a', b', ha', hb', hend⟩ := ih
      exact ⟨a', b', ha', hb', (endWithNewline_append_of_ne (hink ht) y).symm ▸
        hend.blanks hx hy hclose⟩

/-- **A formatted text has other blanks at its line breaks only.** -/
theorem exists_formatLines_reflow (o : FormatOptions)
    (hends : ∀ m ∈ markedLines hasScripts s, m.1.keepsLine = false → EndsInBlanks m.2) :
    ∃ x u y w a b, s = x ++ u ∧ formatLines o hasScripts s = y ++ w ∧ IsBlankText x ∧
      IsBlankText y ∧ (x = [] ↔ y = []) ∧ IsBlankText a ∧ IsBlankText b ∧ Text.Reflow a b u w := by
  obtain ⟨x, u, y, w, a, hs, hw, hx, hy, hxy, ha, h⟩ :=
    exists_lines_reflow (o := o) .outside (lines_ne_nil s) hends
  rw [intercalate_lines] at hs
  rw [formatLines_eq, joinedLines, markedLines, hw]
  split_ifs
  · have hne : ∀ c ∈ y, c ≠ '\n' := by
      rintro c hc rfl
      exact absurd (List.all_eq_true.1 hy _ hc) (by decide)
    obtain ⟨a', b', ha', hb', hend⟩ := h.endWithNewline ha isBlankText_nil
    exact ⟨x, u, y, _, a', b', hs, endWithNewline_append hne w, isBlankText_of_isIndent hx,
      isBlankText_of_isIndent hy, hxy, ha', hb', hend⟩
  · exact ⟨x, u, y, w, a, [], hs, rfl, isBlankText_of_isIndent hx, isBlankText_of_isIndent hy, hxy,
      ha, isBlankText_nil, h⟩

/-! ## Documents -/

namespace Formatter

/-- What is checked if both texts can be read. -/
theorem checked_of_ofSource {f : Formatter} {dialect : Dialect} {d d' : Document}
    (ht : f.unchecked dialect o s = .ok t) (hd : Document.ofSource dialect s = .ok d)
    (hd' : Document.ofSource dialect t = .ok d') :
    f.checked dialect o s =
      if d.root.same d'.root then .ok t else .error (.semanticsChanged dialect) := by
  rw [checked, ht]
  by_cases heq : t = s
  · subst heq
    cases hd.symm.trans hd'
    have hsame : d.root.same d.root = true := (Node.same_iff _ _).2 (.refl d.root)
    simp only [if_pos hsame, if_true]
  · simp only [if_neg heq, hd, hd']

/-- **Formatting keeps what can be read, and what it says if the open tags say the same.** -/
theorem exists_read_standard (o : FormatOptions) {d : Document}
    (hd : Document.ofSource .html s = .ok d)
    (hends : ∀ m ∈ markedLines false s, m.1.keepsLine = false → EndsInBlanks m.2) :
    ∃ t d', standard .html o s = .ok t ∧ Document.ofSource .html t = .ok d' ∧
      (d.root.Same d'.root ↔ List.Forall₂ OpenTag.SaysSame
        (openTags (scanAll .html s).lexemes) (openTags (scanAll .html t).lexemes)) ∧
      ((∀ tag ∈ openTags (scanAll .html s).lexemes, tag.IsOneLine) → d.root.Same d'.root) ∧
      standard.checked .html o s =
        if d.root.same d'.root then .ok t else .error (.semanticsChanged .html) := by
  obtain ⟨x, u, y, w, a, b, rfl, hformatted, hx, hy, hxy, ha, hb, h⟩ :=
    exists_formatLines_reflow o hends
  obtain ⟨d', hd', hlexemes, hsame⟩ := Document.exists_read_reflow ha hb hx hy hxy h hd
  rw [← hformatted] at hd' hlexemes hsame
  refine ⟨_, d', rfl, hd', hsame, fun hlines => hsame.2 (hlexemes.saysSame hlines), ?_⟩
  exact checked_of_ofSource rfl hd hd'

/-- A list with an item on two lines, with tabs and with carriage returns. -/
theorem exists_read_standard_list :
    let s := "<ul>  \r\n\t<li>a\r\n\tb</li>\n<PRE>  c </PRE></ul>\n\n".toList
    (∃ d, Document.ofSource .html s = .ok d) ∧
      (∀ m ∈ markedLines false s, m.1.keepsLine = false → EndsInBlanks m.2) ∧
      ∃ t, standard .html {} s = .ok t ∧ standard.checked .html {} s = .ok t := by
  intro s
  have hread : (Document.ofSource .html s).toOption.isSome = true := by decide +kernel
  have hends : ∀ m ∈ markedLines false s, m.1.keepsLine = false → EndsInBlanks m.2 := by
    decide +kernel
  have hlines : ∀ tag ∈ openTags (scanAll .html s).lexemes, tag.IsOneLine := by decide +kernel
  obtain ⟨d, hd⟩ := Option.isSome_iff_exists.1 hread
  have hd := eq_ok_of_toOption hd
  obtain ⟨t, d', ht, -, -, hsame, hchecked⟩ := exists_read_standard {} hd hends
  rw [if_pos ((Node.same_iff _ _).2 (hsame hlines))] at hchecked
  exact ⟨⟨d, hd⟩, hends, t, ht, hchecked⟩

/-- Lines in an element whose open tag stands on two lines are formatted. -/
theorem not_read_standard :
    (¬ ∀ (o : FormatOptions) (s : Text) (d : Document), Document.ofSource .html s = .ok d →
      ∃ t d', standard .html o s = .ok t ∧ Document.ofSource .html t = .ok d' ∧
        d.root.Same d'.root) ∧
      ¬ ∀ (o : FormatOptions) (s : Text) (d : Document), Document.ofSource .html s = .ok d →
        standard.checked .html o s ≠ .error (.semanticsChanged .html) := by
  have hread : (Document.ofSource .html "<pre\n>a\n\tx</pre>".toList).toOption.isSome = true := by
    decide +kernel
  have hchanged : standard.checked .html {} "<pre\n>a\n\tx</pre>".toList =
      .error (.semanticsChanged .html) := by decide +kernel
  obtain ⟨d, hd⟩ := Option.isSome_iff_exists.1 hread
  have hd := eq_ok_of_toOption hd
  refine ⟨fun h => ?_, fun h => h {} _ d hd hchanged⟩
  obtain ⟨t, d', ht, hd', hsame⟩ := h {} _ d hd
  have hunchecked : standard.unchecked .html {} _ = .ok t := ht
  rw [checked_of_ofSource hunchecked hd hd', if_pos ((Node.same_iff _ _).2 hsame)] at hchanged
  cases hchanged

end Formatter

end MarkupSync
