import MarkupSync.Format.Checked
import MarkupSync.Proofs.Format.Lines
import MarkupSync.Proofs.Text.Search

/-!
# Texts that formatting leaves as they are

* `Verbatim.elementAfter_append`, `Verbatim.templateAfter_append`: white space at the end of a line
  opens and closes nothing, unless an open tag ends there;
* `KeepsEnd`, **`Verbatim.next_formatLine`**: a formatted line opens and closes what the line did;
* `IsFormatted`, **`formatLines_eq_self_iff`**: the texts that formatting leaves as they are;
* `StaysMarked`, **`isFormatted_formatLines`**: formatted texts are among them if no line of the text
  stands in the way;
* **`Formatter.standard_standard`**: a text that is formatted again.
-/

namespace MarkupSync

open Text

variable {o : FormatOptions} {hasScripts : Bool} {s t e : Text}

/-! ## White space -/

/-- Characters without white space are not found in white space. -/
theorem not_mem_of_space {w : Text} (hw : w.all (!isSpace ·) = true) (he : e.all isSpace = true) :
    ∀ c ∈ e, c ∉ w := by
  intro c hc hm
  have := List.all_eq_true.1 hw c hm
  rw [List.all_eq_true.1 he c hc] at this
  cases this

/-- A word without white space is found where it was found. -/
theorem cut?_append_space {c : Char} {w : Text} (hw : (c :: w).all (!isSpace ·) = true)
    (he : e.all isSpace = true) (s : Text) :
    cut? (c :: w) (s ++ e) = (cut? (c :: w) s).map fun q => (q.1, q.2 ++ e) := by
  have hnot := not_mem_of_space hw he
  cases hs : cut? (c :: w) s with
  | some q => exact cut?_append hs e
  | none =>
    induction s with
    | nil =>
      have hc : c ∉ e := fun hc => hnot c hc List.mem_cons_self
      have := cut?_append_of_not_mem (w := w) hc []
      simpa [cut?, extend] using this
    | cons d s ih =>
      rw [cut?] at hs
      have hword := afterWord?_append_of_head (fun d hd => hnot d (List.mem_of_mem_head? hd))
        (d :: s)
      rw [List.cons_append] at hword
      rw [List.cons_append, cut?, hword]
      cases hd : afterWord? (c :: w) (d :: s) with
      | some r =>
        rw [hd] at hs
        cases hs
      | none =>
        rw [hd] at hs
        have hs' : cut? (c :: w) s = none := by
          cases h : cut? (c :: w) s with
          | none => rfl
          | some q =>
            rw [h] at hs
            cases hs
        rw [Option.map_none]
        simp only [ih hs', extend, Option.map_none]

namespace Verbatim

theorem elementAfter_of_close {tag p r : Text} (h : cut? ('<' :: '/' :: tag) s = some (p, r)) :
    elementAfter (some tag) s = elementAfter none r := by
  rw [elementAfter]
  split <;> simp_all

theorem elementAfter_of_no_close {tag : Text} (h : cut? ('<' :: '/' :: tag) s = none) :
    elementAfter (some tag) s = some tag := by
  rw [elementAfter]
  split <;> simp_all

theorem elementAfter_of_open {tag r : Text} (h : opened? keptTags s = some (tag, r)) :
    elementAfter none s = elementAfter (some tag) r := by
  conv_lhs => rw [elementAfter]
  split <;> simp_all

theorem elementAfter_of_no_open (h : opened? keptTags s = none) : elementAfter none s = none := by
  rw [elementAfter]
  split <;> simp_all

/-! ## What is open at the end of a line -/

/-- A text ends with an open angle and the name of an element whose lines are kept. -/
def EndsOpen (s : Text) : Prop := ∃ tag ∈ keptTags, ('<' :: tag) <:+ s

instance : DecidablePred EndsOpen := fun s =>
  inferInstanceAs (Decidable (∃ tag ∈ keptTags, ('<' :: tag) <:+ s))

theorem EndsOpen.of_suffix {r : Text} (h : EndsOpen r) (hs : r <:+ s) : EndsOpen s :=
  let ⟨tag, htag, hr⟩ := h
  ⟨tag, htag, hr.trans hs⟩

theorem opened?_mem {tags : List Text} {tag r : Text} (h : opened? tags s = some (tag, r)) :
    tag ∈ tags ∧ r <:+ s := by
  induction tags with
  | nil => cases h
  | cons t ts ih =>
    rw [opened?] at h
    split at h
    next q hq =>
      cases h
      refine ⟨List.mem_cons_self, ?_⟩
      rw [afterOpen?] at hq
      split at hq
      next p c r hcut =>
        split_ifs at hq
        cases hq
        exact ⟨_, (eq_of_cut?_eq_some hcut).symm⟩
      next => cases hq
    next =>
      obtain ⟨hmem, hsuffix⟩ := ih h
      exact ⟨List.mem_cons_of_mem _ hmem, hsuffix⟩

/-- White space behind a line opens nothing if no open tag ends there. -/
theorem afterOpen?_append {tag : Text} (htag : ('<' :: tag).all (!isSpace ·) = true)
    (he : e.all isSpace = true) (hs : ¬ ('<' :: tag) <:+ s) :
    afterOpen? tag (s ++ e) = (afterOpen? tag s).map (· ++ e) := by
  rw [afterOpen?, afterOpen?, cut?_append_space htag he]
  cases hcut : cut? ('<' :: tag) s with
  | none => rfl
  | some q =>
    obtain ⟨p, r⟩ := q
    cases r with
    | nil =>
      have hends := eq_of_cut?_eq_some hcut
      rw [List.append_nil] at hends
      exact absurd ⟨p, hends.symm⟩ hs
    | cons c r =>
      simp only [Option.map_some, List.cons_append]
      split_ifs <;> rfl

theorem keptTags_space {tag : Text} (htag : tag ∈ keptTags) :
    ('<' :: tag).all (!isSpace ·) = true ∧ ('<' :: '/' :: tag).all (!isSpace ·) = true := by
  revert tag
  decide

theorem opened?_append {tags : List Text} (htags : ∀ tag ∈ tags, tag ∈ keptTags)
    (he : e.all isSpace = true) (hs : ¬ EndsOpen s) :
    opened? tags (s ++ e) = (opened? tags s).map fun q => (q.1, q.2 ++ e) := by
  induction tags with
  | nil => rfl
  | cons tag tags ih =>
    obtain ⟨htag, htags⟩ := List.forall_mem_cons.1 htags
    rw [opened?, opened?, afterOpen?_append (keptTags_space htag).1 he fun h => hs ⟨tag, htag, h⟩,
      ih htags]
    cases afterOpen? tag s <;> rfl

/-- **White space at the end of a line opens and closes nothing**, if no open tag ends there. -/
theorem elementAfter_append (he : e.all isSpace = true) {element : Option Text}
    (hs : ¬ EndsOpen s) (helement : ∀ tag ∈ element, tag ∈ keptTags) :
    elementAfter element (s ++ e) = elementAfter element s := by
  induction hlen : s.length using Nat.strongRecOn generalizing s element with
  | _ n ih =>
    subst hlen
    cases element with
    | some tag =>
      have hcut := cut?_append_space (keptTags_space (helement tag rfl)).2 he s
      cases hs' : cut? ('<' :: '/' :: tag) s with
      | none =>
        rw [hs'] at hcut
        rw [elementAfter_of_no_close hcut, elementAfter_of_no_close hs']
      | some q =>
        rw [hs'] at hcut
        rw [elementAfter_of_close hcut, elementAfter_of_close hs']
        have hsuffix : q.2 <:+ s := ⟨_, (eq_of_cut?_eq_some hs').symm⟩
        have hshorter : q.2.length < s.length := by
          have := congrArg List.length (eq_of_cut?_eq_some hs')
          simp only [List.length_append, List.length_cons] at this
          omega
        exact ih _ hshorter (fun h => hs (h.of_suffix hsuffix)) nofun rfl
    | none =>
      have hopen := opened?_append (fun _ => id) he hs
      cases hs' : opened? keptTags s with
      | none =>
        rw [hs'] at hopen
        rw [elementAfter_of_no_open hopen, elementAfter_of_no_open hs']
      | some q =>
        rw [hs'] at hopen
        rw [elementAfter_of_open hopen, elementAfter_of_open hs']
        obtain ⟨hmem, hsuffix⟩ := opened?_mem hs'
        exact ih _ (length_of_opened? hs') (fun h => hs (h.of_suffix hsuffix))
          (by simpa using hmem) rfl

theorem opened?_space_append {tags : List Text} {x : Text} (hx : x.all isSpace = true) (s : Text) :
    opened? tags (x ++ s) = opened? tags s := by
  have hnot : '<' ∉ x := fun h => absurd (List.all_eq_true.1 hx _ h) (by decide)
  induction tags with
  | nil => rfl
  | cons tag tags ih =>
    rw [opened?, opened?, afterOpen?, afterOpen?, cut?_append_of_not_mem hnot, ih]
    rcases cut? ('<' :: tag) s with _ | ⟨p, _ | ⟨c, r⟩⟩ <;> rfl

/-- White space in front of a line opens nothing. -/
theorem elementAfter_space_append {x : Text} (hx : x.all isSpace = true) (s : Text) :
    elementAfter none (x ++ s) = elementAfter none s := by
  have hopen : opened? keptTags (x ++ s) = opened? keptTags s := opened?_space_append hx s
  cases hs : opened? keptTags s with
  | none => rw [elementAfter_of_no_open (hopen.trans hs), elementAfter_of_no_open hs]
  | some q => rw [elementAfter_of_open (hopen.trans hs), elementAfter_of_open hs]

theorem templateAfter_space_append {x : Text} (hx : x.all isSpace = true) (isTemplate : Bool)
    (s : Text) : templateAfter isTemplate false (x ++ s) = templateAfter isTemplate false s := by
  induction x with
  | nil => rfl
  | cons c x ih =>
    rw [List.all_cons, Bool.and_eq_true] at hx
    have hback : c ≠ '\\' := by
      rintro rfl
      exact absurd hx.1 (by decide)
    have hquote : c ≠ '\x60' := by
      rintro rfl
      exact absurd hx.1 (by decide)
    rw [List.cons_append, templateAfter, if_neg nofun, if_neg hback, if_neg hquote, ih hx.2]

theorem templateAfter_append (he : e.all isSpace = true) (isTemplate escaped : Bool) (s : Text) :
    templateAfter isTemplate escaped (s ++ e) = templateAfter isTemplate escaped s := by
  induction s generalizing isTemplate escaped with
  | nil =>
    have hspace {e : Text} (he : e.all isSpace = true) :
        templateAfter isTemplate false e = isTemplate := by
      rw [← List.append_nil e, templateAfter_space_append he]
      rfl
    cases e with
    | nil => rfl
    | cons c e =>
      cases escaped with
      | false => exact hspace he
      | true =>
        rw [List.all_cons, Bool.and_eq_true] at he
        exact hspace he.2
  | cons c s ih =>
    simp only [List.cons_append, templateAfter]
    split_ifs <;> exact ih ..

end Verbatim

/-- No open tag ends where the white space at the end of a line starts. -/
def KeepsEnd (line : Text) : Prop :=
  trimEnd isSpace line = line ∨ ¬ Verbatim.EndsOpen (lower (trimEnd isSpace line))

instance : DecidablePred KeepsEnd := fun _ => inferInstanceAs (Decidable (_ ∨ ¬ _))

theorem all_isSpace_of_isIndent {x : Text} (hx : x.all isIndent = true) : x.all isSpace = true :=
  List.all_eq_true.2 fun c hc =>
    isSpace_of_isBlank (isBlank_of_isIndent (List.all_eq_true.1 hx c hc))

namespace Verbatim

/-- What a line opens and closes does not depend on the white space around its words. -/
theorem next_congr {v : Verbatim} (hv : v.keepsLine = false) {x y body rest : Text}
    (hx : x.all isSpace = true) (hy : y.all isSpace = true) (hrest : rest.all isSpace = true)
    (hbody : rest = [] ∨ ¬ EndsOpen (lower body)) :
    v.next hasScripts (x ++ (body ++ rest)) = v.next hasScripts (y ++ body) := by
  obtain ⟨element, isTemplate⟩ := v
  simp only [keepsLine, Bool.or_eq_false_iff, Option.isSome_eq_false_iff, Option.isNone_iff_eq_none]
    at hv
  obtain ⟨rfl, rfl⟩ := hv
  have helement : elementAfter none (lower (x ++ (body ++ rest))) =
      elementAfter none (lower (y ++ body)) := by
    rw [lower_append, lower_append, lower_append, lower_of_space hx, lower_of_space hy,
      lower_of_space hrest, elementAfter_space_append hx, elementAfter_space_append hy]
    obtain rfl | hends := hbody
    · rw [List.append_nil]
    · exact elementAfter_append hrest hends nofun
  have htemplate : templateAfter false false (x ++ (body ++ rest)) =
      templateAfter false false (y ++ body) := by
    rw [templateAfter_space_append hx, templateAfter_space_append hy, templateAfter_append hrest]
  rw [next, next, helement, htemplate]

/-- **A formatted line opens and closes what the line did.** -/
theorem next_formatLine {v : Verbatim} (hv : v.keepsLine = false) {line : Text}
    (hline : KeepsEnd line) : v.next hasScripts (formatLine o line) = v.next hasScripts line := by
  obtain hall | ⟨lead, body, rest, h⟩ := exists_lineParts line
  · rw [formatLine_of_all hall]
    have hempty : v.next hasScripts (line ++ ([] ++ [])) = v.next hasScripts ([] ++ []) :=
      next_congr hv hall rfl rfl (.inl rfl)
    rw [List.append_nil, List.append_nil] at hempty
    exact hempty.symm
  · have hrest : rest = [] ∨ ¬ EndsOpen (lower body) := by
      rw [KeepsEnd, h.trimEnd, lower_append] at hline
      refine hline.imp (fun heq => ?_) (mt fun hends => hends.of_suffix (List.suffix_append ..))
      rw [h.eq, ← List.append_assoc] at heq
      simpa using heq
    rw [h.formatLine, h.eq]
    exact (next_congr hv (all_isSpace_of_isIndent h.lead)
      (all_isSpace_of_isIndent (indentOf_isIndent ..)) h.rest hrest).symm

/-! ## Lines that stay -/

/-- The lines of a formatted text start inside what the lines of the text did. -/
theorem marked_map_formatMarked {v : Verbatim} {lines : List Text}
    (h : ∀ m ∈ v.marked hasScripts lines, m.1.keepsLine = false → KeepsEnd m.2) :
    v.marked hasScripts ((v.marked hasScripts lines).map (formatMarked o)) =
      (v.marked hasScripts lines).map fun m => (m.1, formatMarked o m) := by
  induction lines generalizing v with
  | nil => rfl
  | cons line lines ih =>
    obtain ⟨hline, hlines⟩ := List.forall_mem_cons.1 h
    have hnext : v.next hasScripts (formatMarked o (v, line)) = v.next hasScripts line := by
      rw [formatMarked]
      split_ifs with hkeeps
      · rfl
      · have hv : v.keepsLine = false := by simpa using hkeeps
        exact next_formatLine hv (hline hv)
    rw [marked, List.map_cons, marked, hnext, ih hlines]
    rfl

theorem marked_append (hasScripts : Bool) (v : Verbatim) (ls ks : List Text) :
    ∃ w : Verbatim, v.marked hasScripts (ls ++ ks) =
      v.marked hasScripts ls ++ w.marked hasScripts ks := by
  induction ls generalizing v with
  | nil => exact ⟨v, rfl⟩
  | cons l ls ih =>
    obtain ⟨w, hw⟩ := ih (v.next hasScripts l)
    exact ⟨w, by rw [List.cons_append, marked, marked, hw, List.cons_append]⟩

end Verbatim

/-- The texts that formatting leaves as they are. -/
structure IsFormatted (o : FormatOptions) (hasScripts : Bool) (t : Text) : Prop where
  returns : ∀ l ∈ (lines t).dropLast, l.getLast? ≠ some '\r'
  lines : ∀ m ∈ markedLines hasScripts t, m.1.keepsLine = false → formatLine o m.2 = m.2
  newline : o.finalNewline = true → endWithNewline t = t

/-- Lines that are written as they are have no carriage returns to lose, and stay. -/
theorem eq_of_map_formatMarked {v : Verbatim} {ls : List Text}
    (h : (v.marked hasScripts (dropReturns ls)).map (formatMarked o) = ls) :
    dropReturns ls = ls ∧
      ∀ m ∈ v.marked hasScripts (dropReturns ls), formatMarked o m = m.2 := by
  induction ls generalizing v with
  | nil => exact ⟨rfl, nofun⟩
  | cons l ls ih =>
    cases ls with
    | nil =>
      refine ⟨rfl, fun m hm => ?_⟩
      rw [List.mem_singleton.1 hm]
      exact (List.cons.inj h).1
    | cons k ls =>
      rw [dropReturns_cons (List.cons_ne_nil _ _), Verbatim.marked, List.map_cons,
        List.cons_eq_cons] at h
      obtain ⟨hl, hls⟩ := h
      obtain ⟨hreturns, hfixed⟩ := ih hls
      -- neither a kept line nor a formatted one ends in a carriage return that it had lost
      have hdrop : dropReturn l = l := by
        obtain hdrop | hdrop := dropReturn_cases l
        · exact hdrop
        · rw [formatMarked] at hl
          split_ifs at hl
          · exact hl
          · have hlast : '\r' ∈ (formatLine o (dropReturn l)).getLast? := by
              rw [hl, ← hdrop]
              simp
            exact absurd (getLast?_formatLine _ _ hlast) (by decide)
      rw [dropReturns_cons (List.cons_ne_nil _ _), hdrop, hreturns, Verbatim.marked]
      rw [hdrop] at hl hfixed
      rw [hreturns] at hfixed
      exact ⟨rfl, List.forall_mem_cons.2 ⟨hl, hfixed⟩⟩

/-- **The texts that formatting leaves as they are** have line feeds alone, lines that stay, and
one line break at the end if there is to be one. -/
theorem formatLines_eq_self_iff : formatLines o hasScripts t = t ↔ IsFormatted o hasScripts t := by
  constructor
  · intro h
    rw [formatLines_eq] at h
    have hlines := lines_joinedLines o hasScripts t
    have hjoined : joinedLines o hasScripts t = t := by
      split_ifs at h
      · obtain ⟨p, k, hp, hend, hone⟩ := exists_lines_endWithNewline (joinedLines o hasScripts t)
        -- as many lines are written as there are, so there is one line break at the end
        have hlength := length_markedLines hasScripts t
        rw [← List.length_map (f := formatMarked o), ← hlines, hp, ← h, hend, List.length_append,
          List.length_append] at hlength
        exact (hone (Nat.add_left_cancel hlength)).symm.trans h
      · exact h
    rw [hjoined] at h hlines
    obtain ⟨hreturns, hfixed⟩ := eq_of_map_formatMarked hlines.symm
    refine ⟨dropReturns_eq_self_iff.1 hreturns, fun m hm hkeeps => ?_, fun hnewline => ?_⟩
    · have := hfixed m hm
      rwa [formatMarked, if_neg (by simp [hkeeps])] at this
    · rwa [if_pos hnewline] at h
  · intro h
    have hjoined : joinedLines o hasScripts t = t := by
      refine joinedLines_eq_self (dropReturns_eq_self_iff.2 h.returns) fun m hm => ?_
      rw [formatMarked]
      split_ifs with hkeeps
      · rfl
      · exact h.lines m hm (by simpa using hkeeps)
    rw [formatLines_eq, hjoined]
    split_ifs with hnewline
    · exact h.newline hnewline
    · rfl

/-! ## Texts that have been formatted -/

/-- A line that does not stand in the way of formatting the text again: if it is kept, it has no
carriage return at its end, and if it is formatted, no open tag loses the blank behind its name. -/
def StaysMarked (m : Verbatim × Text) : Prop :=
  if m.1.keepsLine then m.2.getLast? ≠ some '\r' else KeepsEnd m.2

instance : DecidablePred StaysMarked := fun m =>
  inferInstanceAs (Decidable (if m.1.keepsLine then _ else _))

theorem StaysMarked.getLast?_formatMarked {m : Verbatim × Text} (h : StaysMarked m) :
    (formatMarked o m).getLast? ≠ some '\r' := by
  rw [StaysMarked] at h
  rw [formatMarked]
  split_ifs at h ⊢
  · exact h
  · exact fun hlast => absurd (getLast?_formatLine _ _ hlast) (by decide)

/-- **A formatted text is one that formatting leaves as it is**, if no line stands in the way. -/
theorem isFormatted_formatLines (o : FormatOptions)
    (hs : ∀ m ∈ markedLines hasScripts s, StaysMarked m) :
    IsFormatted o hasScripts (formatLines o hasScripts s) := by
  obtain ⟨p, k, r, hwritten, hlines, hempty⟩ := exists_lines_formatLines o hasScripts s
  have hreturns : ∀ l ∈ (lines (formatLines o hasScripts s)).dropLast, l.getLast? ≠ some '\r' := by
    intro l hl
    rw [hlines] at hl
    obtain hl | hl := List.mem_append.1 (List.dropLast_subset _ hl)
    · obtain ⟨m, hm, rfl⟩ := List.mem_map.1 (hwritten ▸ List.mem_append_left k hl)
      exact (hs m hm).getLast?_formatMarked
    · rw [hempty l hl]
      exact nofun
  have hmarked : Verbatim.outside.marked hasScripts (p ++ k) =
      (markedLines hasScripts s).map fun m => (m.1, formatMarked o m) := by
    rw [← hwritten]
    refine Verbatim.marked_map_formatMarked fun m hm hkeeps => ?_
    have := hs m hm
    rwa [StaysMarked, if_neg (by simp [hkeeps])] at this
  refine ⟨hreturns, fun m hm hkeeps => ?_, fun hnewline => ?_⟩
  · rw [markedLines, dropReturns_eq_self_iff.2 hreturns, hlines] at hm
    obtain ⟨v, hp⟩ := Verbatim.marked_append hasScripts .outside p r
    obtain ⟨v', hp'⟩ := Verbatim.marked_append hasScripts .outside p k
    rw [hp] at hm
    obtain hm | hm := List.mem_append.1 hm
    · have hm' := List.mem_append_left (v'.marked hasScripts k) hm
      rw [← hp', hmarked] at hm'
      obtain ⟨m, -, rfl⟩ := List.mem_map.1 hm'
      have hstays := formatMarked_formatMarked (o := o) m
      rwa [formatMarked, if_neg (by simpa using hkeeps)] at hstays
    · have hline := List.mem_map_of_mem (f := Prod.snd) hm
      rw [Verbatim.map_snd_marked] at hline
      rw [hempty _ hline]
      rfl
  · rw [formatLines_eq, if_pos hnewline, endWithNewline_endWithNewline]

namespace Formatter

/-- **A text that has been formatted is formatted as it is** exactly if its lines stay, as they do
if no line of the text stands in the way. -/
theorem standard_standard (dialect : Dialect) (o : FormatOptions) (s : Text) :
    ∃ t, standard dialect o s = .ok t ∧
      (standard dialect o t = .ok t ↔ IsFormatted o (dialect != .html) t) ∧
      ((∀ m ∈ markedLines (dialect != .html) s, StaysMarked m) →
        standard dialect o t = .ok t) := by
  have hiff {t : Text} : standard dialect o t = .ok t ↔ IsFormatted o (dialect != .html) t := by
    rw [standard, Except.ok.injEq, formatLines_eq_self_iff]
  exact ⟨_, rfl, hiff, fun hs => hiff.2 (isFormatted_formatLines o hs)⟩

/-- A page with a text area and a template. -/
theorem standard_standard_page :
    let s := "<div>\r\n\t<TEXTAREA\tid=a>  \n x \n</TEXTAREA>\t\n  $ \x60\n\t\x60\n\n".toList
    ∀ o : FormatOptions, (∀ m ∈ markedLines true s, StaysMarked m) ∧
      ∃ t, standard .vue o s = .ok t ∧ standard .vue o t = .ok t := by
  intro s o
  have hs : ∀ m ∈ markedLines true s, StaysMarked m := by decide +kernel
  obtain ⟨t, ht, -, hstays⟩ := standard_standard .vue o s
  exact ⟨hs, t, ht, hstays hs⟩

/-- An open tag at the end of a line loses the blank behind its name. -/
theorem not_standard_standard :
    ¬ ∀ (dialect : Dialect) (o : FormatOptions) (s t : Text),
      standard dialect o s = .ok t → standard dialect o t = .ok t := by
  intro h
  have hfirst : standard .html {} "<pre \n>\n\tx</pre>".toList =
      .ok "<pre\n>\n\tx</pre>\n".toList := by decide +kernel
  have hsecond : standard .html {} "<pre\n>\n\tx</pre>\n".toList =
      .ok "<pre\n>\n  x</pre>\n".toList := by decide +kernel
  have hsame := (h .html {} _ _ hfirst).symm.trans hsecond
  exact absurd hsame (by decide)

end Formatter

end MarkupSync
