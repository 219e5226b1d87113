import MarkupSync.Proofs.Document.Fault
import MarkupSync.Report.Render

/-!
# The place that a report names

A report has the line and the column of an error in its header. They are counted in characters up to
the error's byte, and by other ends of lines than those of `ParseError.lineColumn`.

* `Column.startsLine`: where lines of a report start (`Column.linesOf_cons`);
* `spotAfter`: the line and the column behind a text, for any rule where lines start;
* `Report.spot_lineOf`, `ParseError.lineColumn_eq`: both countings as instances of it;
* `linesAlike`: texts whose lines start behind their line feeds;
* `eq_of_spotAfter_eq`: when the two countings agree;
* `Report.Names`: the place in the header of a report (`Report.Names.unique`);
* **`ParseError.names_lineColumn_iff`**: when a report names the line and the column of its error.
-/

namespace MarkupSync

open Text

/-! ## Lines of a report -/

namespace Column

/-- A line of a report starts behind the character `c`, in front of the text `behind`. -/
def startsLine (c : Char) (behind : Text) : Bool :=
  endsLine c && !behind.isEmpty && !(c == '\r' && behind.head? == some '\n')

/-- A character in front of the lines of a text. -/
def addFront (front : Text) : List Text → List Text
  | [] => [front]
  | line :: rest => (front ++ line) :: rest

theorem linesOf_cons (c : Char) (s : Text) :
    linesOf (c :: s) = if startsLine c s then [c] :: linesOf s else addFront [c] (linesOf s) := by
  cases s with
  | nil =>
    have hstarts : startsLine c [] = false := by simp [startsLine]
    have hlines : linesOf [c] = [[c]] := by
      unfold linesOf
      split <;> simp_all [linesOf]
    rw [hstarts, hlines]
    rfl
  | cons d t =>
    by_cases h : c = '\r' ∧ d = '\n'
    · obtain ⟨rfl, rfl⟩ := h
      rfl
    · have hstarts : startsLine c (d :: t) = endsLine c := by
        simp only [not_and_or] at h
        simp [startsLine, h]
      rw [hstarts, linesOf]
      · rfl
      · nofun
      · rintro t rfl ⟨⟩
        exact h ⟨rfl, rfl⟩

theorem addFront_addFront (front front' : Text) (lines : List Text) :
    addFront front (addFront front' lines) = addFront (front ++ front') lines := by
  cases lines <;> simp [addFront]

/-- A text that is not empty has lines. -/
theorem addFront_nil_linesOf {s : Text} (h : s ≠ []) : addFront [] (linesOf s) = linesOf s := by
  obtain ⟨c, s, rfl⟩ := List.exists_cons_of_ne_nil h
  rw [linesOf_cons]
  split
  · rfl
  · rw [addFront_addFront]
    rfl

theorem ne_nil_of_startsLine {c : Char} {s : Text} (h : startsLine c s = true) : s ≠ [] := by
  rintro rfl
  simp [startsLine] at h

/-- A line feed that something follows starts a line. -/
theorem startsLine_feed {s : Text} (h : s ≠ []) : startsLine '\n' s = true := by
  simp [startsLine, endsLine, h]

end Column

/-! ## Spots -/

/-- The index of the line and of the column behind the text `front`, from `spot` in front of it,
where a line starts behind a character if `starts` says so of it and of what follows. -/
def spotAfter (starts : Char → Text → Bool) (spot : Nat × Nat) : Text → Text → Nat × Nat
  | [], _ => spot
  | c :: front, back =>
    spotAfter starts (if starts c (front ++ back) then (spot.1 + 1, 0) else (spot.1, spot.2 + 1))
      front back

theorem spotAfter_concat (starts : Char → Text → Bool) (spot : Nat × Nat) (front back : Text)
    (c : Char) : spotAfter starts spot (front ++ [c]) back =
      spotAfter starts (spotAfter starts spot front (c :: back)) [c] back := by
  induction front generalizing spot with
  | nil => rfl
  | cons d front ih =>
    rw [List.cons_append, spotAfter, List.append_assoc, List.singleton_append]
    exact ih _

/-- Whether a character is a line feed, whatever follows it. -/
def isFeed (c : Char) (_ : Text) : Bool := c == '\n'

theorem spotAfter_isFeed (front back : Text) :
    spotAfter isFeed (0, 0) front back = (front.count '\n', (lastLine front).length) := by
  induction front using List.reverseRecOn generalizing back with
  | nil => rfl
  | append_singleton front c ih =>
    rw [spotAfter_concat, ih]
    by_cases hc : c = '\n'
    · subst hc
      simp [spotAfter, isFeed, lastLine]
    · simp [spotAfter, isFeed, lastLine, hc]

theorem ParseError.lineColumn_eq {e : ParseError} {front back : Text} (h : width front = e.position) :
    e.lineColumn (front ++ back) = ((spotAfter isFeed (0, 0) front back).1 + 1,
      (spotAfter isFeed (0, 0) front back).2 + 1) := by
  have hmin : min e.position (width (front ++ back)) = width front := by
    rw [← h, width_append]
    omega
  rw [ParseError.lineColumn, hmin, before_width_append, spotAfter_isFeed]

namespace Report

theorem lineFrom_addFront_nil (offset index start : Nat) (lines : List Text) :
    lineFrom offset index start (Column.addFront [] lines) = lineFrom offset index start lines := by
  cases lines <;> rfl

theorem lineFrom_of_lt {offset index start : Nat} {line : Text} {rest : List Text}
    (h : offset < start + line.length) :
    lineFrom offset index start (line :: rest) = ⟨index, start, line⟩ := by
  cases rest with
  | nil => rfl
  | cons => exact if_pos h

/-- The index of the line, and that of the column of the character at `offset`. -/
def Line.spot (offset : Nat) (line : Line) : Nat × Nat := (line.index, offset - line.start)

/-- The line of the character behind `front`, where `line` stands in front of `front` on its
line. -/
theorem spot_lineFrom (index start : Nat) (line front back : Text) :
    (lineFrom (start + line.length + front.length) index start
      (Column.addFront line (Column.linesOf (front ++ back)))).spot
        (start + line.length + front.length) =
      spotAfter Column.startsLine (index, line.length) front back := by
  induction front generalizing index start line with
  | nil =>
    have hspot (text : Text) : Line.spot (start + line.length) ⟨index, start, text⟩ =
        (index, line.length) := by
      rw [Line.spot, Nat.add_sub_cancel_left]
    cases back with
    | nil => exact hspot _
    | cons c s =>
      rw [List.nil_append, List.length_nil, Nat.add_zero, Column.linesOf_cons, spotAfter]
      split
      · rw [Column.addFront, lineFrom_of_lt (by simp)]
        exact hspot _
      · rw [Column.addFront_addFront]
        cases Column.linesOf s <;> rw [Column.addFront, lineFrom_of_lt (by simp)] <;> exact hspot _
  | cons c front ih =>
    have hlength : start + line.length + (front.length + 1) =
        start + (line ++ [c]).length + front.length := by
      rw [List.length_append, List.length_singleton]
      omega
    rw [List.cons_append, Column.linesOf_cons, spotAfter, List.length_cons, hlength]
    split
    next hstarts =>
      -- the next line starts behind `c`
      have hne := Column.ne_nil_of_startsLine hstarts
      have hlines := Column.addFront_nil_linesOf hne
      have hnext := ih (index + 1) (start + (line ++ [c]).length) []
      rw [List.length_nil, Nat.add_zero, hlines] at hnext
      rw [← hnext, Column.addFront]
      cases hrest : Column.linesOf (front ++ back) with
      | nil => rw [hrest] at hlines; cases hlines
      | cons next rest =>
        rw [lineFrom, if_neg (by omega)]
        nofun
    next =>
      rw [Column.addFront_addFront, ih]
      rw [List.length_append, List.length_singleton]

/-- **The place of a character in a report.** -/
theorem spot_lineOf (front back : Text) :
    (lineOf front.length (front ++ back)).spot front.length =
      spotAfter Column.startsLine (0, 0) front back := by
  have h := spot_lineFrom 0 0 [] front back
  rw [lineFrom_addFront_nil] at h
  simpa [lineOf] using h

end Report

/-! ## When the two countings agree -/

/-- Within `front`, in front of `back`, the lines of a report start behind the line feeds. -/
def linesAlike : Text → Text → Bool
  | [], _ => true
  | c :: front, back => Column.startsLine c (front ++ back) == (c == '\n') && linesAlike front back

/-- Characters move a spot on, to another line or along its line. -/
theorem spotAfter_after (starts : Char → Text → Bool) (spot : Nat × Nat) (front back : Text) :
    spot.1 < (spotAfter starts spot front back).1 ∨
      spotAfter starts spot front back = (spot.1, spot.2 + front.length) := by
  induction front generalizing spot with
  | nil => exact .inr rfl
  | cons c front ih =>
    rw [spotAfter]
    split
    · rcases ih (spot.1 + 1, 0) with h | h
      · exact .inl (Nat.lt_of_succ_lt h)
      · rw [h]
        exact .inl (Nat.lt_succ_self _)
    · rcases ih (spot.1, spot.2 + 1) with h | h
      · exact .inl h
      · rw [h, List.length_cons]
        exact .inr (by rw [Nat.add_right_comm, Nat.add_assoc])

theorem spotAfter_eq_of_linesAlike {front back : Text} (h : linesAlike front back = true)
    (spot : Nat × Nat) :
    spotAfter Column.startsLine spot front back = spotAfter isFeed spot front back := by
  induction front generalizing spot with
  | nil => rfl
  | cons c front ih =>
    rw [linesAlike, Bool.and_eq_true, beq_iff_eq] at h
    rw [spotAfter, spotAfter, h.1, isFeed]
    exact ih h.2 _

/-- A spot in a report that is not in front of another, by line feeds, and is reached by at least as
many characters, is the same only if it is reached by the same characters, with the same lines. -/
theorem eq_of_spotAfter_eq {front mid back : Text} {spot spot' : Nat × Nat}
    (hline : spot'.1 ≤ spot.1) (hcolumn : spot'.1 = spot.1 → spot' = spot)
    (h : spotAfter Column.startsLine spot (front ++ mid) back =
      spotAfter isFeed spot' front (mid ++ back)) :
    spot' = spot ∧ mid = [] ∧ linesAlike front back = true := by
  induction front generalizing spot spot' with
  | nil =>
    rw [List.nil_append, spotAfter] at h
    rcases spotAfter_after Column.startsLine spot mid back with hafter | hafter
    · rw [h] at hafter
      omega
    · rw [h] at hafter
      have hline := congrArg Prod.fst hafter
      have hlength := congrArg Prod.snd hafter
      obtain rfl := hcolumn hline
      simp only at hlength
      exact ⟨rfl, List.length_eq_zero_iff.1 (by omega), rfl⟩
  | cons c front ih =>
    rw [List.cons_append, spotAfter, spotAfter] at h
    by_cases hfeed : c = '\n'
    · subst hfeed
      have hfeed : isFeed '\n' (front ++ mid ++ back) = true := rfl
      rw [← List.append_assoc, hfeed, if_pos rfl] at h
      by_cases hne : front ++ mid ++ back = []
      · -- no line of a report starts at the end of the source
        obtain ⟨rfl, rfl, rfl⟩ := by simpa using hne
        cases congrArg Prod.snd h
      · have hstarts := Column.startsLine_feed hne
        rw [hstarts, if_pos rfl] at h
        obtain ⟨heq, rfl, halike⟩ := ih (Nat.succ_le_succ hline)
          (fun heq => by rw [Nat.succ.inj heq]) h
        refine ⟨hcolumn (Nat.succ.inj (Prod.mk.inj heq).1), rfl, ?_⟩
        rw [List.append_nil] at hstarts
        rw [linesAlike, hstarts, halike]
        rfl
    · have hnot : isFeed c (front ++ mid ++ back) = false := by simpa [isFeed] using hfeed
      rw [← List.append_assoc, hnot, if_neg Bool.false_ne_true] at h
      cases hstarts : Column.startsLine c (front ++ mid ++ back) with
      | true =>
        rw [hstarts, if_pos rfl] at h
        obtain ⟨heq, -⟩ := ih (Nat.le_succ_of_le hline) (fun heq => by simp only at heq; omega) h
        have := (Prod.mk.inj heq).1
        omega
      | false =>
        rw [hstarts, if_neg Bool.false_ne_true] at h
        obtain ⟨heq, rfl, halike⟩ := @ih (spot.1, spot.2 + 1) (spot'.1, spot'.2 + 1) hline
          (fun heq => by rw [hcolumn heq]) h
        refine ⟨hcolumn (Prod.mk.inj heq).1, rfl, ?_⟩
        rw [List.append_nil] at hstarts
        rw [linesAlike, hstarts, halike]
        simpa using hfeed

/-! ## The header of a report -/

namespace Report

/-- The header of a report for a place in a file. -/
def header (file : Text) (place : Nat × Nat) : Text :=
  ['╭', '─', '['] ++ file ++ [':'] ++ (toString place.1).toList ++ [':'] ++
    (toString place.2).toList ++ [']', '\n']

/-- The header of a report names a place: it stands behind the headline, and behind the white space
in front of the picture. -/
def Names (file report : Text) (place : Nat × Nat) : Prop :=
  ∃ headline gutter rest, '\n' ∉ headline ∧ gutter.all (· == ' ') = true ∧
    report = headline ++ '\n' :: (gutter ++ (header file place ++ rest))

/-- A text of characters of a class ends where another character follows. -/
theorem append_inj_of_all {p : Char → Bool} {u v s t : Text} (hu : u.all p = true)
    (hv : v.all p = true) (hs : ∀ c ∈ s.head?, p c = false) (ht : ∀ c ∈ t.head?, p c = false)
    (h : u ++ s = v ++ t) : u = v ∧ s = t := by
  have heq := congrArg (List.takeWhile p) h
  rw [takeWhile_append_of_stop hu hs, takeWhile_append_of_stop hv ht] at heq
  subst heq
  exact ⟨rfl, List.append_cancel_left h⟩

/-- A line ends at its line feed. -/
theorem append_inj_of_feed {u v s t : Text} (hu : '\n' ∉ u) (hv : '\n' ∉ v)
    (h : u ++ '\n' :: s = v ++ '\n' :: t) : u = v ∧ s = t := by
  have noFeed {s : Text} (hs : '\n' ∉ s) : s.all (· != '\n') = true :=
    List.all_eq_true.2 fun c hc => bne_iff_ne.2 fun h => hs (h ▸ hc)
  obtain ⟨huv, hst⟩ := append_inj_of_all (noFeed hu) (noFeed hv) (by rintro _ ⟨⟩; rfl)
    (by rintro _ ⟨⟩; rfl) h
  exact ⟨huv, (List.cons.inj hst).2⟩

theorem header_append_inj {file rest rest' : Text} {place place' : Nat × Nat}
    (h : header file place ++ rest = header file place' ++ rest') : place = place' := by
  have digits (n : Nat) : (Nat.toDigits 10 n).all Char.isDigit = true :=
    List.all_eq_true.2 fun c hc => Nat.isDigit_of_mem_toDigits (by decide) (by decide) hc
  have inj {m n : Nat} (h : Nat.toDigits 10 m = Nat.toDigits 10 n) : m = n := by
    have := congrArg (Nat.ofDigitChars 10 · 0) h
    simpa only [Nat.ofDigitChars_toDigits (b := 10) (by decide) (by decide)] using this
  simp only [header, Nat.toString_eq_repr, Nat.toList_repr, List.append_assoc] at h
  have h := List.append_cancel_left (List.append_cancel_left h)
  obtain ⟨hline, h⟩ := append_inj_of_all (digits _) (digits _) (by rintro _ ⟨⟩; rfl)
    (by rintro _ ⟨⟩; rfl) (List.append_cancel_left h)
  obtain ⟨hcolumn, -⟩ := append_inj_of_all (digits _) (digits _) (by rintro _ ⟨⟩; rfl)
    (by rintro _ ⟨⟩; rfl) (List.append_cancel_left h)
  exact Prod.ext (inj hline) (inj hcolumn)

/-- **A report names one place.** -/
theorem Names.unique {file report : Text} {place place' : Nat × Nat} (h : Names file report place)
    (h' : Names file report place') : place = place' := by
  obtain ⟨headline, gutter, rest, hheadline, hgutter, rfl⟩ := h
  obtain ⟨headline', gutter', rest', hheadline', hgutter', h⟩ := h'
  obtain ⟨-, h⟩ := append_inj_of_feed hheadline hheadline' h
  obtain ⟨-, h⟩ := append_inj_of_all hgutter hgutter' (by rintro _ ⟨⟩; rfl) (by rintro _ ⟨⟩; rfl) h
  exact header_append_inj h

/-- A picture starts with its header, behind white space. -/
theorem exists_picture (file message : Text) (line : Line) (start stop : Nat) :
    ∃ gutter rest, gutter.all (· == ' ') = true ∧ picture file message line start stop =
      gutter ++ (header file ((line.spot start).1 + 1, (line.spot start).2 + 1) ++ rest) := by
  unfold picture
  extract_lets number gutter column shownText count tip underline pointer content place
  have hgutter : gutter.all (· == ' ') = true :=
    List.all_eq_true.2 fun c hc => beq_iff_eq.2 (List.eq_of_mem_replicate hc)
  have hheader : header file ((line.spot start).1 + 1, (line.spot start).2 + 1) =
      ['╭', '─', '['] ++ file ++ place ++ [']', '\n'] := by
    simp only [header, place, List.append_assoc]
    rfl
  clear_value gutter place content underline pointer number
  rw [hheader]
  simp only [List.append_assoc]
  exact ⟨gutter, _, hgutter, rfl⟩

end Report

/-! ## Errors -/

theorem length_le_width (s : Text) : s.length ≤ width s := by
  induction s with
  | nil => exact Nat.le_refl _
  | cons c s ih =>
    have := c.utf8Size_pos
    rw [List.length_cons, width_cons]
    omega

/-- A text has as many bytes as characters if each takes one byte. -/
theorem width_eq_length_iff {s : Text} : width s = s.length ↔ ∀ c ∈ s, c.utf8Size = 1 := by
  induction s with
  | nil => simp
  | cons c s ih =>
    have := c.utf8Size_pos
    have := length_le_width s
    rw [List.forall_mem_cons, ← ih, List.length_cons, width_cons]
    omega

namespace ParseError

variable {e : ParseError} {source : Text}

theorem not_mem_headline (e : ParseError) :
    '\n' ∉ ("Error: " ++ e.fault.kind.label).toList := by
  cases e.fault.kind <;> decide

/-- A report names the place of the character that the position counts, taken as a number of
characters. -/
theorem names_report (file : Text) {front back : Text} (h : front.length = e.position) :
    Report.Names file (e.report file (front ++ back))
      ((spotAfter Column.startsLine (0, 0) front back).1 + 1,
        (spotAfter Column.startsLine (0, 0) front back).2 + 1) := by
  have hlength : e.position ≤ (front ++ back).length := by
    rw [List.length_append]
    omega
  have hmin : min e.position (width (front ++ back)) = e.position :=
    Nat.min_eq_left (Nat.le_trans hlength (length_le_width _))
  have hstop : max (min (e.position + 1) (width (front ++ back))) e.position - 1 ≤
      (front ++ back).length := by omega
  obtain ⟨gutter, rest, hgutter, hpicture⟩ := Report.exists_picture file e.fault.message.toList
    (Report.lineOf e.position (front ++ back)) e.position
    (max (min (e.position + 1) (width (front ++ back))) e.position)
  refine ⟨_, gutter, rest, e.not_mem_headline, hgutter, ?_⟩
  rw [report]
  simp only [hmin]
  rw [if_pos ⟨hlength, hstop⟩, hpicture, ← Report.spot_lineOf, h, String.toList_append,
    List.append_assoc]
  rfl

/-- A report of a position behind the last character names no place. -/
theorem not_names_report {file : Text} (h : source.length < e.position)
    (hwidth : e.position ≤ width source) (place : Nat × Nat) :
    ¬ Report.Names file (e.report file source) place := by
  rintro ⟨headline, gutter, rest, hheadline, -, hreport⟩
  have hmin : min e.position (width source) = e.position := Nat.min_eq_left hwidth
  rw [report] at hreport
  simp only [hmin] at hreport
  rw [if_neg (by omega), String.toList_append] at hreport
  have hrest := (Report.append_inj_of_feed e.not_mem_headline hheadline hreport).2
  simp [Report.header] at hrest

/-- **When a report names the line and the column of its error**: exactly if every character in
front of the error takes one byte, and every line in front of it that starts in the report starts
behind a line feed, and behind every line feed. The position lies between two characters. -/
theorem names_lineColumn_iff {dialect : Dialect}
    (h : Document.ofSource dialect source = .error e) (file : Text) :
    Boundary e.position source ∧
      (Report.Names file (e.report file source) (e.lineColumn source) ↔
        (∀ c ∈ before e.position source, c.utf8Size = 1) ∧
          linesAlike (before e.position source) (after e.position source) = true) := by
  have hboundary := Document.boundary_of_error h
  refine ⟨hboundary, ?_⟩
  obtain ⟨front, back, rfl, hfront⟩ := hboundary
  rw [← hfront, before_width_append, after_width_append, ← width_eq_length_iff, lineColumn_eq hfront]
  have hfrontle := length_le_width front
  by_cases hle : e.position ≤ (front ++ back).length
  · -- the report counts on to the character behind `mid`
    obtain ⟨mid, back, rfl, hmid⟩ : ∃ mid back', back = mid ++ back' ∧
        (front ++ mid).length = e.position := by
      refine ⟨back.take (e.position - front.length), _, (List.take_append_drop _ _).symm, ?_⟩
      rw [List.length_append] at hle
      rw [List.length_append, List.length_take]
      omega
    have hnames := @names_report e file (front ++ mid) back hmid
    rw [List.append_assoc] at hnames
    constructor
    · intro hat
      obtain ⟨hline, hcolumn⟩ := Prod.mk.inj (hat.unique hnames)
      obtain ⟨-, rfl, halike⟩ := eq_of_spotAfter_eq (Nat.le_refl _) (fun _ => rfl)
        (Prod.ext (Nat.succ.inj hline).symm (Nat.succ.inj hcolumn).symm)
      exact ⟨by rw [hfront, ← hmid, List.append_nil], halike⟩
    · rintro ⟨hwidth, halike⟩
      obtain rfl : mid = [] := by
        rw [List.length_append] at hmid
        exact List.length_eq_zero_iff.1 (by omega)
      rw [List.nil_append] at halike
      rwa [List.append_nil, spotAfter_eq_of_linesAlike halike] at hnames
  · have hwidth : e.position ≤ width (front ++ back) := by
      rw [width_append]
      omega
    refine iff_of_false (not_names_report (Nat.lt_of_not_le hle) hwidth _) fun hone => hle ?_
    rw [← hfront, hone.1, List.length_append]
    exact Nat.le_add_right _ _

/-- Lines that end with a line feed, alone or behind a carriage return. -/
theorem names_lineColumn_iff_lines :
    let source := "<div>\r\n<p>\n</div>".toList
    let e : ParseError := ⟨.mismatch ['p'] ['d', 'i', 'v'], 11⟩
    Document.ofSource .html source = .error e ∧ e.lineColumn source = (3, 1) ∧
      Report.Names ['a'] (e.report ['a'] source) (e.lineColumn source) := by
  intro source e
  have h : Document.ofSource .html source = .error e :=
    eq_error_of_map (f := fun _ => ()) (by decide +kernel)
  have hwidth : width (before e.position source) = (before e.position source).length := by decide
  exact ⟨h, by decide, (names_lineColumn_iff h ['a']).2.2 ⟨width_eq_length_iff.1 hwidth, by decide⟩⟩

/-- Behind a character of two bytes a report names the next column. -/
theorem not_names_lineColumn :
    ¬ ∀ (dialect : Dialect) (source : Text) (e : ParseError) (file : Text),
      Document.ofSource dialect source = .error e →
        Report.Names file (e.report file source) (e.lineColumn source) := by
  intro h
  have herror : Document.ofSource .html "<p>é</b>".toList = .error ⟨.mismatch ['p'] ['b'], 5⟩ :=
    eq_error_of_map (f := fun _ => ()) (by decide +kernel)
  have hat := h _ _ _ ['a'] herror
  have hnext := @names_report ⟨.mismatch ['p'] ['b'], 5⟩ ['a'] "<p>é<".toList "/b>".toList rfl
  have hplace := hat.unique hnext
  revert hplace
  decide

end ParseError

end MarkupSync
