import MarkupSync.Document.Read
import MarkupSync.Proofs.Lexeme.Angle
import MarkupSync.Proofs.Text.Entity
import MarkupSync.Proofs.Text.Trim

/-!
# Reading runs of text

* `Reader.reads`: what a reader makes of the rest of a text;
* `EndsFlow`: what ends a run of text: a tag or the end;
* `flowPieces`: the pieces of text of a run, with the bytes at which they start
  (`flatMap_flowPieces`);
* **`reads_flow`**: reading a run adds its pieces to those that were read;
* `IsGap`, `IsRunOf`: runs without text and runs that read as a text (`IsRunOf.between`);
* `IsRunOf.exists_runSpan`: the bytes recorded for a text bound it.
-/

namespace MarkupSync

open Text

/-! ## Readers -/

/-- What a reader makes of the lexemes that are left. -/
def Reader.reads (r : Reader) (scan : Scan) : Except ParseError (List (Node × Place)) :=
  match r.steps .html scan.lexemes with
  | .error e => .error e
  | .ok r =>
    match scan.fault with
    | some e => .error e
    | none => r.finish .html

theorem Scan.nodes_eq_reads (scan : Scan) : scan.nodes .html = Reader.start.reads scan := rfl

theorem Reader.reads_cons (r : Reader) (l : Lexeme) (scan : Scan) :
    r.reads (scan.cons l) =
      match r.step .html l with
      | .error e => .error e
      | .ok r => r.reads scan := by
  simp only [reads, Scan.cons, steps]
  cases r.step .html l <;> rfl

/-- A reader with more pieces in the run of text. -/
def Reader.hear (r : Reader) (pieces : List (Text × Nat)) : Reader := { r with run := r.run ++ pieces }

theorem Reader.reads_text (r : Reader) (content : Text) (span : Span) (scan : Scan) :
    r.reads (scan.cons (.text content span)) = (r.hear [(content, span.start)]).reads scan :=
  r.reads_cons _ scan

theorem Reader.hear_hear (r : Reader) (ps qs : List (Text × Nat)) :
    (r.hear ps).hear qs = r.hear (ps ++ qs) := by simp [hear]

theorem Reader.hear_nil (r : Reader) : r.hear [] = r := by simp [hear]

/-- The text of the run that has not ended. -/
def Reader.heard (r : Reader) : Text := r.run.flatMap Prod.fst

@[simp] theorem Reader.run_flush {flavor : Flavor} (r : Reader) : (r.flush flavor).run = [] := by
  rw [flush]
  split
  · assumption
  · split <;> rfl

/-- The end of a run closes nothing. -/
@[simp] theorem Reader.stack_flush {flavor : Flavor} (r : Reader) :
    (r.flush flavor).stack = r.stack := by
  rw [flush]
  split_ifs
  · rfl
  · split <;> rfl

/-! ## Scanning -/

section Scan

variable {flavor : Flavor} {n stop : Nat} {s p r rest name : Text} {tag : OpenTag}

theorem scan_nil : scan flavor n [] = ⟨[], none⟩ := by
  rw [scan]
  split <;> simp_all [contentHead]

theorem scan_skipped (h : contentHead flavor s = .ok (some (.skipped p r))) :
    scan flavor n s = scan flavor (n + width p) r := by
  rw [scan]
  split <;> simp_all

theorem scan_openTag (h : contentHead flavor s = .ok (some (.openTag name p r)))
    (ht : openTag flavor n name r = .ok (tag, stop, rest)) :
    scan flavor n s = (scan flavor stop rest).cons (.openTag tag) := by
  rw [scan]
  split <;> simp_all
  split <;> simp_all

theorem scan_closeTag (h : contentHead flavor s = .ok (some (.closeTag name p r))) :
    scan flavor n s = (scan flavor (n + width p) r).cons (.closeTag name ⟨n, n + width p⟩) := by
  rw [scan]
  split <;> simp_all

theorem scan_fragmentOpen (h : contentHead flavor s = .ok (some (.fragmentOpen p r))) :
    scan flavor n s = (scan flavor (n + width p) r).cons (.fragmentOpen ⟨n, n + width p⟩) := by
  rw [scan]
  split <;> simp_all

theorem scan_fragmentClose (h : contentHead flavor s = .ok (some (.fragmentClose p r))) :
    scan flavor n s = (scan flavor (n + width p) r).cons (.fragmentClose ⟨n, n + width p⟩) := by
  rw [scan]
  split <;> simp_all

theorem scan_expression (h : contentHead flavor s = .ok (some (.expression p r))) :
    scan flavor n s = (scan flavor (n + width p) r).cons (.expression p ⟨n, n + width p⟩) := by
  rw [scan]
  split <;> simp_all

theorem scan_plain (h : contentHead flavor s = .ok (some (.plain p r))) : scan flavor n s =
    (scan flavor (n + width (p ++ (textRun flavor r).1)) (textRun flavor r).2).cons
      (.text (p ++ (textRun flavor r).1) ⟨n, n + width (p ++ (textRun flavor r).1)⟩) := by
  rw [scan]
  split <;> simp_all

theorem textRun_plain (h : contentHead flavor s = .ok (some (.plain p r))) :
    textRun flavor s = (p ++ (textRun flavor r).1, (textRun flavor r).2) := by
  rw [textRun]
  split <;> simp_all

theorem textRun_of_ne_plain (h : ∀ p r, contentHead flavor s ≠ .ok (some (.plain p r))) :
    textRun flavor s = ([], s) := by
  rw [textRun]
  split <;> simp_all

end Scan

/-! ## The head of a run -/

/-- What ends a run of text: the end of the text or an angle that opens something. -/
def EndsFlow (rest : Text) : Prop := rest = [] ∨ ∃ s, rest = '<' :: s ∧ opensNothing s = false

theorem EndsFlow.isSoft {rest : Text} (h : EndsFlow rest) : IsSoft rest := by
  obtain rfl | ⟨s, rfl, -⟩ := h
  · trivial
  · exact .inl rfl

theorem EndsFlow.ne_plain {rest : Text} (h : EndsFlow rest) (p r : Text) :
    contentHead .html rest ≠ .ok (some (.plain p r)) := by
  obtain rfl | ⟨s, rfl, hs⟩ := h
  · simp [contentHead]
  · intro hc
    rw [contentHead] at hc
    cases ha : angleHead s with
    | error e => rw [ha] at hc; cases hc
    | ok k =>
      rw [ha] at hc
      cases hc
      rw [(opensNothing_of_angleHead ha).1] at hs
      cases hs

theorem contentHead_skipped {q p u : Text} (h : angleHead q = .ok (.skipped p u)) :
    contentHead .html ('<' :: q) = .ok (some (.skipped p u)) := by
  rw [contentHead, h]
  rfl

/-- A run starts with a comment or with plain text, and what follows it is not part of that. -/
theorem contentHead_of_stripped? {s x : Text} (hs : stripped? s = some x) (hn : s ≠ []) :
    (∃ q r, s = '<' :: q ++ r ∧ stripped? r = some x ∧
      ∀ u, angleHead (q ++ u) = .ok (.skipped ('<' :: q) u)) ∨
    ∃ p r y, s = p ++ r ∧ p ≠ [] ∧ stripped? r = some y ∧ x = p ++ y ∧ AllPlain p r ∧
      ∀ u, EndsFlow u → contentHead .html (s ++ u) = .ok (some (.plain p (r ++ u))) := by
  cases s with
  | nil => exact absurd rfl hn
  | cons c s =>
    by_cases hc : c = '<'
    · subst hc
      obtain ⟨p, r, hp, hr⟩ | ⟨ho, y, hy, rfl⟩ := stripped?_angle_eq_some hs
      · obtain ⟨q, rfl, rfl, hq⟩ := angleHead_skipped hp
        exact .inl ⟨q, r, rfl, hr, hq⟩
      · refine .inr ⟨['<'], s, y, rfl, List.cons_ne_nil _ _, hy, rfl, ⟨fun _ => ho, trivial⟩, ?_⟩
        intro u hu
        rw [List.cons_append, contentHead, angleHead_of_opensNothing (opensNothing_append ho hu.isSoft)]
        rfl
    obtain ⟨y, hy, rfl⟩ := stripped?_cons_eq_some hc hs
    by_cases hb : c = '\x7b'
    · subst hb
      refine .inr ⟨['\x7b'], s, y, rfl, List.cons_ne_nil _ _, hy, rfl,
        allPlain_of_not_mem (by decide) _, fun u _ => ?_⟩
      rw [List.cons_append, contentHead]
      · rfl
      · exact fun h => hc h
      · rintro _ _ ⟨⟩
    · -- a run of characters none of which is an angle
      have hall : (s.takeWhile isPlain).all isPlain = true := List.all_takeWhile
      have hplain : '<' ∉ c :: s.takeWhile isPlain := by
        simp only [List.mem_cons, not_or]
        exact ⟨Ne.symm hc, fun hm => absurd (List.all_eq_true.1 hall _ hm) (by decide)⟩
      have hsplit := List.takeWhile_append_dropWhile (p := isPlain) (l := s)
      have hy' : stripped? (s.takeWhile isPlain ++ s.dropWhile isPlain) = some y := hsplit.symm ▸ hy
      rw [(allPlain_of_not_mem (fun h => hplain (List.mem_cons_of_mem _ h)) _).stripped?] at hy'
      obtain ⟨z, hz, rfl⟩ := Option.map_eq_some_iff.1 hy'
      refine .inr ⟨_, _, z, by rw [List.cons_append, hsplit], List.cons_ne_nil _ _, hz, rfl,
        allPlain_of_not_mem hplain _, fun u hu => ?_⟩
      have hstop : ∀ d ∈ (s.dropWhile isPlain ++ u).head?, isPlain d = false := by
        intro d hd
        cases hr : s.dropWhile isPlain with
        | nil =>
          rw [hr, List.nil_append] at hd
          obtain rfl | ⟨v, rfl, -⟩ := hu
          · cases hd
          · cases hd
            rfl
        | cons e r =>
          refine head?_dropWhile isPlain s d ?_
          rw [hr] at hd ⊢
          exact hd
      have htake := takeWhile_append_of_stop hall hstop
      have hdrop := dropWhile_append_of_stop hall hstop
      rw [← List.append_assoc, hsplit] at htake hdrop
      rw [List.cons_append, contentHead, if_neg hb, htake, hdrop]
      · exact fun h => hc h
      · rintro _ _ ⟨⟩

/-- The run of plain text at the start of a run ends where it ends, whatever follows. -/
theorem textRun_of_stripped? {s x : Text} (hs : stripped? s = some x) :
    ∃ p r y, s = p ++ r ∧ stripped? r = some y ∧ x = p ++ y ∧ AllPlain p r ∧
      ∀ u, EndsFlow u → textRun .html (s ++ u) = (p, r ++ u) := by
  induction hn : s.length using Nat.strongRecOn generalizing s x with
  | _ n ih =>
    subst hn
    by_cases hnil : s = []
    · subst hnil
      refine ⟨[], [], x, rfl, hs, rfl, trivial, fun u hu => ?_⟩
      exact textRun_of_ne_plain hu.ne_plain
    obtain ⟨q, r, rfl, hr, hq⟩ | ⟨p, r, y, rfl, hp, hr, rfl, hplain, hu⟩ :=
      contentHead_of_stripped? hs hnil
    · refine ⟨[], _, x, rfl, hs, rfl, trivial, fun u _ => textRun_of_ne_plain fun p t h => ?_⟩
      rw [List.cons_append, List.cons_append, List.append_assoc, contentHead_skipped (hq _)] at h
      cases h
    · have hlen := List.length_pos_iff.2 hp
      obtain ⟨q, t, z, rfl, ht, rfl, hplain', hrun⟩ :=
        ih r.length (by simp only [List.length_append]; omega) hr rfl
      refine ⟨p ++ q, t, z, by simp, ht, by simp, allPlain_append.2 ⟨hplain, hplain'⟩, ?_⟩
      intro v hv
      rw [textRun_plain (hu v hv), hrun v hv]

/-! ## Pieces -/

/-- The pieces of text in a run that starts at byte `start`, with their starts. -/
def flowPieces (start : Nat) (s : Text) : List (Text × Nat) :=
  match _h : contentHead .html s with
  | .ok (some (.skipped piece rest)) => flowPieces (start + width piece) rest
  | .ok (some (.plain piece rest)) =>
    let run := textRun .html rest
    (piece ++ run.1, start) :: flowPieces (start + width (piece ++ run.1)) run.2
  | _ => []
termination_by s.length
decreasing_by
  all_goals have := length_of_contentHead _h
  all_goals simp only [ContentHead.rest] at this
  · exact this
  · have := congrArg List.length (textRun_append .html rest)
    rw [List.length_append] at this
    omega

/-- A run of text that starts at a byte, with its pieces. -/
inductive Flow : Nat → Text → List (Text × Nat) → Prop
  | nil {n : Nat} : Flow n [] []
  | comment {n : Nat} {q r : Text} {ps : List (Text × Nat)}
    (hq : ∀ u, angleHead (q ++ u) = .ok (.skipped ('<' :: q) u))
    (h : Flow (n + width ('<' :: q)) r ps) : Flow n ('<' :: q ++ r) ps
  | text {n : Nat} {t r : Text} {ps : List (Text × Nat)} (hplain : AllPlain t r)
    (hscan : ∀ u, EndsFlow u → scan .html n (t ++ r ++ u) =
      (scan .html (n + width t) (r ++ u)).cons (.text t ⟨n, n + width t⟩))
    (h : Flow (n + width t) r ps) : Flow n (t ++ r) ((t, n) :: ps)

theorem flow_flowPieces {s x : Text} (hs : stripped? s = some x) (n : Nat) :
    Flow n s (flowPieces n s) := by
  induction hlen : s.length using Nat.strongRecOn generalizing s x n with
  | _ k ih =>
    subst hlen
    by_cases hnil : s = []
    · subst hnil
      rw [flowPieces]
      simpa [contentHead] using .nil
    have ends : EndsFlow [] := .inl rfl
    obtain ⟨q, r, rfl, hr, hq⟩ | ⟨p, r, y, rfl, hp, hr, rfl, hplain, hu⟩ :=
      contentHead_of_stripped? hs hnil
    · have hpieces : flowPieces n ('<' :: q ++ r) = flowPieces (n + width ('<' :: q)) r := by
        rw [List.cons_append, flowPieces]
        split <;> simp_all [contentHead_skipped (hq r)]
      rw [hpieces]
      exact .comment hq (ih r.length (by simp only [List.length_cons, List.length_append]; omega) hr _ rfl)
    · obtain ⟨q, t, z, rfl, ht, rfl, hplain', hrun⟩ := textRun_of_stripped? hr
      have h := hu [] ends
      have h' := hrun [] ends
      simp only [List.append_nil] at h h'
      have hpieces : flowPieces n (p ++ (q ++ t)) =
          (p ++ q, n) :: flowPieces (n + width (p ++ q)) t := by
        rw [flowPieces]
        split <;> simp_all
      rw [hpieces, ← List.append_assoc]
      have := List.length_pos_iff.2 hp
      refine .text (allPlain_append.2 ⟨hplain, hplain'⟩) (fun u hu' => ?_)
        (ih t.length (by simp; omega) ht _ rfl)
      rw [List.append_assoc p q t, scan_plain (hu u hu'), hrun u hu']

namespace Flow

variable {n : Nat} {s : Text} {ps : List (Text × Nat)}

/-- The text of a run is that of its pieces. -/
theorem stripped?_eq (h : Flow n s ps) : stripped? s = some (ps.flatMap Prod.fst) := by
  induction h with
  | nil => exact stripped?_nil
  | comment hq _ ih => rw [List.cons_append, stripped?_skipped (hq _), ih]
  | text hplain _ _ ih => simp [hplain.stripped?, ih]

/-- **Reading a run adds its pieces to those that were read.** -/
theorem reads (h : Flow n s ps) (r : Reader) {u : Text} (hu : EndsFlow u) :
    r.reads (scan .html n (s ++ u)) = (r.hear ps).reads (scan .html (n + width s) u) := by
  induction h generalizing r with
  | nil => rw [List.nil_append, r.hear_nil, width_nil, Nat.add_zero]
  | comment hq _ ih =>
    rw [List.append_assoc, List.cons_append, scan_skipped (contentHead_skipped (hq _)), ih r,
      width_append, Nat.add_assoc]
  | text hplain hscan _ ih =>
    rw [hscan u hu, r.reads_text, ih, r.hear_hear, width_append, Nat.add_assoc]
    rfl

end Flow

/-- Reading a run adds its pieces to those that were read. -/
theorem reads_flow {s x : Text} (hs : stripped? s = some x) (r : Reader) (n : Nat) {u : Text}
    (hu : EndsFlow u) : r.reads (scan .html n (s ++ u)) =
      (r.hear (flowPieces n s)).reads (scan .html (n + width s) u) :=
  (flow_flowPieces hs n).reads r hu

/-- The text of a run is that of its pieces. -/
theorem flatMap_flowPieces {s x : Text} (hs : stripped? s = some x) (n : Nat) :
    (flowPieces n s).flatMap Prod.fst = x :=
  Option.some.inj ((flow_flowPieces hs n).stripped?_eq.symm.trans hs)

/-! ## Where the text of a run stands -/

theorem trimmedPiece?_eq_none {t : Text} (ht : IsBlankText t) (n : Nat) :
    trimmedPiece? (t, n) = none := by
  obtain ⟨a, b, -, -, -, hspan⟩ := exists_trim t
  rw [trim_eq_nil_iff.2 ht] at hspan
  simp [trimmedPiece?, hspan, Span.length]

theorem exists_trimmedPiece {t : Text} (ht : ¬ IsBlankText t) (n : Nat) :
    ∃ a m b, t = a ++ m ++ b ∧ IsBlankText a ∧ IsBlankText b ∧
      trimmedPiece? (t, n) = some ⟨n + width a, n + width a + width m⟩ := by
  obtain ⟨a, b, heq, ha, hb, hspan⟩ := exists_trim t
  refine ⟨a, _, b, heq, ha, hb, ?_⟩
  have hne : width (trim isBlank t) ≠ 0 := by
    rw [Ne, width_eq_zero, trim_eq_nil_iff]
    exact ht
  simp [trimmedPiece?, hspan, Span.length, Span.shift, hne]
  omega

theorem isBlankText_of_not_mem {x : Text} (h : IsBlankText x) : '<' ∉ x :=
  fun hm => absurd (h _ hm) (by decide)

theorem findSome?_trimmedPiece_eq_none {ps : List (Text × Nat)}
    (h : IsBlankText (ps.flatMap Prod.fst)) :
    ps.findSome? trimmedPiece? = none ∧ ps.reverse.findSome? trimmedPiece? = none := by
  have : ∀ p ∈ ps, trimmedPiece? p = none := fun p hp =>
    trimmedPiece?_eq_none (fun c hc => h c (List.mem_flatMap.2 ⟨p, hp, hc⟩)) p.2
  simp only [List.findSome?_eq_none_iff, List.mem_reverse]
  exact ⟨this, this⟩

namespace Flow

variable {n : Nat} {s : Text} {ps : List (Text × Nat)}

/-- The first and the last character of a run that are not blank bound its text. -/
theorem exists_runSpan (h : Flow n s ps) (hne : ¬ IsBlankText (ps.flatMap Prod.fst)) :
    ∃ a m b xa xm xb, s = a ++ m ++ b ∧ stripped? a = some xa ∧ IsBlankText xa ∧
      stripped? m = some xm ∧ stripped? b = some xb ∧ IsBlankText xb ∧
      ps.flatMap Prod.fst = xa ++ xm ++ xb ∧
      ∃ first last, ps.findSome? trimmedPiece? = some first ∧
        ps.reverse.findSome? trimmedPiece? = some last ∧ first.start = n + width a ∧
        last.stop = n + width a + width m := by
  induction h with
  | nil => exact absurd isBlankText_nil hne
  | @comment n q r ps hq h ih =>
    obtain ⟨a, m, b, xa, xm, xb, rfl, ha, hxa, hm, hb, hxb, hps, first, last, hf, hl, hfs, hls⟩ :=
      ih hne
    refine ⟨'<' :: q ++ a, m, b, xa, xm, xb, by simp, ?_, hxa, hm, hb, hxb, hps, first, last, hf,
      hl, ?_, ?_⟩
    · rw [List.cons_append, stripped?_skipped (hq _), ha]
    · rw [hfs, width_append, Nat.add_assoc]
    · rw [hls, width_append]
      omega
  | @text n t r ps hplain hscan h ih =>
    rw [List.flatMap_cons] at hne ⊢
    have hr := h.stripped?_eq
    by_cases hps : IsBlankText (ps.flatMap Prod.fst)
    · -- the text ends in this piece
      have ht : ¬ IsBlankText t := fun ht => hne (isBlankText_append.2 ⟨ht, hps⟩)
      obtain ⟨a, m, b, rfl, ha, hb, hspan⟩ := exists_trimmedPiece ht n
      rw [allPlain_append, allPlain_append] at hplain
      obtain ⟨-, hlast⟩ := findSome?_trimmedPiece_eq_none hps
      refine ⟨a, m, b ++ r, a, m, b ++ ps.flatMap Prod.fst, by simp, hplain.1.1.stripped?_eq, ha,
        hplain.1.2.stripped?_eq, by simp [hplain.2.stripped?, hr], isBlankText_append.2 ⟨hb, hps⟩,
        by simp, ⟨n + width a, n + width a + width m⟩, ⟨n + width a, n + width a + width m⟩,
        by rw [List.findSome?_cons, hspan], ?_, rfl, rfl⟩
      rw [List.reverse_cons, List.findSome?_append, hlast, List.findSome?_singleton, hspan]
      rfl
    obtain ⟨a', m', b', xa, xm, xb, rfl, ha', hxa, hm', hb', hxb, hps', first, last, hf, hl, hfs,
      hls⟩ := ih hps
    by_cases ht : IsBlankText t
    · -- the text starts behind this piece
      refine ⟨t ++ a', m', b', t ++ xa, xm, xb, by simp, ?_, isBlankText_append.2 ⟨ht, hxa⟩, hm', hb',
        hxb, by simp [hps'], first, last, ?_, ?_, ?_, ?_⟩
      · rw [AllPlain.stripped? (allPlain_of_not_mem (isBlankText_of_not_mem ht) _), ha']
        rfl
      · rw [List.findSome?_cons, trimmedPiece?_eq_none ht, hf]
      · rw [List.reverse_cons, List.findSome?_append, hl]
        rfl
      · rw [hfs, width_append]
        omega
      · rw [hls, width_append]
        omega
    · obtain ⟨a, m, b, rfl, ha, hb, hspan⟩ := exists_trimmedPiece ht n
      rw [allPlain_append] at hplain
      refine ⟨a, m ++ b ++ a' ++ m', b', a, m ++ b ++ xa ++ xm, xb, by simp, ?_, ha, ?_, hb', hxb,
        by simp [hps'], _, last, by rw [List.findSome?_cons, hspan], ?_, rfl, ?_⟩
      · exact (allPlain_append.1 hplain.1).1.stripped?_eq
      · have hmb : AllPlain (m ++ b) (a' ++ m') := by
          have : AllPlain (a ++ (m ++ b)) (a' ++ m' ++ b') := by
            rw [← List.append_assoc]
            exact allPlain_append.2 hplain
          exact (allPlain_append.1 this).2.of_append
        have ham := stripped?_append ha' hm' (.inl (isBlankText_of_not_mem hxa))
        rw [List.append_assoc, hmb.stripped?, ham]
        simp
      · rw [List.reverse_cons, List.findSome?_append, hl]
        rfl
      · rw [hls]
        simp
        omega

end Flow

/-! ## Gaps and texts -/

/-- A run between tags in which there is no text. -/
def IsGap (s : Text) : Prop := ∃ x, stripped? s = some x ∧ IsBlankText (decodeEntities x)

/-- A run between tags that reads as the text `t`. -/
def IsRunOf (t s : Text) : Prop := ∃ x, stripped? s = some x ∧ collapsed? (decodeEntities x) = some t

theorem isGap_of_blank {s : Text} (h : IsBlankText s) : IsGap s :=
  ⟨s, stripped?_of_not_mem (isBlankText_of_not_mem h), by rwa [decodeEntities_of_blank h]⟩

theorem isGap_nil : IsGap [] := isGap_of_blank isBlankText_nil

/-- A run is a gap or a text. -/
theorem isGap_or_isRunOf {s x : Text} (h : stripped? s = some x) : IsGap s ∨ ∃ t, IsRunOf t s := by
  cases hc : collapsed? (decodeEntities x) with
  | none => exact .inl ⟨x, h, collapsed?_eq_none_iff.1 hc⟩
  | some t => exact .inr ⟨t, x, h, hc⟩

theorem IsGap.isSoft {s : Text} (h : IsGap s) : IsSoft s := by
  obtain ⟨x, hx, hb⟩ := h
  cases s with
  | nil => trivial
  | cons c s =>
    by_cases hc : c = '<'
    · exact .inl hc
    obtain ⟨y, -, rfl⟩ := stripped?_cons_eq_some hc hx
    by_cases ha : c = '&'
    · exact .inr (.inl ha)
    · rw [decodeEntities_cons_of_ne ha] at hb
      exact .inr (.inr (isBlankText_cons.1 hb).1)

theorem IsGap.append {s t : Text} (hs : IsGap s) (ht : IsGap t) : IsGap (s ++ t) := by
  obtain ⟨x, hx, hb⟩ := hs
  obtain ⟨y, hy, hb'⟩ := ht
  refine ⟨x ++ y, stripped?_append hx hy (.inl (not_mem_of_blank hb)), ?_⟩
  rw [decodeEntities_append_of_blank hb]
  exact isBlankText_append.2 ⟨hb, hb'⟩

/-- Gaps around a text do not change it. -/
theorem IsRunOf.between {t s a b : Text} (h : IsRunOf t s) (ha : IsGap a) (hb : IsGap b) :
    IsRunOf t (a ++ s ++ b) := by
  obtain ⟨x, hx, ht⟩ := h
  obtain ⟨y, hy, hy'⟩ := ha
  obtain ⟨z, hz, hz'⟩ := hb
  have hax := stripped?_append hy hx (.inl (not_mem_of_blank hy'))
  refine ⟨y ++ x ++ z, stripped?_append hax hz (.inr (IsGap.isSoft ⟨z, hz, hz'⟩)), ?_⟩
  rw [decodeEntities_append_blank _ hz', decodeEntities_append_of_blank hy', collapsed?_blank hy' hz',
    ht]

/-- A text whose words have single spaces between them is read as it was. -/
theorem isRunOf_escapeText {t : Text} (hn : t ≠ []) (ht : Text.collapse t = t) :
    IsRunOf t (escapeText t) :=
  ⟨_, stripped?_of_not_mem (not_mem_escapeText t),
    by rw [decodeEntities_escapeText, collapsed?_of_collapse_eq hn ht]⟩

/-- The bytes recorded for a text bound it, with gaps on both sides. -/
theorem IsRunOf.exists_runSpan {t s : Text} (h : IsRunOf t s) (n : Nat) :
    ∃ a m b, s = a ++ m ++ b ∧ IsGap a ∧ IsRunOf t m ∧ IsGap b ∧
      runSpan (flowPieces n s) = ⟨n + width a, n + width a + width m⟩ := by
  obtain ⟨x, hx, ht⟩ := h
  have hne : ¬ IsBlankText x := fun hb => by
    rw [decodeEntities_of_blank hb, collapsed?_eq_none_iff.2 hb] at ht
    cases ht
  rw [← flatMap_flowPieces hx n] at hne
  obtain ⟨a, m, b, xa, xm, xb, rfl, ha, hxa, hm, hb, hxb, heq, first, last, hf, hl, hfs, hls⟩ :=
    (flow_flowPieces hx n).exists_runSpan hne
  rw [flatMap_flowPieces hx n] at heq
  have hxa' := decodeEntities_of_blank hxa
  have hxb' := decodeEntities_of_blank hxb
  refine ⟨a, m, b, rfl, ⟨xa, ha, hxa'.symm ▸ hxa⟩, ⟨xm, hm, ?_⟩, ⟨xb, hb, hxb'.symm ▸ hxb⟩, ?_⟩
  · rw [heq, decodeEntities_append_blank _ (hxb'.symm ▸ hxb),
      decodeEntities_append_of_blank (hxa'.symm ▸ hxa), hxa', hxb', collapsed?_blank hxa hxb] at ht
    exact ht
  · simp only [runSpan, hf, hl, hfs, hls]

/-- What a run adds to the nodes. -/
theorem runNode?_flowPieces {s x : Text} (hs : stripped? s = some x) (n : Nat) :
    runNode? .html (flowPieces n s) = (collapsed? (decodeEntities x)).map fun t =>
      (.text t, .text (runSpan (flowPieces n s))) := by
  rw [runNode?, flatMap_flowPieces hs]
  rfl

end MarkupSync
