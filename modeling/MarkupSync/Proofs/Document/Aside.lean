import MarkupSync.Proofs.Document.Flow
import MarkupSync.Proofs.Document.Spans

/-!
# Comments, declarations and processing instructions

They are read and leave no trace in a document.

* `asides`: their bytes in a text (`asides_spec`: they stand between the lexemes);
* `Place.IsClearOf`: every node of a place holds a range or avoids it, and holds it in its content;
* **`Document.isClearOf_readAt`**: so does every node of a document that was read, for what left no
  trace in it.
-/

namespace MarkupSync

open Text

/-- Two ranges share no byte. They may touch. -/
def Span.Avoids (a b : Span) : Prop := a.stop ≤ b.start ∨ b.stop ≤ a.start

/-- The bytes of the comments, declarations and processing instructions of a text that starts at byte
`start`, up to its end or to the first fault. -/
def asides (flavor : Flavor) (start : Nat) (s : Text) : List Span :=
  match _hs : contentHead flavor s with
  | .error _ => []
  | .ok none => []
  | .ok (some (.skipped piece rest)) =>
    let stop := start + width piece
    ⟨start, stop⟩ :: asides flavor stop rest
  | .ok (some (.openTag name _ rest)) =>
    match _ht : openTag flavor start name rest with
    | .error _ => []
    | .ok (_, stop, rest) => asides flavor stop rest
  | .ok (some (.closeTag _ piece rest)) => asides flavor (start + width piece) rest
  | .ok (some (.fragmentOpen piece rest)) => asides flavor (start + width piece) rest
  | .ok (some (.fragmentClose piece rest)) => asides flavor (start + width piece) rest
  | .ok (some (.expression piece rest)) => asides flavor (start + width piece) rest
  | .ok (some (.plain piece rest)) =>
    let run := textRun flavor rest
    asides flavor (start + width (piece ++ run.1)) run.2
termination_by s.length
decreasing_by
  all_goals have := length_of_contentHead _hs
  all_goals simp only [ContentHead.rest] at this
  case _ => exact this
  case _ => exact Nat.lt_trans (length_of_openTag _ht) this
  case _ => exact this
  case _ => exact this
  case _ => exact this
  case _ => exact this
  case _ =>
    have := congrArg List.length (textRun_append flavor rest)
    rw [List.length_append] at this
    omega

variable {flavor : Flavor} {source s : Text} {region q r : Span} {n k : Nat}

/-- What stands in a text and is no lexeme of it. -/
structure Scan.AreBetween (source : Text) (n k : Nat) (qs : List Span) (scan : Scan) : Prop where
  order : InOrder n k qs
  range : ∀ q ∈ qs, q.start < q.stop ∧ source.IsRange ⟨0, width source⟩ q
  avoids : ∀ q ∈ qs, ∀ l ∈ scan.lexemes, q.Avoids l.span

/-- It stands behind the first lexeme as well. -/
theorem Scan.AreBetween.cons {qs : List Span} {scan : Scan} {l : Lexeme} {stop : Nat}
    (h : scan.AreBetween source stop k qs) (hl : l.span = ⟨n, stop⟩) (hle : n ≤ stop) :
    (scan.cons l).AreBetween source n k qs := by
  refine ⟨h.order.mono hle (Nat.le_refl _), h.range, fun q hq l' hl' => ?_⟩
  obtain rfl | hl' := List.mem_cons.1 hl'
  · exact .inr (by rw [hl]; exact (h.order.of_mem hq).1)
  · exact h.avoids q hq l' hl'

/-- **What leaves no trace stands between the lexemes**, one behind the other. -/
theorem areBetween_asides (flavor : Flavor) (hs : source.Holds ⟨n, k⟩ s) :
    (scan flavor n s).AreBetween source n k (asides flavor n s) := by
  have split {n : Nat} {s : Text} {c : ContentHead} (hs : source.Holds ⟨n, k⟩ s)
      (hc : contentHead flavor s = .ok (some c)) :
      source.Holds ⟨n, n + width c.piece⟩ c.piece ∧ source.Holds ⟨n + width c.piece, k⟩ c.rest := by
    rw [(eq_of_contentHead hc).1] at hs
    exact ⟨hs.left, hs.right⟩
  fun_induction asides flavor n s with
  | case1 | case2 | case4 => exact ⟨hs.le, nofun, nofun⟩
  | case3 n s p r hc stop ih =>
    obtain ⟨hp, hr⟩ := split hs hc
    have ih := ih hr
    have hlt : n < stop := Nat.lt_add_of_pos_right (Nat.pos_of_ne_zero
      (mt width_eq_zero.1 (eq_of_contentHead hc).2))
    rw [scan_skipped hc]
    refine ⟨⟨Nat.le_refl _, Nat.le_of_lt hlt, ih.order⟩, List.forall_mem_cons.2 ⟨⟨hlt, ?_⟩, ih.range⟩,
      List.forall_mem_cons.2 ⟨fun l hl => ?_, ih.avoids⟩⟩
    · exact hp.isRange ⟨Nat.zero_le _, hp.stop_le⟩
    · exact .inl ((stands_scan flavor hr).1.of_mem (List.mem_map_of_mem hl)).1
  | case5 n s name p r hc t stop rest ht ih =>
    obtain ⟨rfl, -⟩ := name_of_contentHead hc
    rw [(eq_of_contentHead hc).1] at hs
    obtain ⟨-, hspan, hle, hrest⟩ := stands_of_openTag ht hs
    rw [scan_openTag hc ht]
    exact (ih hrest).cons hspan hle
  | case6 n s name p r hc ih =>
    rw [scan_closeTag hc]
    exact (ih (split hs hc).2).cons rfl (Nat.le_add_right _ _)
  | case7 n s p r hc ih =>
    rw [scan_fragmentOpen hc]
    exact (ih (split hs hc).2).cons rfl (Nat.le_add_right _ _)
  | case8 n s p r hc ih =>
    rw [scan_fragmentClose hc]
    exact (ih (split hs hc).2).cons rfl (Nat.le_add_right _ _)
  | case9 n s p r hc ih =>
    rw [scan_expression hc]
    exact (ih (split hs hc).2).cons rfl (Nat.le_add_right _ _)
  | case10 n s p r hc run ih =>
    have hcontent : s = (p ++ run.1) ++ run.2 := by
      rw [(eq_of_contentHead hc).1, List.append_assoc, textRun_append]
      rfl
    rw [scan_plain hc]
    refine (ih ?_).cons rfl (Nat.le_add_right _ _)
    rw [hcontent] at hs
    exact hs.right

/-! ## Documents -/

/-- No end of a node lies within a range: a node holds the range, and then in its content, or
avoids it. -/
inductive Place.IsClearOf (q : Span) : Place → Prop
  | text {r : Span} (h : q.Within r ∨ q.Avoids r) : IsClearOf q (.text r)
  | element {e : ElementPlace} {places : List Place} (outer : q.Within e.outer ∨ q.Avoids e.outer)
    (closed : e.inner = none → q.Avoids e.outer)
    (inner : ∀ r ∈ e.inner, q.Within e.outer → q.Within r)
    (children : ∀ p ∈ places, IsClearOf q p) : IsClearOf q (.element e places)

/-- A range that avoids what a node starts with and what it ends with avoids its ends. -/
theorem Span.within_or_avoids {a b outer : Span} (ha : q.Avoids a) (hb : q.Avoids b)
    (hstart : a.start ≤ outer.start ∧ outer.start ≤ a.stop)
    (hstop : b.start ≤ outer.stop ∧ outer.stop ≤ b.stop) : q.Within outer ∨ q.Avoids outer := by
  simp only [Span.Avoids, Span.Within] at *
  omega

/-- Between the ends of two ranges that it avoids. -/
theorem Span.Avoids.within_between {a b : Span} (ha : q.Avoids a) (hb : q.Avoids b)
    (hq : q.start < q.stop) (h : q.Within ⟨a.start, b.stop⟩) : q.Within ⟨a.stop, b.start⟩ := by
  simp only [Span.Avoids, Span.Within] at *
  omega

theorem Span.Avoids.mono (h : q.Avoids r) {r' : Span} (hr : r'.Within r) : q.Avoids r' := by
  simp only [Span.Avoids, Span.Within] at *
  omega

/-- The text of a run starts in one of its pieces and ends in one. -/
theorem exists_of_runSpan {pieces : List (Text × Nat)} (hne : pieces ≠ [])
    (h : ∀ piece ∈ pieces, source.Holds (pieceSpan piece) piece.1) :
    ∃ a ∈ pieces, ∃ b ∈ pieces,
      ((pieceSpan a).start ≤ (runSpan pieces).start ∧ (runSpan pieces).start ≤ (pieceSpan a).stop) ∧
      ((pieceSpan b).start ≤ (runSpan pieces).stop ∧ (runSpan pieces).stop ≤ (pieceSpan b).stop) := by
  unfold runSpan
  split
  next first last hfirst hlast =>
    obtain ⟨a, ha, hfirst⟩ := List.exists_of_findSome?_eq_some hfirst
    obtain ⟨b, hb, hlast⟩ := List.exists_of_findSome?_eq_some hlast
    have hb := List.mem_reverse.1 hb
    obtain ⟨⟨ha1, ha2⟩, t, ht⟩ := trimmedPiece?_spec (h a ha) hfirst
    obtain ⟨⟨hb1, hb2⟩, u, hu⟩ := trimmedPiece?_spec (h b hb) hlast
    exact ⟨a, ha, b, hb, ⟨ha1, Nat.le_trans ht.le ha2⟩, Nat.le_trans hb1 hu.le, hb2⟩
  next =>
    match pieces, hne with
    | (piece, start) :: pieces, _ =>
      exact ⟨_, List.mem_cons_self, _, List.mem_cons_self, ⟨Nat.le_refl _, Nat.le_add_right _ _⟩,
        Nat.le_add_right _ _, Nat.le_refl _⟩

namespace Reader

/-- A range lies between what a reader has read. -/
structure IsClearOf (q : Span) (r : Reader) : Prop where
  nodes : ∀ x ∈ r.nodes, x.2.IsClearOf q
  stack : ∀ o ∈ r.stack, q.Avoids o.1.span ∧ ∀ x ∈ o.2, x.2.IsClearOf q
  run : ∀ piece ∈ r.run, q.Avoids (pieceSpan piece)

variable {reader reader' : Reader} {l : Lexeme}

theorem IsClearOf.flush (h : reader.IsClearOf q) (hr : reader.IsSound flavor source region n) :
    (reader.flush flavor).IsClearOf q := by
  rw [Reader.flush]
  split_ifs with hrun
  · exact h
  split
  · exact ⟨h.nodes, h.stack, List.forall_mem_nil _⟩
  next x hx =>
    obtain ⟨content, -, rfl⟩ := Option.map_eq_some_iff.1 hx
    obtain ⟨a, ha, b, hb, hstart, hstop⟩ := exists_of_runSpan hrun hr.run
    exact ⟨List.forall_mem_cons.2
      ⟨.text (Span.within_or_avoids (h.run a ha) (h.run b hb) hstart hstop), h.nodes⟩, h.stack,
      List.forall_mem_nil _⟩

/-- A lexeme that is no text. -/
theorem IsClearOf.stepTag (h : reader.IsClearOf q) (hq : q.start < q.stop)
    (hr : reader.IsSound flavor source region n) (hrun : reader.run = [])
    (hl : l.Stands flavor source) (havoids : q.Avoids l.span)
    (hle : l.span.start ≤ l.span.stop) (htext : ∀ content span, l ≠ .text content span)
    (hstep : reader.stepTag flavor l = .ok reader') : reader'.IsClearOf q := by
  obtain ⟨nodes, run, stack⟩ := reader
  obtain rfl : run = [] := hrun
  cases l with
  | text content span => exact absurd rfl (htext content span)
  | expression content span =>
    cases hstep
    exact ⟨List.forall_mem_cons.2 ⟨.text (.inr havoids), h.nodes⟩, h.stack, List.forall_mem_nil _⟩
  | fragmentOpen span =>
    cases hstep
    exact ⟨List.forall_mem_nil _, List.forall_mem_cons.2 ⟨⟨havoids, h.nodes⟩, h.stack⟩,
      List.forall_mem_nil _⟩
  | fragmentClose span =>
    -- only an open fragment comes to its end here
    obtain _ | ⟨⟨_ | opened, before⟩, stack⟩ := stack <;> cases hstep
    obtain ⟨⟨-, hbefore⟩, hstack⟩ := List.forall_mem_cons.1 h.stack
    exact ⟨List.forall_mem_append.2 ⟨h.nodes, hbefore⟩, hstack, List.forall_mem_nil _⟩
  | openTag t =>
    have ht : t.Stands flavor source := hl
    have hspan : q.Avoids t.span := havoids.mono ⟨Nat.le_refl _, ht.closing_le⟩
    rw [Reader.stepTag] at hstep
    split_ifs at hstep
    · cases hstep
      refine ⟨List.forall_mem_cons.2 ⟨.element (.inr hspan) (fun _ => hspan) ?_
        (List.forall_mem_nil _), h.nodes⟩, h.stack, List.forall_mem_nil _⟩
      rintro _ ⟨⟩
    · cases hstep
      refine ⟨fun x hx => ?_, List.forall_mem_cons.2 ⟨⟨hspan, h.nodes⟩, h.stack⟩,
        List.forall_mem_nil _⟩
      -- the content of the element lies in the lexeme
      have hlexeme : (⟨t.closing.stop, (Lexeme.openTag t).stop⟩ : Span).Within
          ⟨t.closing.stop, (Lexeme.openTag t).stop⟩ := ⟨Nat.le_refl _, Nat.le_refl _⟩
      obtain ⟨horder, -⟩ := ht.rawChild hlexeme.1 hlexeme.2
      obtain ⟨hlo, -, hhi⟩ := horder.of_mem
        (List.mem_map_of_mem (f := fun x => x.2.outer) (List.mem_reverse.2 hx))
      have hx' : q.Avoids x.2.outer := havoids.mono ⟨Nat.le_trans ht.span_le hlo, hhi⟩
      simp only [OpenTag.rawChild] at hx
      split at hx
      · cases hx
      · split_ifs at hx
        · cases hx
        · rw [List.mem_singleton.1 hx] at hx' ⊢
          exact .text (.inr hx')
  | closeTag name span =>
    obtain _ | ⟨⟨t | _, before⟩, stack⟩ := stack
    · cases hstep
    · simp only [Reader.stepTag] at hstep
      split_ifs at hstep
      cases hstep
      obtain ⟨⟨hopen, hbefore⟩, hstack⟩ := List.forall_mem_cons.1 h.stack
      have ht : t.Stands flavor source := (hr.stack _ List.mem_cons_self).1
      have hspan : t.nameSpan.start ≤ t.closing.stop := ht.span_le
      refine ⟨List.forall_mem_cons.2 ⟨.element ?_ ?_ ?_ ?_, hbefore⟩, hstack, List.forall_mem_nil _⟩
      · exact Span.within_or_avoids hopen havoids ⟨Nat.le_refl _, hspan⟩ ⟨hle, Nat.le_refl _⟩
      · rintro ⟨⟩
      · rintro _ ⟨⟩
        exact hopen.within_between havoids hq
      · intro p hp
        obtain ⟨x, hx, rfl⟩ := List.mem_map.1 hp
        exact h.nodes x (List.mem_reverse.1 hx)
    · cases hstep

theorem IsClearOf.step (h : reader.IsClearOf q) (hq : q.start < q.stop)
    (hr : reader.IsSound flavor source region n) (hl : l.Stands flavor source)
    (havoids : q.Avoids l.span) (hle : l.span.start ≤ l.span.stop)
    (hstep : reader.step flavor l = .ok reader') : reader'.IsClearOf q := by
  cases l with
  | text content span =>
    cases hstep
    have hpiece : pieceSpan (content, span.start) = span := by
      rw [pieceSpan, ← Text.Holds.stop_eq hl]
    refine ⟨h.nodes, h.stack, List.forall_mem_append.2 ⟨h.run, List.forall_mem_singleton.2 ?_⟩⟩
    rw [hpiece]
    exact havoids
  | _ =>
    refine (h.flush hr).stepTag hq hr.flush (run_flush reader) hl havoids hle ?_ hstep
    rintro _ _ ⟨⟩

theorem IsClearOf.steps {ls : List Lexeme} (h : reader.IsClearOf q) (hq : q.start < q.stop)
    (hr : reader.IsSound flavor source region n)
    (horder : InOrder n region.stop (ls.map Lexeme.span)) (hls : ∀ l ∈ ls, l.Stands flavor source)
    (havoids : ∀ l ∈ ls, q.Avoids l.span) (hsteps : reader.steps flavor ls = .ok reader') :
    reader'.IsClearOf q := by
  induction ls generalizing reader n with
  | nil =>
    cases hsteps
    exact h
  | cons l ls ih =>
    obtain ⟨hstart, hle, horder⟩ := inOrder_cons.1 horder
    obtain ⟨hl, hls⟩ := List.forall_mem_cons.1 hls
    obtain ⟨hlq, havoids⟩ := List.forall_mem_cons.1 havoids
    rw [Reader.steps] at hsteps
    split at hsteps
    · cases hsteps
    next r₁ hstep =>
      exact ih (h.step hq hr hl hlq hle hstep) (hr.step hl hstart hle horder.le hstep) horder hls
        havoids hsteps

end Reader

namespace Document

/-- **What leaves no trace in a document** lies in the content of its nodes, or beside them. -/
theorem isClearOf_readAt (hs : source.Holds region s) {d : Document}
    (h : readAt flavor region.start s = .ok d) (hq : q ∈ asides flavor region.start s) :
    d.place.IsClearOf q := by
  obtain ⟨horder, hls⟩ := stands_scan flavor hs
  have hbetween := areBetween_asides flavor hs
  have hlt := (hbetween.range q hq).1
  rw [readAt] at h
  obtain ⟨nodes, hnodes, rfl⟩ := exists_of_map_eq_ok h
  have hregion : (⟨region.start, region.start + width s⟩ : Span) = region := by rw [← hs.stop_eq]
  have hsound : Reader.start.IsSound flavor source region region.start := Reader.isSound_start hs.le
  have hclear : Reader.start.IsClearOf q :=
    ⟨List.forall_mem_nil _, List.forall_mem_nil _, List.forall_mem_nil _⟩
  have hall : ∀ x ∈ nodes, x.2.IsClearOf q := by
    rw [Scan.nodes] at hnodes
    split at hnodes
    · cases hnodes
    next r hsteps =>
      obtain ⟨k, hr⟩ := hsound.steps horder hls hsteps
      have hclear := (hclear.steps hlt hsound horder hls (hbetween.avoids q hq) hsteps).flush hr
      split at hnodes
      · cases hnodes
      · rw [Reader.finish] at hnodes
        split at hnodes
        · cases hnodes
        · cases hnodes
          exact fun x hx => hclear.nodes x (List.mem_reverse.1 hx)
  rw [ofTopLevel.eq_def]
  split
  · exact hall _ List.mem_cons_self
  · have hwithin : q.Within region := by
      obtain ⟨hlo, -, hhi⟩ := hbetween.order.of_mem hq
      exact ⟨hlo, hhi⟩
    rw [hregion]
    refine .element (.inl hwithin) ?_ ?_ fun p hp => ?_
    · rintro ⟨⟩
    · rintro _ ⟨⟩
      exact fun _ => hwithin
    · obtain ⟨x, hx, rfl⟩ := List.mem_map.1 hp
      exact hall x hx

end Document

end MarkupSync
