import MarkupSync.Outcome
import MarkupSync.Proofs.Document.Sound

/-!
# Reading records sound places

* `Reader.spans`: what a reader has read, in the order of the source;
* `Reader.IsSound`: a reader whose nodes stand where they are recorded, one behind the other;
* `Reader.IsSound.step`, `Reader.IsSound.steps`: reading keeps it so;
* **`Document.isSound_readWithin`**, `Document.isSound_readRootWithin`: the places of a document that
  was read are sound.
-/

namespace MarkupSync

open Text

variable {flavor : Flavor} {source : Text} {region : Span}

/-! ## Readers -/

/-- The bytes of what is open, up to its content. -/
def Opened.span : Opened → Span
  | element tag => tag.span
  | fragment span => span

/-- The bytes of an open tag hold what was read. -/
def Opened.Stands (flavor : Flavor) (source : Text) : Opened → Prop
  | element tag => tag.Stands flavor source
  | fragment _ => True

namespace Reader

/-- The nodes, last one first, in the order of the source. -/
def nodeSpans (nodes : List (Node × Place)) : List Span := nodes.reverse.map fun x => x.2.outer

/-- What is open and what stands in front of it, in the order of the source. -/
def stackSpans : List (Opened × List (Node × Place)) → List Span
  | [] => []
  | (opened, before) :: stack => stackSpans stack ++ (nodeSpans before ++ [opened.span])

/-- What a reader has read, in the order of the source. -/
def spans (r : Reader) : List Span :=
  stackSpans r.stack ++ (nodeSpans r.nodes ++ r.run.map pieceSpan)

end Reader

open Reader (nodeSpans stackSpans)

namespace OpenTag

variable {t : OpenTag}

/-- Content that is kept as it is written stands behind its open tag. -/
theorem Stands.closing_le (h : t.Stands flavor source) :
    t.closing.stop ≤ (Lexeme.openTag t).stop := by
  simp only [Lexeme.stop]
  split
  · exact Nat.le_refl _
  next content span hraw =>
    obtain ⟨hcontent, hstart⟩ := h.raw content span hraw
    exact hstart ▸ hcontent.le

/-- So does the child that it becomes. -/
theorem Stands.rawChild (h : t.Stands flavor source) (hstart : region.start ≤ t.closing.stop)
    (hstop : (Lexeme.openTag t).stop ≤ region.stop) :
    InOrder t.closing.stop (Lexeme.openTag t).stop (nodeSpans t.rawChild) ∧
      ∀ x ∈ t.rawChild, x.1.StandsAt flavor source region x.2 := by
  have hle := h.closing_le
  unfold OpenTag.rawChild
  cases hraw : t.raw with
  | none => exact ⟨hle, by rintro x ⟨⟩⟩
  | some raw =>
    obtain ⟨content, span⟩ := raw
    obtain ⟨hcontent, hspan⟩ := h.raw content span hraw
    simp only
    split_ifs
    · exact ⟨hle, by rintro x ⟨⟩⟩
    · have hkept := hcontent.trans (holds_trimmedSpan content)
      obtain ⟨hlo, hhi⟩ := hcontent.shift_within (holds_trimmedSpan content)
      have hend : (Lexeme.openTag t).stop = span.stop := by rw [Lexeme.stop, hraw]
      rw [hend] at hstop ⊢
      refine ⟨⟨hspan ▸ hlo, hkept.le, hhi⟩, fun x hx => ?_⟩
      rw [List.mem_singleton.1 hx]
      exact hkept.isRange ⟨Nat.le_trans hstart (hspan ▸ hlo), Nat.le_trans hhi hstop⟩

end OpenTag

namespace Reader

variable (flavor source region) in
/-- What has been read up to byte `n` stands where it is recorded, one behind the other. -/
structure IsSound (n : Nat) (r : Reader) : Prop where
  nodes : ∀ x ∈ r.nodes, x.1.StandsAt flavor source region x.2
  stack : ∀ o ∈ r.stack, o.1.Stands flavor source ∧
    ∀ x ∈ o.2, x.1.StandsAt flavor source region x.2
  run : ∀ piece ∈ r.run, source.Holds (pieceSpan piece) piece.1
  order : InOrder region.start n r.spans
  le : n ≤ region.stop

theorem nodeSpans_cons (x : Node × Place) (nodes : List (Node × Place)) :
    nodeSpans (x :: nodes) = nodeSpans nodes ++ [x.2.outer] := by
  simp [nodeSpans]

variable {r r' : Reader} {n : Nat} {l : Lexeme}

/-- A run that ends leaves its text where it stands. -/
theorem IsSound.flush (h : r.IsSound flavor source region n) :
    (r.flush flavor).IsSound flavor source region n := by
  rw [Reader.flush]
  split_ifs with hrun
  · exact h
  obtain ⟨mid, hstack, horder⟩ := inOrder_append.1 h.order
  obtain ⟨mid', hnodes, hpieces⟩ := inOrder_append.1 horder
  split
  · refine ⟨h.nodes, h.stack, by rintro p ⟨⟩, hstack.append (hnodes.append ?_), h.le⟩
    exact hpieces.le
  next x hx =>
    obtain ⟨content, -, rfl⟩ := Option.map_eq_some_iff.1 hx
    obtain ⟨hspan, hstart, hstop⟩ := runSpan_spec hrun hpieces h.run
    have hrange : source.IsRange region (runSpan r.run) :=
      ⟨⟨Nat.le_trans (hstack.append hnodes).le hspan.1, Nat.le_trans hspan.2.2 h.le⟩, hspan.2.1,
        hstart, hstop⟩
    refine ⟨List.forall_mem_cons.2 ⟨hrange, h.nodes⟩, h.stack, by rintro p ⟨⟩, ?_, h.le⟩
    rw [spans, nodeSpans_cons, List.map_nil, List.append_nil]
    exact hstack.append (hnodes.append hspan)

theorem isSound_of_run {nodes : List (Node × Place)} {stack : List (Opened × List (Node × Place))}
    (hnodes : ∀ x ∈ nodes, x.1.StandsAt flavor source region x.2)
    (hstack : ∀ o ∈ stack, o.1.Stands flavor source ∧
      ∀ x ∈ o.2, x.1.StandsAt flavor source region x.2)
    (horder : InOrder region.start n (stackSpans stack ++ nodeSpans nodes)) (hle : n ≤ region.stop) :
    IsSound flavor source region n ⟨nodes, [], stack⟩ := by
  refine ⟨hnodes, hstack, by rintro p ⟨⟩, ?_, hle⟩
  rw [spans, List.map_nil, List.append_nil]
  exact horder

section Tags

variable {nodes : List (Node × Place)} {stack : List (Opened × List (Node × Place))}

/-- What a reader without a run has read, in the order of the source. -/
theorem IsSound.order_of_run (h : IsSound flavor source region n ⟨nodes, [], stack⟩) :
    InOrder region.start n (stackSpans stack ++ nodeSpans nodes) := by
  have horder := h.order
  rwa [spans, List.map_nil, List.append_nil] at horder

/-- An open tag is a node or is on the stack. -/
theorem IsSound.openTag {t : OpenTag} (h : IsSound flavor source region n ⟨nodes, [], stack⟩)
    (ht : t.Stands flavor source) (hstart : n ≤ t.span.start)
    (hstop : (Lexeme.openTag t).stop ≤ region.stop)
    (hstep : stepTag flavor ⟨nodes, [], stack⟩ (.openTag t) = .ok r') :
    r'.IsSound flavor source region (Lexeme.openTag t).stop := by
  have horder := h.order_of_run
  have hregion : region.start ≤ t.span.start := Nat.le_trans horder.le hstart
  rw [stepTag] at hstep
  split_ifs at hstep
  · cases hstep
    have houter : source.IsRange region t.span :=
      ht.isRange ⟨hregion, Nat.le_trans ht.closing_le hstop⟩
    have helement : (t.element flavor t.closing.stop none []).1.StandsAt flavor source region
        (t.element flavor t.closing.stop none []).2 :=
      ht.standsAt_element houter (Nat.le_refl _) (by rintro x ⟨⟩) (fun _ => ⟨rfl, rfl⟩)
        (by rintro r ⟨⟩)
    refine isSound_of_run (List.forall_mem_cons.2 ⟨helement, h.nodes⟩) h.stack ?_ hstop
    rw [nodeSpans_cons, ← List.append_assoc]
    exact (horder.append (.single hstart houter.le)).mono (Nat.le_refl _) ht.closing_le
  · cases hstep
    obtain ⟨hchild, hraw⟩ := ht.rawChild (Nat.le_trans hregion ht.span_le) hstop
    refine isSound_of_run hraw (List.forall_mem_cons.2 ⟨⟨ht, h.nodes⟩, h.stack⟩) ?_ hstop
    rw [stackSpans, ← List.append_assoc]
    exact (horder.append (.single hstart ht.span_le)).append hchild

/-- A close tag puts the nodes behind its open tag between the two. -/
theorem IsSound.closeTag {t : OpenTag} {before : List (Node × Place)} {span : Span}
    (h : IsSound flavor source region n ⟨nodes, [], (.element t, before) :: stack⟩)
    (hspan : ∃ u, source.Holds span u) (hstart : n ≤ span.start) (hle : span.start ≤ span.stop)
    (hstop : span.stop ≤ region.stop) :
    IsSound flavor source region span.stop
      ⟨t.element flavor span.stop (some ⟨t.closing.stop, span.start⟩) nodes.reverse :: before, [],
        stack⟩ := by
  obtain ⟨⟨ht, hbefore⟩, hstack⟩ := List.forall_mem_cons.1 h.stack
  have ht : t.Stands flavor source := ht
  obtain ⟨u, hu⟩ := hspan
  have horder := h.order_of_run
  rw [stackSpans, ← List.append_assoc, List.append_assoc] at horder
  obtain ⟨mid, hfront, horder⟩ := inOrder_append.1 horder
  obtain ⟨hlo, -, hchildren⟩ := inOrder_cons.1 horder
  have hstart' : t.closing.stop ≤ span.start := Nat.le_trans hchildren.le hstart
  have houter : source.IsRange region ⟨t.nameSpan.start, span.stop⟩ :=
    ⟨⟨Nat.le_trans hfront.le hlo, hstop⟩, Nat.le_trans ht.span_le (Nat.le_trans hstart' hle),
      ht.name.boundary_start, hu.boundary_stop⟩
  have hinner : ∀ r ∈ some (⟨t.closing.stop, span.start⟩ : Span), r.start = t.closing.stop ∧
      r.stop ≤ span.stop ∧ Boundary r.stop source ∧ InOrder r.start r.stop (nodeSpans nodes) := by
    rintro _ ⟨⟩
    exact ⟨rfl, hle, hu.boundary_start, hchildren.mono (Nat.le_refl _) hstart⟩
  have helement := ht.standsAt_element houter (Nat.le_trans hstart' hle)
    (fun x hx => h.nodes x (List.mem_reverse.1 hx)) (by rintro ⟨⟩) hinner
  refine isSound_of_run (List.forall_mem_cons.2 ⟨helement, hbefore⟩) hstack ?_ hstop
  rw [nodeSpans_cons, ← List.append_assoc]
  exact hfront.append (.single hlo houter.le)

end Tags

/-- A lexeme that is no text keeps a reader sound. -/
theorem IsSound.stepTag (h : r.IsSound flavor source region n) (hrun : r.run = [])
    (hl : l.Stands flavor source) (htext : ∀ content span, l ≠ .text content span)
    (hstart : n ≤ l.span.start) (hle : l.span.start ≤ l.span.stop) (hstop : l.span.stop ≤ region.stop)
    (hstep : r.stepTag flavor l = .ok r') : r'.IsSound flavor source region l.span.stop := by
  obtain ⟨nodes, run, stack⟩ := r
  obtain rfl : run = [] := hrun
  have horder := h.order_of_run
  have hregion : region.start ≤ l.span.start := Nat.le_trans horder.le hstart
  cases l with
  | text content span => exact absurd rfl (htext content span)
  | expression content span =>
    cases hstep
    refine isSound_of_run (List.forall_mem_cons.2 ⟨hl.isRange ⟨hregion, hstop⟩, h.nodes⟩) h.stack ?_
      hstop
    rw [nodeSpans_cons, ← List.append_assoc]
    exact horder.append (.single hstart hle)
  | fragmentOpen span =>
    cases hstep
    refine isSound_of_run (by rintro x ⟨⟩) (List.forall_mem_cons.2 ⟨⟨trivial, h.nodes⟩, h.stack⟩) ?_
      hstop
    rw [stackSpans, ← List.append_assoc]
    exact (horder.append (.single hstart hle)).append (Nat.le_refl _)
  | fragmentClose span =>
    match stack, hstep with
    | (.fragment opened, before) :: stack, hstep =>
      cases hstep
      obtain ⟨⟨-, hbefore⟩, hstack⟩ := List.forall_mem_cons.1 h.stack
      refine isSound_of_run (fun x hx => (List.mem_append.1 hx).elim (h.nodes x) (hbefore x)) hstack
        ?_ hstop
      rw [nodeSpans, List.reverse_append, List.map_append]
      refine (horder.mono (Nat.le_refl _) (Nat.le_trans hstart hle)).sublist ?_
      rw [stackSpans, List.append_assoc, List.append_assoc]
      exact .append (.refl _) (.append (.refl _) (List.sublist_append_right _ _))
  | openTag t => exact h.openTag hl hstart hstop hstep
  | closeTag name span =>
    match stack, hstep with
    | (.element t, before) :: stack, hstep =>
      simp only [Reader.stepTag] at hstep
      split_ifs at hstep
      cases hstep
      exact h.closeTag hl hstart hle hstop

/-- A lexeme keeps a reader sound. -/
theorem IsSound.step (h : r.IsSound flavor source region n) (hl : l.Stands flavor source)
    (hstart : n ≤ l.span.start) (hle : l.span.start ≤ l.span.stop) (hstop : l.span.stop ≤ region.stop)
    (hstep : r.step flavor l = .ok r') : r'.IsSound flavor source region l.span.stop := by
  cases l with
  | text content span =>
    cases hstep
    have hpiece : pieceSpan (content, span.start) = span := by
      rw [pieceSpan, ← Text.Holds.stop_eq hl]
    refine ⟨h.nodes, h.stack, List.forall_mem_append.2 ⟨h.run, fun p hp => ?_⟩, ?_, hstop⟩
    · rw [List.mem_singleton.1 hp, hpiece]
      exact hl
    · have := h.order.append (.single hstart hle)
      rw [spans] at this ⊢
      rwa [List.map_append, List.map_singleton, hpiece, ← List.append_assoc (nodeSpans r.nodes),
        ← List.append_assoc]
  | _ => exact h.flush.stepTag (run_flush r) hl (by rintro _ _ ⟨⟩) hstart hle hstop hstep

theorem isSound_start (h : region.start ≤ region.stop) :
    start.IsSound flavor source region region.start :=
  ⟨by rintro x ⟨⟩, by rintro o ⟨⟩, by rintro p ⟨⟩, Nat.le_refl _, h⟩

/-- Lexemes that stand one behind the other keep a reader sound. -/
theorem IsSound.steps {ls : List Lexeme} (h : r.IsSound flavor source region n)
    (horder : InOrder n region.stop (ls.map Lexeme.span))
    (hls : ∀ l ∈ ls, l.Stands flavor source) (hsteps : r.steps flavor ls = .ok r') :
    ∃ k, r'.IsSound flavor source region k := by
  induction ls generalizing r n with
  | nil =>
    cases hsteps
    exact ⟨n, h⟩
  | cons l ls ih =>
    obtain ⟨hstart, hle, horder⟩ := inOrder_cons.1 horder
    obtain ⟨hl, hls⟩ := List.forall_mem_cons.1 hls
    rw [Reader.steps] at hsteps
    cases hstep : r.step flavor l with
    | error e =>
      rw [hstep] at hsteps
      cases hsteps
    | ok r₁ =>
      rw [hstep] at hsteps
      exact ih (h.step hl hstart hle horder.le hstep) horder hls hsteps

/-- Up to where everything is closed, lexemes keep a reader sound. -/
theorem IsSound.untilClosed {ls : List Lexeme} (h : r.IsSound flavor source region n)
    (horder : InOrder n region.stop (ls.map Lexeme.span))
    (hls : ∀ l ∈ ls, l.Stands flavor source) {fault : Option ParseError}
    {nodes : List (Node × Place)} {last : Lexeme}
    (huntil : r.untilClosed flavor fault ls = .ok (nodes, last)) :
    last ∈ ls ∧ ∃ r' : Reader, r'.IsSound flavor source region last.stop ∧
      nodes = r'.nodes.reverse := by
  induction ls generalizing r n with
  | nil => cases huntil
  | cons l ls ih =>
    obtain ⟨hstart, hle, horder⟩ := inOrder_cons.1 horder
    obtain ⟨hl, hls⟩ := List.forall_mem_cons.1 hls
    rw [Reader.untilClosed] at huntil
    split at huntil
    · cases huntil
    next r₁ hstep =>
      have hr₁ := h.step hl hstart hle horder.le hstep
      split_ifs at huntil
      · cases huntil
        exact ⟨List.mem_cons_self, r₁, by rwa [Lexeme.stop_span] at hr₁, rfl⟩
      · obtain ⟨hlast, hrest⟩ := ih hr₁ horder hls huntil
        exact ⟨List.mem_cons_of_mem _ hlast, hrest⟩

/-- A fragment stays open until its close is read. -/
theorem exists_stack_step {top : List (Opened × List (Node × Place))} {span : Span}
    (hstack : r.stack = top ++ [(.fragment span, [])]) (h : r.step flavor l = .ok r') :
    (∃ top', r'.stack = top' ++ [(.fragment span, [])]) ∨
      ∃ stop, l = .fragmentClose stop ∧ (r.flush flavor).stack = [(.fragment span, [])] ∧
        r' = ⟨(r.flush flavor).nodes, [], []⟩ := by
  have hflush : (r.flush flavor).stack = top ++ [(.fragment span, [])] := by
    rw [stack_flush, hstack]
  cases l with
  | text content span =>
    cases h
    exact .inl ⟨top, hstack⟩
  | expression content span =>
    cases h
    exact .inl ⟨top, hflush⟩
  | fragmentOpen opened =>
    cases h
    exact .inl ⟨(.fragment opened, (r.flush flavor).nodes) :: top, congrArg _ hflush⟩
  | openTag t =>
    rw [Reader.step, Reader.stepTag] at h
    · split_ifs at h
      · cases h
        exact .inl ⟨top, hflush⟩
      · cases h
        exact .inl ⟨(.element t, (r.flush flavor).nodes) :: top, congrArg _ hflush⟩
    · rintro _ _ ⟨⟩
  | fragmentClose stop =>
    simp only [Reader.step, Reader.stepTag] at h
    rw [hflush] at h
    cases top with
    | nil =>
      cases h
      refine .inr ⟨stop, rfl, hflush, ?_⟩
      rw [run_flush, List.append_nil]
    | cons o top =>
      obtain ⟨opened, before⟩ := o
      cases opened with
      | element t => cases h
      | fragment _ =>
        cases h
        exact .inl ⟨top, rfl⟩
  | closeTag name stop =>
    simp only [Reader.step, Reader.stepTag] at h
    rw [hflush] at h
    cases top with
    | nil => cases h
    | cons o top =>
      obtain ⟨opened, before⟩ := o
      cases opened with
      | fragment _ => cases h
      | element t =>
        simp only [List.cons_append] at h
        split_ifs at h
        cases h
        exact .inl ⟨top, rfl⟩

/-- The content of a fragment stands between its open and its close. -/
theorem IsSound.untilClosed_fragment {ls : List Lexeme} (h : r.IsSound flavor source region n)
    {top : List (Opened × List (Node × Place))} {span : Span}
    (hstack : r.stack = top ++ [(.fragment span, [])])
    (horder : InOrder n region.stop (ls.map Lexeme.span))
    (hls : ∀ l ∈ ls, l.Stands flavor source) {fault : Option ParseError}
    {nodes : List (Node × Place)} {last : Lexeme}
    (huntil : r.untilClosed flavor fault ls = .ok (nodes, last)) :
    ∃ stop, last = .fragmentClose stop ∧ last ∈ ls ∧
      (∀ x ∈ nodes, x.1.StandsAt flavor source region x.2) ∧
      InOrder span.stop stop.start (nodes.map fun x => x.2.outer) := by
  induction ls generalizing r n top with
  | nil => cases huntil
  | cons l ls ih =>
    obtain ⟨hstart, hle, horder⟩ := inOrder_cons.1 horder
    obtain ⟨hl, hls⟩ := List.forall_mem_cons.1 hls
    rw [Reader.untilClosed] at huntil
    split at huntil
    · cases huntil
    next r₁ hstep =>
      have hr₁ := h.step hl hstart hle horder.le hstep
      obtain ⟨top', htop⟩ | ⟨stop, rfl, hopen, rfl⟩ := exists_stack_step hstack hstep
      · rw [if_neg (by simp [htop])] at huntil
        obtain ⟨stop, hlast, hmem, hrest⟩ := ih hr₁ htop horder hls huntil
        exact ⟨stop, hlast, List.mem_cons_of_mem _ hmem, hrest⟩
      · cases huntil
        refine ⟨stop, rfl, List.mem_cons_self,
          fun x hx => h.flush.nodes x (List.mem_reverse.1 hx), ?_⟩
        have hflush := h.flush.order
        rw [spans, hopen, run_flush, List.map_nil, List.append_nil] at hflush
        obtain ⟨-, -, hnodes⟩ := inOrder_cons.1 hflush
        exact hnodes.mono (Nat.le_refl _) hstart

end Reader

/-! ## Documents -/

theorem Lexeme.Stands.boundary_stop {l : Lexeme} (h : l.Stands flavor source) :
    Boundary l.stop source := by
  cases l with
  | openTag t =>
    have ht : t.Stands flavor source := h
    cases hraw : t.raw with
    | none =>
      obtain ⟨u, hu⟩ := ht.closing
      rw [Lexeme.stop, hraw]
      exact hu.boundary_stop
    | some raw =>
      rw [Lexeme.stop, hraw]
      exact (ht.raw raw.1 raw.2 hraw).1.boundary_stop
  | closeTag =>
    obtain ⟨u, hu⟩ := h
    exact hu.boundary_stop
  | _ => exact Holds.boundary_stop h

namespace Document

/-- Top-level nodes that stand between the ends of a root are sound in it. -/
theorem isSound_ofTopLevel {outer inner : Span} {nodes : List (Node × Place)}
    (hnodes : ∀ x ∈ nodes, x.1.StandsAt flavor source region x.2)
    (houter : source.IsRange region outer) (hinner : source.IsRange region inner)
    (hwithin : inner.Within outer)
    (horder : InOrder inner.start inner.stop (nodes.map fun x => x.2.outer)) :
    (ofTopLevel outer inner nodes).IsSound flavor source region := by
  have hroot : (⟨.root (nodes.map Prod.fst),
      .element ⟨outer, none, outer.start, some inner, []⟩ (nodes.map Prod.snd)⟩ : Document).IsSound
        flavor source region := by
    refine ⟨⟨houter, ?_, by rintro ⟨⟩, by rintro t ⟨⟩, by rintro t ⟨⟩, by rintro t ⟨⟩, ?_,
      fun _ => rfl, by rintro a ⟨⟩, by rintro e ⟨⟩, by rintro ⟨⟩⟩, Node.standAt_iff.2 hnodes⟩
    · rintro _ ⟨⟩
      refine ⟨hinner, hwithin, ?_⟩
      rwa [List.map_map]
    · exact ⟨⟨houter.within.1, Nat.le_trans houter.le houter.within.2⟩, Nat.le_refl _, houter.start,
        houter.start⟩
  rw [ofTopLevel.eq_def]
  split
  · exact hnodes _ List.mem_cons_self
  · exact hroot

/-- The places of a document that was read from the text in `region` are sound. -/
theorem isSound_readAt {s : Text} (hs : source.Holds region s) {d : Document}
    (h : readAt flavor region.start s = .ok d) : d.IsSound flavor source region := by
  obtain ⟨horder, hls⟩ := stands_scan flavor hs
  have hregion : (⟨region.start, region.start + width s⟩ : Span) = region := by rw [← hs.stop_eq]
  rw [readAt] at h
  simp only [hregion] at h
  obtain ⟨nodes, hnodes, rfl⟩ := exists_of_map_eq_ok h
  have hsound : Reader.start.IsSound flavor source region region.start := Reader.isSound_start hs.le
  have hrange : source.IsRange region region := hs.isRange ⟨Nat.le_refl _, Nat.le_refl _⟩
  rw [Scan.nodes] at hnodes
  split at hnodes
  · cases hnodes
  next r hsteps =>
    obtain ⟨k, hr⟩ := hsound.steps horder hls hsteps
    split at hnodes
    · cases hnodes
    · rw [Reader.finish] at hnodes
      split at hnodes
      · cases hnodes
      next hstack =>
        cases hnodes
        have hflush := hr.flush
        have horder := hflush.order
        rw [Reader.spans, Reader.stack_flush, Reader.run_flush, hstack, List.map_nil,
          List.append_nil] at horder
        exact isSound_ofTopLevel (fun x hx => hflush.nodes x (List.mem_reverse.1 hx)) hrange hrange
          ⟨Nat.le_refl _, Nat.le_refl _⟩ (horder.mono (Nat.le_refl _) hr.le)

/-- **The places of a document that was read are sound**: they have the shape of the tree, lie in
one another and in the region, and the attributes of the tree stand where they are recorded. -/
theorem isSound_readWithin {d : Document} (hle : region.start ≤ region.stop)
    (hstart : Boundary region.start source) (hstop : Boundary region.stop source)
    (h : readWithin flavor region source = .ok d) : d.IsSound flavor source region := by
  obtain ⟨s, hs⟩ := exists_holds hle hstart hstop
  rw [readWithin, hs.at_eq] at h
  exact isSound_readAt hs h

/-- A part of a text with a comment in a text and an attribute that stands there twice. -/
theorem isSound_readWithin_paragraph :
    let source := "é<p id=a id='b'>x<!-- -->y</p>é".toList
    let region : Span := ⟨2, 31⟩
    region.start ≤ region.stop ∧ Boundary region.start source ∧ Boundary region.stop source ∧
      ∃ d, readWithin .html region source = .ok d ∧ d.IsSound .html source region := by
  intro source region
  have hle : region.start ≤ region.stop := by decide
  have hstart : Boundary region.start source := isBoundary_iff.1 (by decide)
  have hstop : Boundary region.stop source := isBoundary_iff.1 (by decide)
  obtain ⟨d, hd⟩ := Option.isSome_iff_exists.1
    (show (readWithin .html region source).toOption.isSome = true by decide +kernel)
  exact ⟨hle, hstart, hstop, d, eq_ok_of_toOption hd,
    isSound_readWithin hle hstart hstop (eq_ok_of_toOption hd)⟩

/-- The places of a document of a whole text are sound. -/
theorem isSound_read {d : Document} (h : read flavor source = .ok d) :
    d.IsSound flavor source ⟨0, width source⟩ :=
  isSound_readAt (.self source) h

/-- Top-level nodes stand in the root. -/
theorem within_ofTopLevel (outer inner : Span) {nodes : List (Node × Place)}
    (hwithin : inner.Within outer)
    (horder : InOrder inner.start inner.stop (nodes.map fun x => x.2.outer)) :
    (ofTopLevel outer inner nodes).place.outer.Within outer := by
  rw [ofTopLevel.eq_def]
  split
  · obtain ⟨hstart, -, hstop⟩ := horder.of_mem List.mem_cons_self
    exact ⟨Nat.le_trans hwithin.1 hstart, Nat.le_trans hstop hwithin.2⟩
  · exact ⟨Nat.le_refl _, Nat.le_refl _⟩

/-- The places of a document that a part of a text starts with are sound, and lie in what was
read. -/
theorem isSound_and_within_readRootWithin {d : Document} {stop : Nat}
    (hle : region.start ≤ region.stop) (hstart : Boundary region.start source)
    (hstop : Boundary region.stop source)
    (h : readRootWithin flavor region source = .ok (d, stop)) : d.IsSound flavor source region ∧
      source.IsRange region ⟨region.start, stop⟩ ∧ d.place.outer.Within ⟨region.start, stop⟩ := by
  obtain ⟨s, hs⟩ := exists_holds hle hstart hstop
  obtain ⟨horder, hls⟩ := stands_scan flavor hs
  have hsound : Reader.start.IsSound flavor source region region.start := Reader.isSound_start hle
  rw [readRootWithin, hs.at_eq] at h
  simp only [readRootAt] at h
  split at h
  · cases h
  next first ls hlexemes =>
    split at h
    · -- an element
      obtain ⟨⟨nodes, last⟩, huntil, h⟩ := exists_of_map_eq_ok h
      cases h
      obtain ⟨hmem, r, hr, rfl⟩ := hsound.untilClosed horder hls huntil
      have hrange : source.IsRange region ⟨region.start, last.stop⟩ :=
        ⟨⟨Nat.le_refl _, hr.le⟩, hr.order.le, hstart, (hls last hmem).boundary_stop⟩
      have horder : InOrder region.start last.stop (nodeSpans r.nodes) :=
        hr.order.sublist ((List.sublist_append_left _ _).trans (List.sublist_append_right _ _))
      exact ⟨isSound_ofTopLevel (fun x hx => hr.nodes x (List.mem_reverse.1 hx)) hrange hrange
        ⟨Nat.le_refl _, Nat.le_refl _⟩ horder, hrange,
        within_ofTopLevel _ _ ⟨Nat.le_refl _, Nat.le_refl _⟩ horder⟩
    · -- a fragment
      next span =>
      obtain ⟨⟨nodes, last⟩, huntil, h⟩ := exists_of_map_eq_ok h
      cases h
      rw [hlexemes] at huntil horder hls
      obtain ⟨hlo, hspan, horder⟩ := inOrder_cons.1 horder
      obtain ⟨hopen, hls⟩ := List.forall_mem_cons.1 hls
      have hopened := hsound.step hopen hlo hspan horder.le rfl
      obtain ⟨close, rfl, hmem, hnodes, hin⟩ :=
        hopened.untilClosed_fragment (List.nil_append _).symm horder hls huntil
      have hopen : source.Holds span ['<', '>'] := hopen
      have hclose : source.Holds close ['<', '/', '>'] := hls _ hmem
      obtain ⟨-, hlast, hhi⟩ := horder.of_mem (List.mem_map_of_mem hmem)
      have hstop : close.stop - fragmentCloseWidth = close.start := by
        rw [hclose.stop_eq]
        exact Nat.add_sub_cancel close.start fragmentCloseWidth
      have houter : source.IsRange region ⟨span.start, close.stop⟩ :=
        ⟨⟨hlo, hhi⟩, Nat.le_trans hspan (Nat.le_trans hin.le hlast), hopen.boundary_start,
          hclose.boundary_stop⟩
      have hinner : source.IsRange region ⟨span.stop, close.start⟩ :=
        ⟨⟨Nat.le_trans hlo hspan, Nat.le_trans hlast hhi⟩, hin.le, hopen.boundary_stop,
          hclose.boundary_start⟩
      simp only [Lexeme.stop, hstop]
      obtain ⟨h1, h2⟩ := within_ofTopLevel ⟨span.start, close.stop⟩ ⟨span.stop, close.start⟩
        ⟨hspan, hlast⟩ hin
      exact ⟨isSound_ofTopLevel hnodes houter hinner ⟨hspan, hlast⟩ hin,
        ⟨⟨Nat.le_refl _, hhi⟩, Nat.le_trans hlo houter.le, hstart, houter.stop⟩,
        Nat.le_trans hlo h1, h2⟩
    · cases h

/-- The places of a document that a part of a text starts with are sound. -/
theorem isSound_readRootWithin {d : Document} {stop : Nat} (hle : region.start ≤ region.stop)
    (hstart : Boundary region.start source) (hstop : Boundary region.stop source)
    (h : readRootWithin flavor region source = .ok (d, stop)) : d.IsSound flavor source region :=
  (isSound_and_within_readRootWithin hle hstart hstop h).1

end Document

end MarkupSync
