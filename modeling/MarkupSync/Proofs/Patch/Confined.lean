import MarkupSync.Proofs.Patch.Children
import MarkupSync.Proofs.Patch.Origin

/-!
# Splices that stay in their place

* `Splice.AreConfined`: splices one behind the other in a range, between characters
  (`AreConfined.exists_applyAll`: they can always be applied);
* `Patcher.confined_tagSplices`: the changes in an open tag stay in it;
* `Patcher.isRange_arrangement`: new children are put where the old ones are.
-/

namespace MarkupSync

open Text

/-- What stands in a range is replaced. -/
theorem Rewrites.of_holds {source s : Text} {r : Span} (h : source.Holds r s) (t : Text) :
    Rewrites r.start s [⟨r, t⟩] t := by
  have hr : r = ⟨r.start, r.start + width s⟩ := by rw [← h.stop_eq]
  rw [hr]
  exact .single _ _ _

/-- A range that is written anew has the rest of the text around it. -/
theorem Text.Holds.applyAll {source x y : Text} {r : Span} {es : List Splice} (hx : source.Holds r x)
    (hrw : Rewrites r.start x es y) :
    Splice.applyAll es source = .ok (before r.start source ++ (y ++ after r.stop source)) := by
  obtain ⟨a, b, rfl, rfl⟩ := hx
  have hbefore : before (width a) (a ++ x ++ b) = a := by
    rw [List.append_assoc, before_width_append]
  have hafter : after (width a + width x) (a ++ x ++ b) = b := by
    rw [← width_append, after_width_append]
  rw [hbefore, hafter, ← List.append_assoc]
  exact (Rewrites.between (n := 0) a b (by rwa [Nat.zero_add])).applyAll

/-! ## Confined splices -/

/-- Splices stand one behind the other from byte `lo` to byte `hi`, between characters. -/
structure Splice.AreConfined (source : Text) (lo hi : Nat) (es : List Splice) : Prop where
  order : InOrder lo hi (es.map Splice.span)
  start : ∀ e ∈ es, Boundary e.span.start source
  stop : ∀ e ∈ es, Boundary e.span.stop source

namespace Splice.AreConfined

variable {source s : Text} {lo mid hi lo' hi' : Nat} {es fs : List Splice} {r : Span}

theorem nil (h : lo ≤ hi) : AreConfined source lo hi [] := ⟨h, nofun, nofun⟩

theorem single (h : source.IsRange ⟨lo, hi⟩ r) (t : Text) : AreConfined source lo hi [⟨r, t⟩] :=
  ⟨⟨h.within.1, h.le, h.within.2⟩, List.forall_mem_singleton.2 h.start,
    List.forall_mem_singleton.2 h.stop⟩

theorem mono (h : AreConfined source lo hi es) (hlo : lo' ≤ lo) (hhi : hi ≤ hi') :
    AreConfined source lo' hi' es := ⟨h.order.mono hlo hhi, h.start, h.stop⟩

theorem append (h : AreConfined source lo mid es) (h' : AreConfined source mid hi fs) :
    AreConfined source lo hi (es ++ fs) := by
  refine ⟨?_, List.forall_mem_append.2 ⟨h.start, h'.start⟩,
    List.forall_mem_append.2 ⟨h.stop, h'.stop⟩⟩
  rw [List.map_append]
  exact h.order.append h'.order

theorem isRange (h : AreConfined source lo hi es) : ∀ e ∈ es, source.IsRange ⟨lo, hi⟩ e.span := by
  intro e he
  obtain ⟨hlo, hle, hhi⟩ := h.order.of_mem (List.mem_map_of_mem he)
  exact ⟨⟨hlo, hhi⟩, hle, h.start e he, h.stop e he⟩

/-- They rewrite what stands in the range. -/
theorem exists_rewrites (h : AreConfined source lo hi es) (hs : source.Holds ⟨lo, hi⟩ s) :
    ∃ t, Rewrites lo s es t := by
  induction es generalizing lo s with
  | nil => exact ⟨s, .refl lo s⟩
  | cons e es ih =>
    obtain ⟨⟨start, stop⟩, text⟩ := e
    obtain ⟨hlo, hle, hrest⟩ := inOrder_cons.1 h.order
    obtain ⟨hstart, hstarts⟩ := List.forall_mem_cons.1 h.start
    obtain ⟨hstop, hstops⟩ := List.forall_mem_cons.1 h.stop
    obtain ⟨a, b, c, habc, ha, hb, hc⟩ :=
      hs.exists_split (q := ⟨start, stop⟩) ⟨⟨hlo, hrest.le⟩, hle, hstart, hstop⟩
    obtain ⟨t, ht⟩ := ih ⟨hrest, hstarts, hstops⟩ hc
    obtain rfl : start = lo + width a := ha.stop_eq
    obtain rfl : stop = lo + width a + width b := hb.stop_eq
    rw [habc]
    exact ⟨_, .keep a (.replace b text ht)⟩

/-- Splices that rewrite what stands in a range are confined to it. -/
theorem of_rewrites {n : Nat} {t : Text} (h : Rewrites n s es t) (hs : source.Holds ⟨n, hi⟩ s) :
    AreConfined source n hi es := by
  induction h with
  | nil => exact .nil hs.le
  | keep a _ ih => exact (ih hs.right).mono (Nat.le_add_right _ _) (Nat.le_refl _)
  | @replace n a b s t es _ ih =>
    have ha : source.IsRange ⟨n, n + width a⟩ ⟨n, n + width a⟩ :=
      hs.left.isRange ⟨Nat.le_refl _, Nat.le_refl _⟩
    exact (single ha b).append (ih hs.right)

/-- **Confined splices can be applied.** -/
theorem exists_applyAll (h : AreConfined source lo hi es) (hhi : hi ≤ width source) :
    ∃ t, Splice.applyAll es source = .ok t := by
  obtain ⟨t, ht⟩ := (h.mono (Nat.zero_le _) hhi).exists_rewrites (.self source)
  exact ⟨t, ht.applyAll⟩

end Splice.AreConfined

open Splice (AreConfined)

/-! ## Open tags -/

/-- No blank stands in front of byte `n`. -/
structure Text.IsInkAt (source : Text) (n : Nat) : Prop where
  boundary : Boundary n source
  ink : EndsInk (before n source)

theorem AttrPlace.IsSound.isInkAt_stop {source : Text} {region : Span} {a : AttrPlace}
    (ha : a.IsSound source region) :
    IsInkAt source a.span.stop := by
  obtain ⟨t, p, q, rfl, hspan⟩ := ha.span.exists_holds
  refine ⟨ha.span.stop, ?_⟩
  have hat := ha.ink
  have hholds : (p ++ t ++ q).Holds a.span t := ⟨p, q, rfl, hspan⟩
  rw [hholds.at_eq] at hat
  rw [hspan]
  show EndsInk (before (width p + width t) (p ++ t ++ q))
  rw [← width_append, before_width_append]
  exact endsInk_append hat.1 hat.2

namespace Patcher

/-- A removed range takes no more than the blanks in front of it. -/
theorem removal_spec {source : Text} {lo : Nat} {r : Span} (hlo : IsInkAt source lo)
    (hle : lo ≤ r.start) (hr : Boundary r.start source) :
    lo ≤ (removal source r).span.start ∧ (removal source r).span.start ≤ r.start ∧
      Boundary (removal source r).span.start source := by
  obtain ⟨b, p, q, rfl, hspan⟩ := exists_holds (r := ⟨lo, r.start⟩) hle hlo.boundary hr
  obtain ⟨rfl, hstart⟩ := Span.mk.inj hspan
  have hink : EndsInk p := by
    have := hlo.ink
    rwa [List.append_assoc, before_width_append] at this
  have hbefore : before r.start (p ++ b ++ q) = p ++ b := by
    rw [hstart, ← width_append, before_width_append]
  have hspan : (removal (p ++ b ++ q) r).span.start = width (trimEnd isBlank (p ++ b)) := by
    rw [removal, hbefore]
  obtain ⟨z, hz, -⟩ := exists_trimEnd (p ++ b)
  rw [hspan]
  refine ⟨?_, ?_, trimEnd isBlank (p ++ b), z ++ q, ?_, rfl⟩
  · by_cases hb : IsBlankText b
    · rw [hink.trimEnd hb]
    · rw [trimEnd_append isBlank (mt trimEnd_eq_nil_iff.1 hb), width_append]
      exact Nat.le_add_right _ _
  · have := congrArg width hz
    rw [width_append, width_append] at this
    omega
  · rw [← List.append_assoc, ← hz]

variable {p : Patcher} {old new : Head}

/-- An attribute is kept, written anew or removed. -/
theorem attributeSplice_cases (p : Patcher) (old new : Head) (a : AttrPlace) :
    p.attributeSplice old new a = [] ∨ p.attributeSplice old new a = [removal p.source a.span] ∨
      ∃ t, p.attributeSplice old new a = [⟨a.span, t⟩] := by
  rw [attributeSplice]
  split_ifs
  · exact .inl rfl
  · exact .inr (.inl rfl)
  · exact .inr (.inr ⟨_, rfl⟩)
  · split
    · exact .inr (.inl rfl)
    · split_ifs
      · exact .inl rfl
      · exact .inr (.inr ⟨_, rfl⟩)

section Tag

variable {region : Span} {lo hi : Nat}

theorem confined_attributeSplice {a : AttrPlace} (ha : a.IsSound p.source region)
    (hlo : IsInkAt p.source lo) (hle : lo ≤ a.span.start) :
    AreConfined p.source lo a.span.stop (p.attributeSplice old new a) := by
  obtain h | h | ⟨t, h⟩ := attributeSplice_cases p old new a
  · rw [h]
    exact .nil (Nat.le_trans hle ha.span.le)
  · obtain ⟨hstart, hstop, hboundary⟩ := removal_spec hlo hle ha.span.start
    rw [h]
    exact .single ⟨⟨hstart, Nat.le_refl _⟩, Nat.le_trans hstop ha.span.le, hboundary, ha.span.stop⟩ _
  · rw [h]
    exact .single ⟨⟨hle, Nat.le_refl _⟩, ha.span.le, ha.span.start, ha.span.stop⟩ t

theorem confined_attributeSplices {as : List AttrPlace} (has : ∀ a ∈ as, a.IsSound p.source region)
    (hlo : IsInkAt p.source lo) (h : InOrder lo hi (as.map AttrPlace.span)) :
    AreConfined p.source lo hi (as.flatMap (p.attributeSplice old new)) := by
  induction as generalizing lo with
  | nil => exact .nil h
  | cons a as ih =>
    obtain ⟨ha, has⟩ := List.forall_mem_cons.1 has
    obtain ⟨hle, -, hrest⟩ := inOrder_cons.1 h
    exact (confined_attributeSplice ha hlo hle).append (ih has ha.isInkAt_stop hrest)

/-- The changes in an open tag stay in it. -/
theorem confined_tagSplices {flavor : Flavor} {tag : Text} {as st : Attrs} {e : ElementPlace}
    {places : List Place} (he : e.IsSound flavor p.source region tag as st places) {t : Span}
    (ht : e.openTag = some t) :
    AreConfined p.source t.start t.stop (p.tagSplices old new e) := by
  obtain ⟨hrange, -, -, -⟩ := he.openTag t ht
  rw [tagSplices]
  split
  · exact .nil hrange.le
  obtain ⟨x, y, hs, hspan⟩ := he.named t ht
  have hx : t.start = width x := congrArg Span.start hspan
  have hs : p.source = (x ++ ['<']) ++ (tag ++ y) := by simp [hs]
  have hwidth : width (x ++ ['<']) = t.start + 1 := by
    rw [hx, width_append]
    rfl
  have hink : IsInkAt p.source (t.start + 1) := by
    rw [← hwidth, hs]
    refine ⟨⟨_, _, rfl, rfl⟩, ?_⟩
    rw [before_width_append]
    refine endsInk_append (List.cons_ne_nil _ _) fun c hc => ?_
    cases hc
    rfl
  obtain ⟨mid, hattributes, hend⟩ :=
    inOrder_append.1 ((he.order t ht).mono (Nat.le_add_right _ _) (Nat.le_refl _))
  refine AreConfined.mono ?_ (Nat.le_add_right t.start 1) (Nat.le_refl _)
  refine (confined_attributeSplices he.attributes hink hattributes).append ?_
  split
  · exact .nil hend.le
  · exact .single ⟨⟨hend.1, hend.2.2⟩, Nat.le_refl _, he.attrsEnd.start, he.attrsEnd.stop⟩ _

end Tag

/-! ## Children -/

section Children

variable {region : Span} {lo hi : Nat}

/-- From the first place to the last. -/
theorem isRange_hull {source : Text} {first : Place} {rest : List Place}
    (hplaces : ∀ q ∈ first :: rest, source.IsRange region q.outer)
    (h : InOrder lo hi ((first :: rest).map Place.outer)) :
    source.IsRange ⟨lo, hi⟩ ⟨first.outer.start, (rest.getLastD first).outer.stop⟩ := by
  have hlast : (first :: rest).getLast? = some (rest.getLastD first) := by
    rw [List.getLast?_cons, List.getLastD_eq_getLast?]
  have hmem := hplaces _ (List.mem_of_getLast? hlast)
  obtain ⟨hlo, hle, hhi⟩ := h.hull (a := first.outer) (b := (rest.getLastD first).outer) rfl
    (by rw [List.getLast?_map, hlast]; rfl)
  exact ⟨⟨hlo, hhi⟩, hle, (hplaces _ List.mem_cons_self).start, hmem.stop⟩

/-- New children take the place of the old ones, or of the content. -/
theorem isRange_arrangement (p : Patcher) (place : ElementPlace) {inner : Span} {old : List Place}
    (children : List Shadow) (hinner : p.source.IsRange region inner)
    (hold : ∀ q ∈ old, p.source.IsRange region q.outer)
    (h : InOrder inner.start inner.stop (old.map Place.outer)) :
    p.source.IsRange inner (p.arrangement place inner old children).span := by
  cases old with
  | nil =>
    have hspan : (p.arrangement place inner [] children).span = inner := by
      simp only [arrangement, arranged]
      split_ifs <;> rfl
    rw [hspan]
    exact hinner.self
  | cons first rest => exact isRange_hull hold h

end Children

end Patcher

end MarkupSync
