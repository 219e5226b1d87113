import MarkupSync.Proofs.Document.Aside
import MarkupSync.Proofs.Patch.Kept

/-!
# Bytes that patches carry over

* `Text.Carries`: ranges of a source stand in another text;
* `Shadow.Spares`: the changes of a node do not touch a range of the source;
* **`Patcher.carries_splices`**: the ranges that the changes of a node do not touch are carried over
  to what the node is written as.
-/

namespace MarkupSync

open Text

/-- The ranges `P` of a source stand in a text, in which they share no byte if they share none in the
source. -/
def Text.Carries (source t : Text) (P : Span → Prop) : Prop :=
  ∃ spot : Span → Span, (∀ q, P q → t.Holds (spot q) (source.at q)) ∧
    ∀ q q', P q → P q' → q.Avoids q' → (spot q).Avoids (spot q')

theorem Span.Avoids.symm {q r : Span} (h : q.Avoids r) : r.Avoids q := Or.symm h

theorem Span.Avoids.shift {q r : Span} (h : q.Avoids r) (n : Nat) :
    (q.shift n).Avoids (r.shift n) := by
  simp only [Span.Avoids, Span.shift] at *
  omega

namespace Text.Carries

variable {source s t u : Text} {P Q R : Span → Prop} {r : Span}

theorem mono (h : source.Carries t Q) (hPQ : ∀ q, P q → Q q) : source.Carries t P := by
  obtain ⟨spot, hholds, havoids⟩ := h
  exact ⟨spot, fun q hq => hholds q (hPQ q hq), fun q q' hq hq' => havoids q q' (hPQ q hq) (hPQ q' hq')⟩

theorem of_forall_not (h : ∀ q, ¬ P q) (t : Text) : source.Carries t P :=
  ⟨id, fun q hq => (h q hq).elim, fun q _ hq => (h q hq).elim⟩

/-- A part of the source carries its ranges. -/
theorem of_holds (h : source.Holds r t) : source.Carries t (source.IsRange r) := by
  refine ⟨fun q => ⟨q.start - r.start, q.stop - r.start⟩, fun q hq => ?_, fun q q' hq hq' havoids => ?_⟩
  · obtain ⟨a, b, c, rfl, ha, hb, hc⟩ := h.exists_split hq
    rw [hb.at_eq]
    have hstart := ha.stop_eq
    have hstop := hb.stop_eq
    refine ⟨a, c, by simp, ?_⟩
    simp only [Span.mk.injEq] at hstart ⊢
    omega
  · obtain ⟨h1, -⟩ := hq.within
    obtain ⟨h2, -⟩ := hq'.within
    simp only [Span.Avoids] at *
    omega

/-- Texts that are put together carry what each of them carries. -/
theorem append (h : source.Carries t Q) (h' : source.Carries u R) (hP : ∀ q, P q → Q q ∨ R q) :
    source.Carries (t ++ u) P := by
  classical
  obtain ⟨spot, hholds, havoids⟩ := h
  obtain ⟨spot', hholds', havoids'⟩ := h'
  have left {q : Span} (hq : Q q) : (t ++ u).Holds (spot q) (source.at q) := by
    obtain ⟨a, b, ht, hspan⟩ := hholds q hq
    exact ⟨a, b ++ u, by rw [ht]; simp, hspan⟩
  have right {q : Span} (hq : R q) : (t ++ u).Holds ((spot' q).shift (width t)) (source.at q) :=
    Holds.trans (r := ⟨width t, width t + width u⟩) ⟨t, [], by simp, rfl⟩ (hholds' q hq)
  have apart {q q' : Span} (hq : Q q) (hq' : R q') : (spot q).Avoids ((spot' q').shift (width t)) :=
    .inl (Nat.le_trans (hholds q hq).stop_le (Nat.le_add_left _ _))
  refine ⟨fun q => if Q q then spot q else (spot' q).shift (width t), fun q hq => ?_,
    fun q q' hq hq' hqq' => ?_⟩
  · by_cases h : Q q
    · simp only [if_pos h]
      exact left h
    · simp only [if_neg h]
      exact right ((hP q hq).resolve_left h)
  · have hr (h : ¬ Q q) : R q := (hP q hq).resolve_left h
    have hr' (h : ¬ Q q') : R q' := (hP q' hq').resolve_left h
    by_cases h : Q q <;> by_cases h' : Q q' <;> simp only [if_pos, if_neg, h, h', not_false_iff]
    · exact havoids q q' h h' hqq'
    · exact apart h (hr' h')
    · exact (apart h' (hr h)).symm
    · exact (havoids' q q' (hr h) (hr' h') hqq').shift _

/-- So do they with other texts around. -/
theorem between (h : source.Carries t P) (a b : Text) : source.Carries (a ++ (t ++ b)) P :=
  (of_forall_not (fun _ => id) a).append (h.append (of_forall_not (fun _ => id) b) fun _ => .inl)
    fun _ => .inr

/-- Texts with separators between them. -/
theorem intercalate (separator : Text) {α : Type} {as : List α} {ts : List Text}
    {Q : α → Span → Prop} (h : List.Forall₂ (fun a t => source.Carries t (Q a)) as ts) :
    source.Carries (separator.intercalate ts) fun q => ∃ a ∈ as, Q a q := by
  induction h with
  | nil => exact of_forall_not (by rintro q ⟨a, ⟨⟩, -⟩) _
  | @cons a t as ts ha has ih =>
    cases has with
    | nil => simpa using ha
    | @cons b u as ts hb has =>
      have hrest := ih.between separator []
      rw [List.append_nil] at hrest
      rw [List.intercalate_cons_cons, List.append_assoc]
      exact ha.append hrest fun q hq => (List.exists_mem_cons_iff (Q · q) a (b :: as)).1 hq

end Text.Carries

/-! ## What a change spares -/

namespace Shadow

variable (source : Text) (q : Span)

mutual

/-- The changes of a node with an origin do not touch a range of its source: the range lies in a text
that goes on unchanged, or in the content of an element. There it is spared in a child, or lies
beside all children; if the children are others than before, in front of all the old ones or behind
them. -/
def Spares : Shadow → Prop
  | .text origin content => ∃ o ∈ origin, o.node = .text content ∧ source.IsRange o.place.outer q
  | .element origin _ _ _ children => ∃ o ∈ origin, ∃ e old, o.place = .element e old ∧
    ∃ inner ∈ e.inner, AnySpares children ∨ source.IsRange inner q ∧
      if Patcher.keepsChildren o.path old.length children then ∀ p ∈ old, q.Avoids p.outer
      else children ≠ [] ∧ old ≠ [] ∧
        ((∀ p ∈ old, q.stop ≤ p.outer.start) ∨ ∀ p ∈ old, p.outer.stop ≤ q.start)

/-- The range is spared in one of the nodes. -/
def AnySpares : List Shadow → Prop
  | [] => False
  | s :: ss => s.Spares ∨ AnySpares ss

end

variable {source q}

theorem anySpares_iff {ss : List Shadow} : AnySpares source q ss ↔ ∃ s ∈ ss, s.Spares source q := by
  induction ss with
  | nil => simp [AnySpares]
  | cons s ss ih => simp [AnySpares, ih]

end Shadow

/-- Nothing is spared in a new node. -/
theorem Shadow.Spares.isSome_origin {source : Text} {q : Span} {s : Shadow} (h : s.Spares source q) :
    s.origin.isSome := by
  cases s <;> exact h.elim fun o ho => Option.isSome_of_mem ho.1

namespace Patcher

variable {p : Patcher} {flavor : Flavor} {region : Span} {d : Document}

/-- What lies beside all children is carried over with the text around them. -/
theorem carries_arrangement {source : Text} {inner : Span} {a : Arrangement}
    (hspan : source.IsRange inner a.span) {t : Text} (ht : source.Holds inner t)
    {cs : List Shadow} {ts : List Text}
    (hcs : List.Forall₂ (fun c t => source.Carries t (Shadow.Spares source · c)) cs ts) :
    ∃ t', Rewrites inner.start t [a.splice ts] t' ∧ source.Carries t' fun q =>
      (∃ c ∈ cs, c.Spares source q) ∨ source.IsRange inner q ∧ q.Avoids a.span := by
  obtain ⟨x, y, z, rfl, hx, hy, hz⟩ := ht.exists_split hspan
  have hstart : a.span.start = inner.start + width x := hx.stop_eq
  have hrw := Rewrites.of_holds hy (a.front ++ a.separator.intercalate ts ++ a.back)
  rw [hstart] at hrw
  have hrw := hrw.between x z
  rw [List.append_assoc] at hrw
  refine ⟨_, hrw, ?_⟩
  rw [List.append_assoc]
  have hparts := (Carries.intercalate a.separator hcs).between a.front a.back
  rw [← List.append_assoc] at hparts
  refine (Carries.of_holds hx).append (hparts.append (.of_holds hz) fun q => id) ?_
  rintro q (hq | ⟨hq, havoids | havoids⟩)
  · exact .inr (.inl hq)
  · exact .inl ⟨⟨hq.within.1, havoids⟩, hq.le, hq.start, hq.stop⟩
  · exact .inr (.inr ⟨⟨havoids, hq.within.2⟩, hq.le, hq.start, hq.stop⟩)

/-- What lies beside all old children lies beside what new ones take the place of. -/
theorem avoids_arrangement (p : Patcher) (place : ElementPlace) (inner : Span) {old : List Place}
    (children : List Shadow) {q : Span} (hold : old ≠ [])
    (h : (∀ p ∈ old, q.stop ≤ p.outer.start) ∨ ∀ p ∈ old, p.outer.stop ≤ q.start) :
    q.Avoids (p.arrangement place inner old children).span := by
  match old, hold with
  | first :: rest, _ =>
    exact h.imp (fun h => h _ List.mem_cons_self) fun h => h _ (List.getLastD_mem_cons ..)

mutual

/-- **What the changes of a node do not touch is carried over** to what the node is written as. -/
theorem carries_splices (hd : d.IsSound flavor p.source region) (raw : Bool) {s : Shadow}
    (hs : Shadow.IsGenuine d s) {o : Origin} (ho : s.origin = some o) {t : Text}
    (ht : p.source.Holds o.place.outer t) : ∃ es t', p.splices raw s = .ok es ∧
      Rewrites o.place.outer.start t es t' ∧ p.source.Carries t' (Shadow.Spares p.source · s) := by
  obtain ⟨hof, hkind⟩ := hs.isFrom o ho
  have hsound := hd.at? hof
  obtain ⟨path, node, place⟩ := o
  cases s with
  | text origin content =>
    cases ho
    cases node <;> cases place
    case text.text old span =>
      rw [splices_text]
      split
      · refine ⟨[], t, rfl, .refl _ _, (Carries.of_holds ht).mono ?_⟩
        rintro q ⟨_, ⟨⟩, -, hq⟩
        exact hq
      next hne =>
        refine ⟨_, _, rfl, .of_holds ht _, .of_forall_not ?_ _⟩
        rintro q ⟨_, ⟨⟩, hq, -⟩
        exact hne (Node.text.inj hq)
    case text.element => exact hsound.elim
    all_goals cases hkind
  | element origin tag as st cs =>
    cases ho
    cases node <;> cases place
    case element.element oldTag oldAs oldSt ns place old =>
      obtain ⟨he, hplaces⟩ := hsound
      have hcs := (Shadow.isGenuine_element.1 hs).2
      refine rewrites_element he raw ht (fun a b t h => h.between a b)
        (fun hinner t => .of_forall_not ?_ t) fun inner hinner t ht => ?_
      · rintro q ⟨_, ⟨⟩, e, places, ⟨⟩, inner, hq, -⟩
        rw [hinner] at hq
        cases hq
      obtain ⟨hrange, -, horder⟩ := he.inner inner hinner
      rw [contentSplices]
      split
      next hk =>
        obtain ⟨es, t', hes, hrw, hcarries⟩ := carries_splicesAll hd (p.keepsContent tag) hcs
          (forall₂_of_keepsChildren hof hcs hk) horder ht
        refine ⟨es, t', hes, hrw, hcarries.mono ?_⟩
        rintro q ⟨_, ⟨⟩, e, places, ⟨⟩, inner', hinner', hq⟩
        obtain rfl := Option.some.inj (hinner.symm.trans hinner')
        rwa [if_pos hk] at hq
      next hk =>
        split
        next hempty =>
          obtain rfl := List.isEmpty_iff.1 hempty
          refine ⟨_, [], rfl, .of_holds ht _, .of_forall_not ?_ _⟩
          rintro q ⟨_, ⟨⟩, e, places, ⟨⟩, inner', hinner', hq | ⟨-, hq⟩⟩
          · exact hq
          · rw [if_neg hk] at hq
            exact hq.1 rfl
        next =>
          obtain ⟨ts, hts, hin⟩ := carries_parts hd (p.keepsContent tag)
            (p.arrangement place inner old cs).indent hcs
          have hspan := isRange_arrangement p place cs hrange hplaces.isRange horder
          obtain ⟨t', hrw, hcarries⟩ := carries_arrangement hspan ht hin
          simp only [hts]
          refine ⟨_, t', rfl, hrw, hcarries.mono ?_⟩
          rintro q ⟨_, ⟨⟩, e, places, ⟨⟩, inner', hinner', hq | ⟨hq, hbeside⟩⟩
          · exact .inl (Shadow.anySpares_iff.1 hq)
          · obtain rfl := Option.some.inj (hinner.symm.trans hinner')
            rw [if_neg hk] at hbeside
            exact .inr ⟨hq, avoids_arrangement p place _ cs hbeside.2.1 hbeside.2.2⟩
    case element.text => exact hsound.elim
    all_goals cases hkind

/-- What the changes of nodes do not touch, and what lies beside all of them. -/
theorem carries_splicesAll (hd : d.IsSound flavor p.source region) (raw : Bool) {ss : List Shadow}
    (hss : ∀ s ∈ ss, Shadow.IsGenuine d s) {places : List Place}
    (hplaces : List.Forall₂ (fun c q => ∃ o, c.origin = some o ∧ o.place = q) ss places)
    {lo hi : Nat} (h : InOrder lo hi (places.map Place.outer)) {t : Text}
    (ht : p.source.Holds ⟨lo, hi⟩ t) : ∃ es t', p.splicesAll raw ss = .ok es ∧
      Rewrites lo t es t' ∧ p.source.Carries t' fun q => Shadow.AnySpares p.source q ss ∨
        p.source.IsRange ⟨lo, hi⟩ q ∧ ∀ r ∈ places, q.Avoids r.outer := by
  cases ss with
  | nil =>
    refine ⟨[], t, rfl, .refl _ _, (Carries.of_holds ht).mono ?_⟩
    rintro q (⟨⟨⟩⟩ | ⟨hq, -⟩)
    exact hq
  | cons s ss =>
    obtain ⟨hs, hss⟩ := List.forall_mem_cons.1 hss
    obtain ⟨q, places, ⟨o, ho, rfl⟩, hrestPlaces, rfl⟩ := List.forall₂_cons_left_iff.1 hplaces
    obtain ⟨hlo, -, hrest⟩ := inOrder_cons.1 h
    have hrange := (hd.at? (hs.isFrom o ho).1).isRange
    obtain ⟨gap, part, rest, rfl, hgap, hpart, htail⟩ :=
      ht.exists_split ⟨⟨hlo, hrest.le⟩, hrange.le, hrange.start, hrange.stop⟩
    obtain ⟨es, part', hes, hrw, hcarries⟩ := carries_splices hd raw hs ho hpart
    obtain ⟨fs, rest', hfs, hrws, hcarriesAll⟩ :=
      carries_splicesAll hd raw hss hrestPlaces hrest htail
    refine ⟨es ++ fs, gap ++ (part' ++ rest'), ?_, .keep gap ?_, ?_⟩
    · simp only [splicesAll, hes, hfs, Except.map]
    · rw [hpart.stop_eq] at hrws
      rw [← hgap.stop_eq]
      exact hrw.append hrws
    · refine (Carries.of_holds hgap).append (hcarries.append hcarriesAll fun q => id) ?_
      rintro q ((hq | hq) | ⟨hq, havoids⟩)
      · exact .inr (.inl hq)
      · exact .inr (.inr (.inl hq))
      · obtain ⟨havoid, havoids⟩ := List.forall_mem_cons.1 havoids
        obtain havoid | havoid := havoid
        · exact .inl ⟨⟨hq.within.1, havoid⟩, hq.le, hq.start, hq.stop⟩
        · exact .inr (.inr (.inr ⟨⟨⟨havoid, hq.within.2⟩, hq.le, hq.start, hq.stop⟩, havoids⟩))

/-- The texts of children carry what the changes of the children do not touch. -/
theorem carries_parts (hd : d.IsSound flavor p.source region) (raw : Bool) (indent : Text)
    {ss : List Shadow} (hss : ∀ s ∈ ss, Shadow.IsGenuine d s) :
    ∃ ts, p.parts raw indent ss = .ok ts ∧
      List.Forall₂ (fun s t => p.source.Carries t (Shadow.Spares p.source · s)) ss ts := by
  cases ss with
  | nil => exact ⟨[], rfl, .nil⟩
  | cons s ss =>
    obtain ⟨hs, hss⟩ := List.forall_mem_cons.1 hss
    obtain ⟨ts, hts, hin⟩ := carries_parts hd raw indent hss
    cases ho : s.origin with
    | none =>
      refine ⟨p.fresh raw indent s.toNode :: ts, ?_, .cons (.of_forall_not (fun q hq => ?_) _) hin⟩
      · simp only [parts, ho, hts, Except.map]
      · have hsome := hq.isSome_origin
        rw [ho] at hsome
        cases hsome
    | some o =>
      obtain ⟨part, hpart⟩ := (hd.at? (hs.isFrom o ho).1).isRange.exists_holds
      obtain ⟨es, t, hes, hrw, ht⟩ := carries_splices hd raw hs ho hpart
      have happly := (Rewrites.shift (n := 0) hrw).applyAll
      rw [← hpart.at_eq] at happly
      refine ⟨t :: ts, ?_, .cons ht hin⟩
      simp only [parts, ho, hes, happly, hts, Except.map, Except.mapError]

end

/-- What a document may be written anew in: the place of the root, if it has an origin. -/
def rootSpan (place : Place) (root : Shadow) : Span :=
  match root.origin with
  | some o => o.place.outer
  | none => documentSpan place

/-- **What the changes of a document do not touch is carried over**, and what lies beside its root. -/
theorem carries_rootSplices (hd : d.IsSound flavor p.source region) {s : Shadow}
    (hs : Shadow.IsGenuine d s) : ∃ es t, p.rootSplices d.place s = .ok es ∧
      Rewrites 0 p.source es t ∧ p.source.Carries t fun q => s.Spares p.source q ∨
        p.source.IsRange ⟨0, width p.source⟩ q ∧ q.Avoids (rootSpan d.place s) := by
  -- the source in front of the root and behind it
  obtain ⟨r, hr, part, hpart, es, part', hes, hrw, hcarries⟩ : ∃ r, rootSpan d.place s = r ∧
      ∃ part, p.source.Holds r part ∧ ∃ es part', p.rootSplices d.place s = .ok es ∧
        Rewrites r.start part es part' ∧ p.source.Carries part' (Shadow.Spares p.source · s) := by
    cases ho : s.origin with
    | none =>
      obtain ⟨part, hpart⟩ := (isRange_documentSpan hd).exists_holds
      refine ⟨_, by simp only [rootSpan, ho], part, hpart, _, _,
        by simp only [rootSplices, ho]; rfl, .of_holds hpart _, .of_forall_not (fun q hq => ?_) _⟩
      have hsome := hq.isSome_origin
      rw [ho] at hsome
      cases hsome
    | some o =>
      obtain ⟨part, hpart⟩ := (hd.at? (hs.isFrom o ho).1).isRange.exists_holds
      obtain ⟨es, part', hes, hrw, hcarries⟩ := carries_splices hd false hs ho hpart
      exact ⟨_, by simp only [rootSpan, ho], part, hpart, es, part',
        by simp only [rootSplices, ho, hes], hrw, hcarries⟩
  obtain ⟨a, b, c, hsource, ha, hb, hc⟩ := (Holds.self p.source).exists_split
    (hpart.isRange ⟨Nat.zero_le _, hpart.stop_le⟩)
  obtain rfl : b = part := hb.at_eq.symm.trans hpart.at_eq
  have hstart : r.start = 0 + width a := ha.stop_eq
  rw [hstart] at hrw
  refine ⟨es, a ++ (part' ++ c), hes, ?_, ?_⟩
  · have := hrw.between a c
    rwa [List.append_assoc, List.append_assoc, ← hsource] at this
  · refine (Carries.of_holds ha).append (hcarries.append (.of_holds hc) fun q => id) ?_
    rintro q (hq | ⟨hq, havoids⟩)
    · exact .inr (.inl hq)
    · rw [hr] at havoids
      obtain havoids | havoids := havoids
      · exact .inl ⟨⟨hq.within.1, havoids⟩, hq.le, hq.start, hq.stop⟩
      · exact .inr (.inr ⟨⟨havoids, hq.within.2⟩, hq.le, hq.start, hq.stop⟩)

end Patcher

end MarkupSync
