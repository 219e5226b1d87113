import Mathlib.Data.List.Induction
import Mathlib.Data.List.InsertIdx
import Mathlib.Data.List.Nodup
import MarkupSync.Proofs.Diff.Match
import MarkupSync.Proofs.Diff.Step

/-!
# Placements arrange the children

The new children are put in their places last one first. A child that stays is in front of the
children behind it from the start, every other one is put in front of the child that was placed
before it.

* `settle`: the slots of a list of children once it is rearranged;
* `Shadow.steps_removals`, `Shadow.steps_placements`: the edits of a rearrangement as steps;
* `Arranged`: what the list of slots looks like when some new children have been placed;
* **`settle_targets`**: in the end the slots are those of the new children, in their order.
-/

namespace MarkupSync

/-! ## Slots -/

/-- The slots once a new child is in its place. -/
def place (stays : List Nat) (anchor : Option Slot) (current : List Slot) (t : Target) : List Slot :=
  match t.source with
  | none => current.insertIdx (indexBefore anchor current) t.slot
  | some _ =>
    if stays.contains t.index then current
    else
      match current.idxOf? t.slot with
      | none => current
      | some source =>
        let others := current.eraseIdx source
        others.insertIdx (indexBefore anchor others) t.slot

/-- The slots once all new children are in their places, last one first. -/
def settle (stays : List Nat) : Option Slot → List Slot → List Target → List Slot
  | _, current, [] => current
  | anchor, current, t :: ts => settle stays (some t.slot) (place stays anchor current t) ts

theorem indexBefore_le (anchor : Option Slot) (current : List Slot) :
    indexBefore anchor current ≤ current.length := by
  rw [indexBefore]
  cases h : anchor.bind fun slot => current.idxOf? slot with
  | none => exact Nat.le_refl _
  | some i =>
    obtain ⟨slot, -, hs⟩ := Option.bind_eq_some_iff.1 h
    obtain ⟨hi, -⟩ := List.idxOf?_eq_some_iff.1 hs
    exact Nat.le_of_lt hi

/-! ## The edits of a rearrangement -/

namespace Shadow

variable {P : Bool → Node → Prop} {raw : Bool} {o : Origin} {tag : Text} {as st : Attrs}

/-- The removals leave the children that are matched, and what is behind them. -/
theorem steps_removals (matched : List (Option Nat)) (child : Nat → Shadow) (count : Nat)
    (behind : List Shadow) :
    Steps P raw (.element (some o) tag as st ((List.range count).map child ++ behind))
      (removals [] matched count)
      (.element (some o) tag as st ((survivors matched count).map child ++ behind)) := by
  induction count generalizing behind with
  | zero => exact .nil
  | succ n ih =>
    simp only [removals, survivors, List.range_succ, List.reverse_append, List.reverse_singleton,
      List.singleton_append, List.filter_append, List.map_append, List.filter_cons,
      List.filter_nil] at ih ⊢
    by_cases hn : some n ∈ matched
    · simpa [hn] using ih (child n :: behind)
    · simp only [hn, Bool.not_false, if_true, List.map_cons, List.map_nil, decide_false,
        List.elem_eq_mem]
      refine .cons (.remove (by simp)) ?_
      simpa [List.eraseIdx_append_of_length_le] using ih behind

/-- The placements change the children as they change the slots. -/
theorem steps_placements {stays : List Nat} {child : Slot → Shadow} {ts : List Target}
    (hc : ∀ t ∈ ts, t.source = none → child t.slot = fresh t.node ∧ P (isRaw tag) t.node)
    (anchor : Option Slot) (current : List Slot) :
    Steps P raw (.element (some o) tag as st (current.map child))
      (placements [] stays anchor current ts)
      (.element (some o) tag as st ((settle stays anchor current ts).map child)) := by
  induction ts generalizing anchor current with
  | nil => exact .nil
  | cons t ts ih =>
    have ih := ih fun t' ht' => hc t' (List.mem_cons_of_mem _ ht')
    cases hs : t.source with
    | none =>
      obtain ⟨hn, hp⟩ := hc t List.mem_cons_self hs
      simp only [placements, settle, place, hs]
      refine .cons (.insert ((List.length_map child).symm ▸ indexBefore_le anchor current) hp) ?_
      rw [← hn, ← List.map_insertIdx]
      exact ih _ _
    | some i =>
      simp only [placements, settle, place, hs]
      split_ifs with hstay
      · exact ih _ _
      cases hsource : current.idxOf? t.slot with
      | none => exact ih _ _
      | some source =>
        obtain ⟨hlt, hslot, -⟩ := List.idxOf?_eq_some_iff.1 hsource
        have hchild : (current.map child)[source]? = some (child t.slot) := by simp [hlt, hslot]
        refine .cons (.move hchild ?_) ?_
        · rw [List.eraseIdx_map, List.length_map]
          exact indexBefore_le _ _
        · rw [List.eraseIdx_map, ← List.map_insertIdx]
          exact ih _ _

end Shadow

/-! ## The slots of a rearrangement -/

section Insert

variable {l r before behind current : List Slot} {x d : Slot}

theorem insertIdx_length_append : (l ++ r).insertIdx l.length x = l ++ x :: r := by
  induction l with
  | nil => rfl
  | cons a l ih => simp [ih]

/-- A list is in order around an item that occurs once in it. -/
theorem sublist_around (hd : d ∉ before) (hl : d ∉ l) (hr : d ∉ r)
    (h : (before ++ d :: behind).Sublist (l ++ d :: r)) :
    before.Sublist l ∧ behind.Sublist r := by
  obtain ⟨l₁, l₂, heq, h₁, h₂⟩ := List.sublist_append_iff.1 h
  have hd₁ : d ∉ l₁ := fun hm => hl (h₁.subset hm)
  rcases List.append_eq_append_iff.1 heq with ⟨as, rfl, hb⟩ | ⟨as, rfl, rfl⟩
  · cases as with
    | nil =>
      obtain rfl : l₂ = d :: behind := by simpa using hb.symm
      exact ⟨by simpa using h₁, List.cons_sublist_cons.1 h₂⟩
    | cons a as =>
      obtain rfl : d = a := by simpa using congrArg List.head? hb
      exact absurd (by simp) hd₁
  · cases as with
    | nil => exact ⟨by simpa using h₁, List.cons_sublist_cons.1 h₂⟩
    | cons a as =>
      -- what is left of `before` would need an item in front of the only `d`
      have ha : a ≠ d := fun ha => hd (by simp [ha])
      obtain h₂ | ⟨_, h₂⟩ := List.sublist_cons_iff.1 h₂
      · exact absurd (h₂.subset (by simp)) hr
      · exact absurd (by simpa using congrArg List.head? h₂.1) ha

/-- An item put in front of the first of the items behind it is in order. -/
theorem sublist_insertIdx_indexBefore (hn : current.Nodup)
    (hd : ∀ d ∈ behind.head?, d ∉ before) (h : (before ++ behind).Sublist current) :
    (before ++ x :: behind).Sublist (current.insertIdx (indexBefore behind.head? current) x) := by
  cases behind with
  | nil =>
    rw [List.append_nil] at h
    simpa [indexBefore] using h
  | cons d behind =>
    obtain ⟨l, r, rfl, hl⟩ := List.eq_append_cons_of_mem (h.subset (by simp) : d ∈ current)
    have hr : d ∉ r := fun hm => by simp [List.nodup_append, hm] at hn
    have hindex : indexBefore (some d) (l ++ d :: r) = l.length := by
      have : (l ++ d :: r).idxOf? d = some l.length := by
        rw [List.idxOf?_eq_some_iff]
        refine ⟨by simp, by simp, fun j hj hjd => hl ?_⟩
        rw [List.getElem_append_left hj] at hjd
        exact hjd ▸ List.getElem_mem hj
      simp [indexBefore, this]
    obtain ⟨h₁, h₂⟩ := sublist_around (hd d rfl) hl hr h
    rw [List.head?_cons, hindex, insertIdx_length_append]
    exact h₁.append ((h₂.cons_cons d).cons_cons x)

end Insert

/-- Whether a new child continues an old one that is not moved. -/
def Target.stays (stays : List Nat) (t : Target) : Bool :=
  t.source.isSome && stays.contains t.index

/-- The slots when the new children `done` have been placed and `todo` have not: those of `done`
and the old children that are to stay are in order. -/
structure Arranged (stays : List Nat) (todo done : List Target) (current : List Slot) : Prop where
  perm : current.Perm ((todo.filter (·.source.isSome) ++ done).map Target.slot)
  ordered : ((todo.filter (Target.stays stays) ++ done).map Target.slot).Sublist current

section Arranged

variable {stays : List Nat} {todo done : List Target} {current : List Slot} {t : Target}

/-- A child put in its place is arranged, wherever it was before. -/
theorem Arranged.insertIdx (hn : ((todo ++ t :: done).map Target.slot).Nodup)
    (h : Arranged stays todo done current) : Arranged stays todo (t :: done)
      (current.insertIdx (indexBefore (done.head?.map Target.slot) current) t.slot) := by
  have hsub : ∀ p : Target → Bool, ((todo.filter p ++ done).map Target.slot).Nodup := fun p =>
    hn.sublist ((List.filter_sublist.append (List.sublist_cons_self t done)).map _)
  constructor
  · refine (List.perm_insertIdx _ _ (indexBefore_le _ _)).trans ?_
    rw [List.map_append, List.map_cons]
    refine .trans ?_ List.perm_middle.symm
    rw [List.perm_cons, ← List.map_append]
    exact h.perm
  · have ho := h.ordered
    have hs := hsub (Target.stays stays)
    rw [List.map_append] at ho hs ⊢
    rw [List.map_cons, ← List.head?_map]
    refine sublist_insertIdx_indexBefore (h.perm.nodup_iff.2 (hsub _)) (fun d hd hm => ?_) ho
    exact (List.nodup_append.1 hs).2.2 d hm d (List.mem_of_mem_head? hd) rfl

/-- Placing a new child keeps the slots arranged. -/
theorem Arranged.place (hn : ((todo ++ t :: done).map Target.slot).Nodup)
    (h : Arranged stays (todo ++ [t]) done current) :
    Arranged stays todo (t :: done) (place stays (done.head?.map Target.slot) current t) := by
  obtain ⟨hp, ho⟩ := h
  rw [List.filter_append, List.append_assoc] at hp ho
  cases hs : t.source with
  | none =>
    simp only [MarkupSync.place, hs]
    refine Arranged.insertIdx hn ⟨?_, ?_⟩
    · simpa [hs] using hp
    · simpa [Target.stays, hs] using ho
  | some i =>
    simp only [MarkupSync.place, hs]
    replace hp : current.Perm ((todo.filter (·.source.isSome) ++ t :: done).map Target.slot) := by
      simpa [hs] using hp
    split_ifs with hstay
    · exact ⟨hp, by simpa [Target.stays, hs, List.contains_iff_mem.1 hstay] using ho⟩
    have hmem : t.slot ∈ current := hp.mem_iff.2 (by simp)
    obtain ⟨source, hsource⟩ := Option.isSome_iff_exists.1 (List.isSome_idxOf?.2 hmem)
    have herase : current.eraseIdx source = current.erase t.slot := by
      rw [List.erase_eq_eraseIdx, hsource]
    simp only [hsource, herase]
    refine Arranged.insertIdx hn ⟨?_, ?_⟩
    · rw [List.map_append, List.map_cons] at hp
      have := (hp.trans List.perm_middle).erase t.slot
      rwa [List.erase_cons_head, ← List.map_append] at this
    · -- the moved child is not among those that are in order
      replace ho : ((todo.filter (Target.stays stays) ++ done).map Target.slot).Sublist current := by
        have hno : t.index ∉ stays := by simpa using hstay
        simpa [List.filter_cons, Target.stays, hs, hno] using ho
      have := ho.erase t.slot
      rwa [List.erase_of_not_mem] at this
      intro hm
      have : t.slot ∈ (todo ++ done).map Target.slot :=
        ((List.filter_sublist.append_right done).map _).subset hm
      rw [List.map_append, List.map_cons, List.nodup_middle, ← List.map_append] at hn
      exact (List.nodup_cons.1 hn).1 this

/-- When all new children have been placed the slots are theirs, in their order. -/
theorem Arranged.settle (hn : ((todo ++ done).map Target.slot).Nodup)
    (h : Arranged stays todo done current) :
    settle stays (done.head?.map Target.slot) current todo.reverse =
      (todo ++ done).map Target.slot := by
  induction todo using List.reverseRecOn generalizing done current with
  | nil => exact (h.ordered.eq_of_length_le (by simpa using Nat.le_of_eq h.perm.length_eq)).symm
  | append_singleton todo t ih =>
    rw [List.append_assoc, List.singleton_append] at hn ⊢
    rw [List.reverse_append, List.reverse_singleton, List.singleton_append, MarkupSync.settle]
    exact ih hn (h.place hn)

end Arranged

/-! ## The first and the last list of slots -/

section Targets

variable {matched : List (Option Nat)} {new : List Node} {count : Nat}

theorem mem_targets {t : Target} : t ∈ targets matched new ↔
    matched[t.index]? = some t.source ∧ new[t.index]? = some t.node := by
  obtain ⟨index, source, node⟩ := t
  simp [targets, List.mk_mem_zipIdx_iff_getElem?, List.getElem?_zip_eq_some]

theorem targets_index (hl : matched.length = new.length) :
    (targets matched new).map Target.index = List.range new.length := by
  have : Target.index ∘ (fun ((source, node), index) => ⟨index, source, node⟩) = Prod.snd := rfl
  rw [targets, List.map_map, this, List.zipIdx_map_snd, ← List.range_eq_range']
  simp [hl]

theorem slot_eq_kept {t : Target} {i : Nat} : t.slot = .kept i ↔ t.source = some i := by
  rw [Target.slot]
  cases t.source <;> simp

theorem slot_eq_fresh {t : Target} {j : Nat} :
    t.slot = .fresh j ↔ t.source = none ∧ t.index = j := by
  rw [Target.slot]
  cases t.source <;> simp

/-- The slots of the new children are different. -/
theorem nodup_slots (hl : matched.length = new.length) (hd : (matched.filterMap id).Nodup) :
    ((targets matched new).map Target.slot).Nodup := by
  have hn : (targets matched new).Nodup :=
    .of_map Target.index (targets_index hl ▸ List.nodup_range)
  refine List.Nodup.map_on (fun t ht u hu h => ?_) hn
  rw [mem_targets] at ht hu
  have hindex : t.index = u.index := by
    cases hs : t.slot with
    | kept i =>
      rw [hs] at h
      rw [slot_eq_kept.1 hs] at ht
      rw [slot_eq_kept.1 h.symm] at hu
      exact index_unique hd ht.1 hu.1 rfl rfl
    | fresh j =>
      rw [hs] at h
      rw [(slot_eq_fresh.1 hs).2, (slot_eq_fresh.1 h.symm).2]
  rw [hindex] at ht
  obtain ⟨ti, ts, tn⟩ := t
  obtain ⟨ui, us, un⟩ := u
  simp_all

/-- At first the slots are those of the matched old children. -/
theorem perm_survivors (hl : matched.length = new.length) (hd : (matched.filterMap id).Nodup)
    (hlt : ∀ i, some i ∈ matched → i < count) :
    ((survivors matched count).map Slot.kept).Perm
      (((targets matched new).filter (·.source.isSome)).map Target.slot) := by
  rw [List.perm_ext_iff_of_nodup]
  · intro x
    simp only [survivors, List.mem_map, List.mem_filter, List.mem_range, List.contains_iff_mem]
    constructor
    · rintro ⟨i, ⟨-, hi⟩, rfl⟩
      obtain ⟨j, hj⟩ := List.mem_iff_getElem?.1 hi
      have hlt : j < new.length := hl ▸ (List.getElem?_eq_some_iff.1 hj).1
      exact ⟨⟨j, some i, new[j]⟩, ⟨mem_targets.2 ⟨hj, List.getElem?_eq_getElem hlt⟩, rfl⟩, rfl⟩
    · rintro ⟨t, ⟨ht, hs⟩, rfl⟩
      obtain ⟨i, hi⟩ := Option.isSome_iff_exists.1 hs
      have hm : some i ∈ matched := hi ▸ List.mem_of_getElem? (mem_targets.1 ht).1
      exact ⟨i, ⟨hlt i hm, hm⟩, (slot_eq_kept.2 hi).symm⟩
  · exact (List.nodup_range.filter _).map fun i j h => Slot.kept.inj h
  · exact (nodup_slots hl hd).sublist (List.filter_sublist.map _)

/-- The slot of the new child with an index. -/
def slotAt (matched : List (Option Nat)) (j : Nat) : Slot :=
  match matched[j]? with
  | some (some i) => .kept i
  | _ => .fresh j

theorem slot_eq_slotAt {t : Target} (ht : t ∈ targets matched new) :
    t.slot = slotAt matched t.index := by
  rw [slotAt, (mem_targets.1 ht).1, Target.slot]
  cases t.source <;> rfl

theorem getElem?_of_idxOf? {i j : Nat} (h : matched.idxOf? (some i) = some j) :
    matched[j]? = some (some i) := by
  obtain ⟨hj, hi, -⟩ := List.idxOf?_eq_some_iff.1 h
  rw [List.getElem?_eq_getElem hj, hi]

/-- The new indices of the children that are to stay. -/
theorem map_index_filter_stays (hl : matched.length = new.length) {stays : List Nat}
    (hs : stays.Sublist (newOrder matched count)) (hr : stays.Pairwise (· < ·)) :
    ((targets matched new).filter (Target.stays stays)).map Target.index = stays := by
  -- both lists rise
  have hrise : (((targets matched new).filter (Target.stays stays)).map Target.index).Pairwise
      (· < ·) := by
    refine List.Pairwise.sublist (List.filter_sublist.map _) ?_
    rw [targets_index hl]
    exact List.pairwise_lt_range
  refine List.Perm.eq_of_pairwise (fun a b _ _ h h' => absurd h' (Nat.lt_asymm h)) hrise hr ?_
  rw [List.perm_ext_iff_of_nodup (hrise.imp Nat.ne_of_lt) (hr.imp Nat.ne_of_lt)]
  intro j
  simp only [List.mem_map, List.mem_filter, Target.stays, Bool.and_eq_true, List.contains_iff_mem]
  constructor
  · rintro ⟨t, ⟨-, -, ht⟩, rfl⟩
    exact ht
  · intro hj
    obtain ⟨i, -, hi⟩ := List.mem_filterMap.1 (hs.subset hj)
    have hlt : j < new.length := hl ▸ (List.getElem?_eq_some_iff.1 (getElem?_of_idxOf? hi)).1
    exact ⟨⟨j, some i, new[j]⟩,
      ⟨mem_targets.2 ⟨getElem?_of_idxOf? hi, List.getElem?_eq_getElem hlt⟩, rfl, hj⟩, rfl⟩

/-- The old children that are to stay are in order at first. -/
theorem sublist_survivors (hl : matched.length = new.length) {stays : List Nat}
    (hs : stays.Sublist (newOrder matched count)) (hr : stays.Pairwise (· < ·)) :
    (((targets matched new).filter (Target.stays stays)).map Target.slot).Sublist
      ((survivors matched count).map Slot.kept) := by
  have hstays := map_index_filter_stays hl hs hr
  obtain ⟨kept, hk, rfl⟩ := List.sublist_filterMap_iff.1 hs
  have hslots : ((targets matched new).filter (Target.stays
      (kept.filterMap fun i => matched.idxOf? (some i)))).map Target.slot = kept.map Slot.kept := calc
    ((targets matched new).filter _).map Target.slot
      = (((targets matched new).filter _).map Target.index).map (slotAt matched) := by
        rw [List.map_map]
        exact List.map_congr_left fun t ht => slot_eq_slotAt (List.mem_filter.1 ht).1
    _ = (kept.filterMap fun i => matched.idxOf? (some i)).map (slotAt matched) := by rw [hstays]
    _ = kept.map Slot.kept := by
        rw [List.map_filterMap, ← List.filterMap_eq_map]
        refine List.filterMap_congr fun i hi => ?_
        obtain ⟨j, hj⟩ := Option.isSome_iff_exists.1 (List.isSome_idxOf?.2
          (List.contains_iff_mem.1 (List.mem_filter.1 (hk.subset hi)).2))
        simp [hj, slotAt, getElem?_of_idxOf? hj]
  rw [hslots]
  exact hk.map Slot.kept

/-- At first, when none of the new children has been placed, the slots are arranged. -/
theorem arranged_survivors (hl : matched.length = new.length) (hd : (matched.filterMap id).Nodup)
    (hlt : ∀ i, some i ∈ matched → i < count) :
    Arranged (longestRise (newOrder matched count)) (targets matched new) []
      ((survivors matched count).map Slot.kept) := by
  constructor
  · rw [List.append_nil]
    exact perm_survivors hl hd hlt
  · rw [List.append_nil]
    exact sublist_survivors hl (longestRise_sublist _) (longestRise_pairwise _)

/-- **In the end the slots are those of the new children, in their order.** -/
theorem settle_targets (hl : matched.length = new.length) (hd : (matched.filterMap id).Nodup)
    (hlt : ∀ i, some i ∈ matched → i < count) :
    settle (longestRise (newOrder matched count)) none ((survivors matched count).map Slot.kept)
      (targets matched new).reverse = (targets matched new).map Target.slot := by
  have hn := nodup_slots hl hd
  simpa using (arranged_survivors hl hd hlt).settle (by simpa using hn)

end Targets

end MarkupSync
