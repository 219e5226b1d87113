import MarkupSync.Proofs.Diff.Continued
import MarkupSync.Proofs.Patch.Shadow
import MarkupSync.Proofs.Tree.Map

/-!
# Moves are minimal

* `Edit.movesTo`: an edit that moves a node to a place among the children of a node;
* `countP_placements`: the children that are moved are those that continue others and do not stay;
* `Node.countP_diff`: a difference moves all matched children of an element but those of a longest
  rise;
* `Shadow.identities`: which children of the old document a list of children consists of;
* `Edit.Rearranges`: insertions, removals and moves in one list of children.
  `Shadow.exists_kept_of_edit`, `Shadow.exists_kept_of_applyAll`: children that end in some order
  were in this order before, except for one child for every move;
* `exists_rise`: children in the same order in the old and the new list are a rise;
* **`Node.minimal_moves_diff`**: no way to bring the matched children into their new order needs fewer
  moves than the difference.
-/

namespace MarkupSync

namespace Edit

/-- Whether an edit moves a node to a place among the children of the node at a path. -/
def movesTo (p : NodePath) : Edit → Bool
  | move _ parent _ => parent == p
  | insert .. | remove _ | replace .. | updateAttributes .. | updateText .. => false

variable {p : NodePath} {e : Edit}

theorem placedIn?_of_movesTo (h : e.movesTo p = true) : e.placedIn? = some p := by
  cases e with
  | move source parent k =>
    exact congrArg some (eq_of_beq h)
  | insert | remove | replace | updateAttributes | updateText => cases h

theorem Places.movesTo_under (h : e.Places) (p : NodePath) :
    (e.under p).movesTo p = e.movesTo [] := by
  cases h with
  | insert => rfl
  | move => simp [under, movesTo]

/-- The moves among the children of a node are among the edits that put nodes there. -/
theorem countP_placedIn (p : NodePath) (es : List Edit) :
    (placedIn p es).countP (movesTo p) = es.countP (movesTo p) := by
  rw [placedIn, List.countP_filter]
  refine List.countP_congr fun e _ => ?_
  rw [Bool.and_eq_true]
  exact ⟨fun h => h.1, fun h => ⟨h, by rw [placedIn?_of_movesTo h]; exact beq_self_eq_true _⟩⟩

end Edit

/-! ## The moves of a difference -/

/-- Whether a new child continues an old one that is moved. -/
def Target.isMoved (stays : List Nat) (t : Target) : Bool :=
  t.source.isSome && !stays.contains t.index

/-- The children that are moved are those that continue others and do not stay. -/
theorem countP_placements {stays : List Nat} {todo done : List Target} {current : List Slot}
    (hn : ((todo ++ done).map Target.slot).Nodup) (h : Arranged stays todo done current) :
    (placements [] stays (done.head?.map Target.slot) current todo.reverse).countP
      (Edit.movesTo []) = todo.countP (Target.isMoved stays) := by
  induction todo using List.reverseRecOn generalizing done current with
  | nil => rfl
  | append_singleton todo t ih =>
    rw [List.append_assoc, List.singleton_append] at hn
    have hplace := h.place hn
    rw [List.reverse_append, List.reverse_singleton, List.singleton_append, placements,
      List.countP_append, List.countP_singleton]
    cases hs : t.source with
    | none =>
      have hmoved : t.isMoved stays = false := by simp [Target.isMoved, hs]
      simp only [place, hs] at hplace
      simp only [hmoved, List.countP_cons]
      exact ih hn hplace
    | some i =>
      by_cases hstay : t.index ∈ stays
      · have hmoved : t.isMoved stays = false := by simp [Target.isMoved, hstay]
        simp only [place, hs, List.contains_iff_mem, hstay, if_true] at hplace
        simp only [List.contains_iff_mem, hstay, if_true, hmoved]
        exact ih hn hplace
      · have hmoved : t.isMoved stays = true := by simp [Target.isMoved, hs, hstay]
        have hmem : t.slot ∈ current := h.perm.mem_iff.2 (by simp [hs])
        obtain ⟨source, hsource⟩ := Option.isSome_iff_exists.1 (List.isSome_idxOf?.2 hmem)
        simp only [place, hs, List.contains_iff_mem, hstay, if_false, hsource] at hplace
        simp only [List.contains_iff_mem, hstay, if_false, hsource, hmoved, List.countP_cons]
        exact congrArg (· + 1) (ih hn hplace)

section Targets

variable {matched : List (Option Nat)} {new : List Node}

theorem map_source_targets (hl : matched.length = new.length) :
    (targets matched new).map Target.source = matched := by
  rw [targets, List.map_map]
  show (matched.zip new).zipIdx.map (Prod.fst ∘ Prod.fst) = matched
  rw [← List.map_map, List.zipIdx_map_fst, List.map_fst_zip (Nat.le_of_eq hl)]

/-- All children that continue others are moved, but those that stay. -/
theorem countP_isMoved (hl : matched.length = new.length) {count : Nat} {stays : List Nat}
    (hs : stays.Sublist (newOrder matched count)) (hr : stays.Pairwise (· < ·)) :
    (targets matched new).countP (Target.isMoved stays) + stays.length =
      matched.countP Option.isSome := by
  have hstays : (targets matched new).countP (Target.stays stays) = stays.length := by
    rw [List.countP_eq_length_filter, ← List.length_map (f := Target.index),
      map_index_filter_stays hl hs hr]
  have hsome : (targets matched new).countP (fun t => t.source.isSome) =
      matched.countP Option.isSome := by
    conv_rhs => rw [← map_source_targets hl, List.countP_map]
    rfl
  have hsplit := List.countP_eq_countP_filter_add (targets matched new) (fun t => t.source.isSome)
    fun t => stays.contains t.index
  rw [List.countP_filter, List.countP_filter] at hsplit
  rw [← hsome, ← hstays, hsplit, Nat.add_comm]
  rfl

end Targets

/-- What a difference moves among the children of an element that it keeps, and a longest rise in the
new order of these children, are all of them that continue others. -/
theorem Node.countP_diff {old new : Node} {p q : NodePath} {tag tag' : Text} {as st bs rt : Attrs}
    {cs ds : List Node} (h : continued? old new q = some p)
    (ho : Tree.descend old p = some (.element tag as st cs))
    (hn : Tree.descend new q = some (.element tag' bs rt ds)) :
    (diff old new).countP (Edit.movesTo p) +
        (longestRise (newOrder (matching cs ds) cs.length)).length =
      (matching cs ds).countP Option.isSome := by
  have hl : (matching cs ds).length = ds.length := length_matching cs ds
  have hd : ((matching cs ds).filterMap id).Nodup := nodup_matching cs ds
  have hunder : ∀ es : List Edit, (∀ e ∈ es, e.Places) →
      (es.map (Edit.under p)).countP (Edit.movesTo p) = es.countP (Edit.movesTo []) := by
    intro es hes
    rw [List.countP_map]
    refine List.countP_congr fun e he => ?_
    rw [Function.comp_apply, (hes e he).movesTo_under]
  have hslots : ((targets (matching cs ds) ds ++ []).map Target.slot).Nodup := by
    rw [List.append_nil]
    exact nodup_slots hl hd
  rw [← Edit.countP_placedIn, placedIn_diff h ho hn,
    hunder _ fun e he => places_of_mem_placements he]
  exact (congrArg (· + _) (countP_placements hslots
    (arranged_survivors hl hd fun _ => lt_of_mem_matching))).trans
      (countP_isMoved hl (longestRise_sublist _) (longestRise_pairwise _))

/-! ## Any other way -/

namespace Shadow

/-- The paths in the old document of the children of a node. A new child has none. -/
def identities (s : Shadow) (p : NodePath) : List (Option NodePath) :=
  match Tree.childrenAt s p with
  | .error _ => []
  | .ok cs => cs.map fun c => c.origin.map Origin.path

variable {s t : Shadow} {cs : List Shadow} {p : NodePath}

theorem identities_eq (h : Tree.childrenAt s p = .ok cs) :
    s.identities p = cs.map fun c => c.origin.map Origin.path := by
  rw [identities, h]

/-- At first all children are old ones. -/
theorem none_notMem_identities (hs : s.IsSourced) : none ∉ s.identities p := by
  rw [identities]
  split
  · exact List.not_mem_nil
  next cs hcs =>
    intro h
    obtain ⟨c, hc, hnone⟩ := List.mem_map.1 h
    obtain ⟨i, hi⟩ := List.mem_iff_getElem?.1 hc
    obtain ⟨o, ho⟩ := Option.isSome_iff_exists.1
      (hs.descend (Tree.descend_child_iff.2 ⟨cs, hcs, hi⟩)).isSome_origin
    rw [ho] at hnone
    cases hnone

/-- At first all children are different ones. -/
theorem nodup_identities (hown : s.HasOwnOrigins) (hs : s.IsSourced) : (s.identities p).Nodup := by
  cases hcs : Tree.childrenAt s p with
  | error => simp [identities, hcs]
  | ok cs =>
    have hnone := none_notMem_identities (p := p) hs
    rw [identities_eq hcs] at hnone ⊢
    rw [List.nodup_iff_getElem?_ne_getElem?]
    intro i j hij hj heq
    rw [List.length_map] at hj
    have hi : i < cs.length := Nat.lt_trans hij hj
    rw [List.getElem?_map, List.getElem?_map, List.getElem?_eq_getElem hi,
      List.getElem?_eq_getElem hj, Option.map_some, Option.map_some] at heq
    obtain ⟨r, hr⟩ := Option.ne_none_iff_exists'.1 fun h : cs[i].origin.map Origin.path = none =>
      hnone (List.mem_map.2 ⟨_, List.getElem_mem hi, h⟩)
    obtain ⟨o, ho, hor⟩ := Option.map_eq_some_iff.1 hr
    obtain ⟨o', ho', hor'⟩ := Option.map_eq_some_iff.1 ((Option.some.inj heq).symm.trans hr)
    have hpaths : p.child i = p.child j := hown.eq_of_origin
      (Tree.descend_child_iff.2 ⟨cs, hcs, List.getElem?_eq_getElem hi⟩)
      (Tree.descend_child_iff.2 ⟨cs, hcs, List.getElem?_eq_getElem hj⟩) ho ho' (hor.trans hor'.symm)
    exact Nat.ne_of_lt hij (p.child_injective hpaths)

end Shadow

/-- An insertion, a removal or a move among the children of the node at a path. -/
inductive Edit.Rearranges (p : NodePath) : Edit → Prop
  | insert {index : Nat} {n : Node} : Rearranges p (.insert p index n)
  | remove {index : Nat} : Rearranges p (.remove (p.child index))
  | move {source index : Nat} : Rearranges p (.move (p.child source) p index)

/-- What is in order in a list with one more item is in order without it, but for this item. -/
theorem sublist_of_sublist_insertIdx {α : Type} {l w : List α} {k : Nat} {x : α}
    (h : w.Sublist (l.insertIdx k x)) :
    w.Sublist l ∨ ∃ front back, w = front ++ x :: back ∧ (front ++ back).Sublist l := by
  induction l generalizing k w with
  | nil =>
    cases k with
    | zero =>
      obtain rfl | rfl := List.sublist_singleton.1 h
      · exact .inl (List.nil_sublist _)
      · exact .inr ⟨[], [], rfl, List.nil_sublist _⟩
    | succ k => exact .inl h
  | cons y l ih =>
    cases k with
    | zero =>
      obtain hw | ⟨back, rfl, hback⟩ := List.sublist_cons_iff.1 h
      · exact .inl hw
      · exact .inr ⟨[], back, rfl, hback⟩
    | succ k =>
      rw [List.insertIdx_succ_cons] at h
      obtain hw | ⟨w, rfl, hw⟩ := List.sublist_cons_iff.1 h
      · obtain hl | ⟨front, back, rfl, hl⟩ := ih hw
        · exact .inl (hl.cons y)
        · exact .inr ⟨front, back, rfl, hl.cons y⟩
      · obtain hl | ⟨front, back, rfl, hl⟩ := ih hw
        · exact .inl (hl.cons_cons y)
        · exact .inr ⟨y :: front, back, rfl, hl.cons_cons y⟩

namespace Shadow

variable {s t : Shadow} {p : NodePath} {e : Edit} {es : List Edit} {kept : List (Option NodePath)}

/-- **Children that are in some order after an insertion, a removal or a move** were in this order
before, except for the one that was moved. -/
theorem exists_kept_of_edit (he : e.Rearranges p) (h : s.edit e = .ok t) (hnone : none ∉ kept)
    (hk : kept.Sublist (t.identities p)) :
    ∃ kept' : List (Option NodePath), kept'.Sublist kept ∧ kept'.Sublist (s.identities p) ∧
      kept.length ≤ kept'.length + [e].countP (Edit.movesTo p) := by
  cases he with
  | @insert index n =>
    obtain ⟨cs, hcs, -, ht⟩ := Tree.childrenAt_insertAt h
    rw [identities_eq ht, List.map_insertIdx] at hk
    rw [identities_eq hcs]
    obtain hsub | ⟨front, back, rfl, -⟩ := sublist_of_sublist_insertIdx hk
    · exact ⟨kept, .refl _, hsub, Nat.le_add_right ..⟩
    · -- a new child has no path in the old document
      rw [origin_fresh] at hnone
      exact absurd (List.mem_append_right front List.mem_cons_self) hnone
  | @remove index =>
    obtain ⟨⟨n, rest⟩, hd, rfl⟩ := exists_of_map_eq_ok h
    obtain ⟨cs, hcs, -, ht⟩ := Tree.childrenAt_detach hd
    rw [identities_eq ht, ← List.eraseIdx_map] at hk
    rw [identities_eq hcs]
    exact ⟨kept, .refl _, hk.trans (List.eraseIdx_sublist ..), Nat.le_add_right ..⟩
  | @move source index =>
    obtain ⟨fault, -, hm⟩ | ⟨n, rest, hd, hi⟩ := Tree.move_cases s (p.child source) p index
    · rw [edit, hm] at h
      cases h
    obtain ⟨fault, -, hm⟩ | ⟨u, hi, hm⟩ := hi
    · rw [edit, hm] at h
      cases h
    rw [edit, hm] at h
    cases h
    obtain ⟨cs, hcs, -, hrest⟩ := Tree.childrenAt_detach hd
    obtain ⟨ds, hds, -, ht⟩ := Tree.childrenAt_insertAt hi
    cases hrest.symm.trans hds
    rw [identities_eq ht, List.map_insertIdx, ← List.eraseIdx_map] at hk
    rw [identities_eq hcs]
    have hcount : [Edit.move (p.child source) p index].countP (Edit.movesTo p) = 1 := by
      simp [Edit.movesTo]
    rw [hcount]
    obtain hsub | ⟨front, back, rfl, hsub⟩ := sublist_of_sublist_insertIdx hk
    · exact ⟨kept, .refl _, hsub.trans (List.eraseIdx_sublist ..), Nat.le_succ _⟩
    · refine ⟨front ++ back, (List.sublist_cons_self ..).append_left front,
        hsub.trans (List.eraseIdx_sublist ..), Nat.le_of_eq ?_⟩
      simp [Nat.add_assoc]

/-- Children that are in some order after several such edits were in this order before, except for one
child for every move. -/
theorem exists_kept_of_applyAll (he : ∀ e ∈ es, e.Rearranges p) (h : s.applyAll es = .ok t)
    (hnone : none ∉ kept) (hk : kept.Sublist (t.identities p)) :
    ∃ kept' : List (Option NodePath), kept'.Sublist kept ∧ kept'.Sublist (s.identities p) ∧
      kept.length ≤ kept'.length + es.countP (Edit.movesTo p) := by
  induction es generalizing s with
  | nil =>
    cases h
    exact ⟨kept, .refl _, hk, Nat.le_refl _⟩
  | cons e es ih =>
    obtain ⟨u, hu, hut⟩ := exists_of_applyAll_cons h
    obtain ⟨he, hes⟩ := List.forall_mem_cons.1 he
    obtain ⟨kept₁, hsub₁, hk₁, hlen₁⟩ := ih hes hut
    obtain ⟨kept₂, hsub₂, hk₂, hlen₂⟩ :=
      exists_kept_of_edit he hu (fun hmem => hnone (hsub₁.subset hmem)) hk₁
    refine ⟨kept₂, hsub₂.trans hsub₁, hk₂, ?_⟩
    rw [← List.singleton_append, List.countP_append]
    omega

end Shadow

/-! ## Minimality -/

section Kept

variable {matched : List (Option Nat)} {count : Nat}

/-- The new indices of matched children rise in the new order. -/
theorem pairwise_newIndices (hd : (matched.filterMap id).Nodup) :
    ((matched.filterMap id).filterMap fun i => matched.idxOf? (some i)).Pairwise (· < ·) := by
  rw [List.filterMap_filterMap, List.pairwise_filterMap, List.pairwise_iff_getElem]
  intro a b ha hb hab j hj j' hj'
  obtain ⟨i, hi, hj⟩ := Option.bind_eq_some_iff.1 hj
  obtain ⟨i', hi', hj'⟩ := Option.bind_eq_some_iff.1 hj'
  have hja := index_unique hd (getElem?_of_idxOf? hj) (List.getElem?_eq_getElem ha) rfl hi
  have hjb := index_unique hd (getElem?_of_idxOf? hj') (List.getElem?_eq_getElem hb) rfl hi'
  omega

/-- Children that are in the same order in the old and in the new list are a rise of the new
indices. -/
theorem exists_rise {α : Type} [DecidableEq α] (hd : (matched.filterMap id).Nodup) {old kept : List α}
    (hlt : ∀ i, some i ∈ matched → i < old.length) (hold : old.Nodup)
    (hk : kept.Sublist old) (hnew : kept.Sublist (matched.filterMap fun source =>
      source.bind (old[·]?))) : ∃ rise : List Nat, rise.Sublist (newOrder matched old.length) ∧
      rise.Pairwise (· < ·) ∧ rise.length = kept.length := by
  -- the old indices of the kept children
  have hmatched : (matched.filterMap fun source => source.bind (old[·]?)) =
      (matched.filterMap id).filterMap (old[·]?) := by
    rw [List.filterMap_filterMap]
    rfl
  rw [hmatched] at hnew
  obtain ⟨indices, hsub, rfl⟩ := List.sublist_filterMap_iff.1 hnew
  have hmem : ∀ i ∈ indices, some i ∈ matched := fun i hi => by simpa using hsub.subset hi
  have hindices : (indices.filterMap (old[·]?)).map old.idxOf = indices := by
    rw [List.map_filterMap]
    refine (List.filterMap_congr fun i hi => ?_).trans List.filterMap_some
    rw [List.getElem?_eq_getElem (hlt i (hmem i hi)), Option.map_some, hold.idxOf_getElem]
  have hrange : old.map old.idxOf = List.range old.length :=
    List.ext_getElem (by simp) fun i hi _ => by simp [hold.idxOf_getElem]
  have hsurvivors : indices.Sublist (survivors matched old.length) := by
    have := (hk.map old.idxOf).filter fun i => matched.contains (some i)
    rwa [hrange, hindices, List.filter_eq_self.2 fun i hi => List.contains_iff_mem.2 (hmem i hi)]
      at this
  refine ⟨indices.filterMap fun i => matched.idxOf? (some i), hsurvivors.filterMap _,
    (pairwise_newIndices hd).sublist (hsub.filterMap _), ?_⟩
  have hfound : ∀ i ∈ indices, (matched.idxOf? (some i)).isSome := fun i hi =>
    List.isSome_idxOf?.2 (hmem i hi)
  have hthere : ∀ i ∈ indices, (old[i]?).isSome := fun i hi => by
    rw [List.getElem?_eq_getElem (hlt i (hmem i hi))]
    rfl
  rw [List.filterMap_length_eq_length.2 hfound, List.filterMap_length_eq_length.2 hthere]

end Kept

namespace Shadow

variable {s t : Shadow} {p : NodePath} {es : List Edit} {matched : List (Option Nat)}

theorem length_identities {tag : Text} {as st : Attrs} {cs : List Node}
    (h : Tree.descend s.toNode p = some (.element tag as st cs)) :
    (s.identities p).length = cs.length := by
  rw [isMap_toNode.descend] at h
  obtain ⟨x, hx, hxo⟩ := Option.map_eq_some_iff.1 h
  cases x with
  | text => cases hxo
  | element =>
    cases hxo
    rw [identities_eq (Tree.childrenAt_eq_ok_iff.2 ⟨_, hx, rfl⟩), List.length_map, toNodes_eq_map,
      List.length_map]

/-- Edits that bring matched children into their new order move all of them but those of a rise. -/
theorem countP_le_of_ordered (hown : s.HasOwnOrigins) (hs : s.IsSourced)
    (hd : (matched.filterMap id).Nodup) (hlt : ∀ i, some i ∈ matched → i < (s.identities p).length)
    (hes : ∀ e ∈ es, e.Rearranges p) (ht : s.applyAll es = .ok t)
    (horder : (matched.filterMap fun source => source.bind ((s.identities p)[·]?)).Sublist
      (t.identities p)) : ∃ rise : List Nat,
      rise.Sublist (newOrder matched (s.identities p).length) ∧ rise.Pairwise (· < ·) ∧
      matched.countP Option.isSome ≤ rise.length + es.countP (Edit.movesTo p) := by
  have hnone : none ∉ matched.filterMap fun source => source.bind ((s.identities p)[·]?) := by
    intro hmem
    obtain ⟨source, -, hsource⟩ := List.mem_filterMap.1 hmem
    obtain ⟨i, -, hi⟩ := Option.bind_eq_some_iff.1 hsource
    exact none_notMem_identities hs (List.mem_of_getElem? hi)
  obtain ⟨kept, hnew, hold, hmoves⟩ := exists_kept_of_applyAll hes ht hnone horder
  obtain ⟨rise, hsub, hrises, hrise⟩ := exists_rise hd hlt (nodup_identities hown hs) hold hnew
  have hall : (matched.filterMap fun source => source.bind ((s.identities p)[·]?)).length =
      matched.countP Option.isSome := by
    rw [List.length_filterMap_eq_countP]
    refine List.countP_congr fun source hsource => ?_
    cases source with
    | none => rfl
    | some i => simp [hlt i hsource]
  exact ⟨rise, hsub, hrises, hall ▸ hrise ▸ hmoves⟩

end Shadow

namespace Node

/-- **Moves are minimal.** Among the children of an element that it keeps a difference moves all that
continue others, except for a longest rise of their new indices in the old order. No insertions,
removals and moves in this list of children that bring the matched ones into their new order have
fewer moves. -/
theorem minimal_moves_diff {old new : Node} {p q : NodePath} {tag tag' : Text}
    {as st bs rt : Attrs} {cs ds : List Node} (h : continued? old new q = some p)
    (ho : Tree.descend old p = some (.element tag as st cs))
    (hn : Tree.descend new q = some (.element tag' bs rt ds)) :
    let matched := matching cs ds
    let moves := (diff old new).countP (Edit.movesTo p)
    (∃ rise, IsLongestRise (newOrder matched cs.length) rise) ∧
    (∀ rise, IsLongestRise (newOrder matched cs.length) rise →
      moves + rise.length = matched.countP Option.isSome) ∧
    ∀ s : Shadow, s.HasOwnOrigins → s.IsSourced → s.toNode = old →
      ∀ es t, (∀ e ∈ es, e.Rearranges p) → s.applyAll es = .ok t →
        (matched.filterMap fun source => source.bind ((s.identities p)[·]?)).Sublist
          (t.identities p) → moves ≤ es.countP (Edit.movesTo p) := by
  intro matched moves
  have hcount : moves + (longestRise (newOrder matched cs.length)).length =
    matched.countP Option.isSome := countP_diff h ho hn
  have hlongest := isLongestRise_longestRise (newOrder matched cs.length)
  refine ⟨⟨_, hlongest⟩, fun rise hrise => ?_, ?_⟩
  · rw [hrise.length_eq hlongest]
    exact hcount
  rintro s hown hs rfl es t hes ht horder
  have hlength := Shadow.length_identities ho
  have hd : (matched.filterMap id).Nodup := nodup_matching cs ds
  obtain ⟨rise, hsub, hrises, hle⟩ := Shadow.countP_le_of_ordered hown hs hd
    (fun i hi => hlength ▸ lt_of_mem_matching hi) hes ht horder
  rw [hlength] at hsub
  have := hlongest.longest rise hsub hrises
  omega

/-- Three items, of which the last comes to the front: the difference moves only this one, and it
takes a move to bring the items into the new order. -/
theorem minimal_moves_diff_items :
    let key (name : Char) := Attrs.ofList [(keyName, [name])]
    let item (name : Char) := Node.element [] (key name) .empty []
    let own (path : NodePath) : Option Origin := some ⟨path, default, default⟩
    let old := root [item 'a', item 'b', item 'c']
    let new := root [item 'c', item 'a', item 'b']
    let s := Shadow.element (own []) rootTag .empty .empty
      [.element (own [0]) [] (key 'a') .empty [], .element (own [1]) [] (key 'b') .empty [],
        .element (own [2]) [] (key 'c') .empty []]
    continued? old new [] = some [] ∧ s.HasOwnOrigins ∧ s.IsSourced ∧ s.toNode = old ∧
    IsLongestRise [1, 2, 0] [1, 2] ∧ (diff old new).countP (Edit.movesTo []) = 1 ∧
    (∃ t, s.applyAll [.move [2] [] 0] = .ok t ∧ t.identities [] = [some [2], some [0], some [1]]) ∧
    ∀ es t, (∀ e ∈ es, e.Rearranges []) → s.applyAll es = .ok t →
      [some [2], some [0], some [1]].Sublist (t.identities []) →
        1 ≤ es.countP (Edit.movesTo []) := by
  intro key item own old new s
  have hown : s.HasOwnOrigins := by
    show ([[], [0], [1], [2]] : List NodePath).Nodup
    decide
  have hs : s.IsSourced := by simp [s, own, Shadow.IsSourced, Shadow.AreSourced]
  have hcontinued : continued? old new [] = some [] := rfl
  have hrise : IsLongestRise [1, 2, 0] [1, 2] := isLongestRise_longestRise [1, 2, 0]
  obtain ⟨-, hcount, hleast⟩ := minimal_moves_diff hcontinued rfl rfl
  have hmoves : (diff old new).countP (Edit.movesTo []) = 1 :=
    Nat.add_right_cancel (m := 2) (hcount [1, 2] hrise)
  refine ⟨hcontinued, hown, hs, rfl, hrise, hmoves, ⟨_, rfl, rfl⟩, fun es t hes ht horder => ?_⟩
  rw [← hmoves]
  exact hleast s hown hs rfl es t hes ht horder

end Node

end MarkupSync
