import MarkupSync.Proofs.Diff.Reach

/-!
# Trees without a difference

* `longestRise_eq_self`: a rising list of numbers is its own longest rise;
* `matching_of_sameAll`: children that are the same continue each other in order;
* `rearrangement_range`: children that continue each other in order stay where they are;
* `Node.diff_of_same`: trees that are equal up to the order of attributes have no difference;
* **`Node.diff_eq_nil_iff`**: and no others.
-/

namespace MarkupSync

/-! ## Rising lists -/

/-- A number behind which all piles stand starts a pile of its own. -/
theorem layOn_of_lt {v : Nat} {below : List Nat} {piles : List (List Nat)}
    (h : ∀ pile ∈ piles, pile.headD 0 < v) :
    layOn v below piles = piles ++ [v :: piles.getLastD below] := by
  induction piles generalizing below with
  | nil => rfl
  | cons pile piles ih =>
    rw [layOn, if_pos (h pile List.mem_cons_self), ih fun p hp => h p (List.mem_cons_of_mem _ hp),
      List.getLastD_cons]
    rfl

theorem pilesOf_of_pairwise {l : List Nat} (h : l.Pairwise (· < ·)) :
    (pilesOf l).getLastD [] = l.reverse ∧ ∀ pile ∈ pilesOf l, pile.headD 0 ∈ l := by
  induction l using List.reverseRecOn with
  | nil => exact ⟨rfl, nofun⟩
  | append_singleton l v ih =>
    obtain ⟨hl, -, hv⟩ := List.pairwise_append.1 h
    obtain ⟨hlast, hheads⟩ := ih hl
    have hlt : ∀ pile ∈ pilesOf l, pile.headD 0 < v := fun pile hpile =>
      hv _ (hheads pile hpile) v List.mem_cons_self
    rw [pilesOf_concat, layOn_of_lt hlt, hlast]
    refine ⟨by simp, fun pile hpile => ?_⟩
    obtain hpile | hpile := List.mem_append.1 hpile
    · exact List.mem_append_left _ (hheads pile hpile)
    · rw [List.mem_singleton.1 hpile]
      exact List.mem_append_right _ List.mem_cons_self

/-- **A rising list of numbers is its own longest rise.** -/
theorem longestRise_eq_self {l : List Nat} (h : l.Pairwise (· < ·)) : longestRise l = l := by
  rw [longestRise, (pilesOf_of_pairwise h).1, List.reverse_reverse]

/-! ## Children in order -/

/-- Children that find themselves by their keys, or are next, match themselves. -/
theorem matchFrom_zipIdx {key : Node → Option Text} {find : Text → Option Nat} {ns : List Node}
    {k : Nat} (hfind : ∀ n i, (n, i) ∈ ns.zipIdx k → ∀ w, key n = some w → find w = some i) :
    matchFrom key find (((ns.zipIdx k).filter fun (n, _) => (key n).isNone).map Prod.snd) ns =
      (List.range' k ns.length).map some := by
  induction ns generalizing k with
  | nil => rfl
  | cons n ns ih =>
    have hrest := ih fun m i hm => hfind m i (List.mem_cons_of_mem _ hm)
    rw [List.zipIdx_cons, List.length_cons, List.range'_succ, List.map_cons, ← hrest]
    cases hk : key n with
    | some w =>
      rw [List.filter_cons_of_neg (by simp [hk])]
      simp only [matchFrom, hk, hfind n k List.mem_cons_self w hk]
    | none =>
      rw [List.filter_cons_of_pos (by simp [hk]), List.map_cons]
      simp only [matchFrom, hk]

variable {old new : List Node}

/-- What children match depends only on their keys. -/
theorem matching_congr (h : old.map Node.key? = new.map Node.key?) (ns : List Node) :
    matching old ns = matching new ns := by
  have hunique (l : List Node) : l.map (uniqueKey? l) = (l.map Node.key?).map fun key =>
      key.filter fun k => (l.map Node.key?).countP (· == some k) = 1 := by
    simp [uniqueKey?, List.countP_map, Function.comp_def]
  have hkeys : old.map (uniqueKey? old) = new.map (uniqueKey? new) := by
    rw [hunique, hunique, h]
  have hloose (l : List Node) : looseIndices l =
      ((l.map (uniqueKey? l)).zipIdx.filter fun x => x.1.isNone).map Prod.snd := by
    simp [looseIndices, List.zipIdx_map, List.filter_map, Function.comp_def]
  have hfind (l : List Node) (k : Text) : l.findIdx? (uniqueKey? l · == some k) =
      (l.map (uniqueKey? l)).findIdx? (· == some k) := by
    simp [List.findIdx?_map, Function.comp_def]
  simp only [matching, hloose, hfind, hkeys]

theorem matching_self (ns : List Node) : matching ns ns = (List.range ns.length).map some := by
  rw [List.range_eq_range']
  refine matchFrom_zipIdx fun n i hn w hw => ?_
  have hn := List.mem_zipIdx_iff_getElem?.1 hn
  have hsome : (ns.findIdx? (uniqueKey? ns · == some w)).isSome := by
    rw [List.findIdx?_isSome, List.any_eq_true]
    exact ⟨n, List.mem_of_getElem? hn, by simp [hw]⟩
  obtain ⟨j, hj⟩ := Option.isSome_iff_exists.1 hsome
  obtain ⟨m, hm, hk⟩ := uniqueKey?_of_findIdx? hj
  rw [hj, index_unique (nodup_uniqueKeys ns) hm hn hk hw]

theorem Node.Same.key? {n m : Node} (h : n.Same m) : n.key? = m.key? := by
  cases n <;> cases m
  case text.text => rfl
  case element.element => exact h.2.1 _
  all_goals exact h.elim

theorem Node.SameAll.map_key? (h : SameAll old new) : old.map Node.key? = new.map Node.key? := by
  induction old generalizing new with
  | nil => cases new with
    | nil => rfl
    | cons => exact h.elim
  | cons n old ih => cases new with
    | nil => exact h.elim
    | cons m new => rw [List.map_cons, List.map_cons, h.1.key?, ih h.2]

/-- **Children that are the same continue each other in order.** -/
theorem matching_of_sameAll (h : Node.SameAll old new) :
    matching old new = (List.range new.length).map some := by
  rw [matching_congr h.map_key?, matching_self]

/-! ## Nothing to rearrange -/

theorem survivors_range (count : Nat) :
    survivors ((List.range count).map some) count = List.range count := by
  rw [survivors, List.filter_eq_self]
  intro i hi
  simpa using hi

theorem newOrder_range (count : Nat) :
    newOrder ((List.range count).map some) count = List.range count := by
  have hfind : ∀ i ∈ List.range count,
      ((List.range count).map some).idxOf? (some i) = some i := fun i hi => by
    rw [List.idxOf?_eq_some_iff]
    have hlt := List.mem_range.1 hi
    exact ⟨by simpa using hlt, by simp, fun j hj => by simpa using Nat.ne_of_lt hj⟩
  rw [newOrder, survivors_range, List.filterMap_congr hfind, List.filterMap_some]

/-- Old children that all stay need not be placed. -/
theorem placements_eq_nil {path : NodePath} {stays : List Nat} {anchor : Option Slot}
    {current : List Slot} {ts : List Target}
    (h : ∀ t ∈ ts, t.source.isSome = true ∧ t.index ∈ stays) :
    placements path stays anchor current ts = [] := by
  induction ts generalizing anchor with
  | nil => rfl
  | cons t ts ih =>
    obtain ⟨hsource, hstays⟩ := h t List.mem_cons_self
    obtain ⟨i, hi⟩ := Option.isSome_iff_exists.1 hsource
    simp only [placements, hi, List.contains_iff_mem, hstays, if_true]
    exact ih fun u hu => h u (List.mem_cons_of_mem t hu)

/-- **Children that continue each other in order stay where they are.** -/
theorem rearrangement_range (path : NodePath) (new : List Node) :
    rearrangement path ((List.range new.length).map some) new.length new = [] := by
  have hremovals : removals path ((List.range new.length).map some) new.length = [] := by
    simp [removals]
  rw [rearrangement, hremovals, newOrder_range, longestRise_eq_self List.pairwise_lt_range,
    List.nil_append]
  refine placements_eq_nil fun t ht => ?_
  obtain ⟨hsource, hnode⟩ := mem_targets.1 (List.mem_reverse.1 ht)
  have hlt := (List.getElem?_eq_some_iff.1 hnode).1
  rw [List.getElem?_map, List.getElem?_range hlt] at hsource
  exact ⟨Option.isSome_iff_exists.2 ⟨_, (Option.some.inj hsource).symm⟩, List.mem_range.2 hlt⟩

/-! ## Trees that are the same -/

theorem Delta.isEmpty_of_same {a b : Attrs} (h : a.Same b) :
    (Delta.between a b).isEmpty = true := by
  have hown : ∀ e ∈ b.entries, a.find? e.1 = some e.2 := fun e he =>
    (h e.1).trans (Attrs.find?_of_mem he)
  have hadded : (Delta.between a b).added.entries = [] := by
    rw [entries_added_between, List.filter_eq_nil_iff]
    intro e he
    simp [Attrs.has, hown e he]
  have hchanged : (Delta.between a b).changed.entries = [] := by
    rw [entries_changed_between, List.filter_eq_nil_iff]
    intro e he
    simp [hown e he]
  have hremoved : (Delta.between a b).removed = [] := by
    rw [Delta.between, List.filter_eq_nil_iff]
    intro n hn
    rw [Attrs.has, ← h, ← Attrs.has, Attrs.has_eq_true_iff.2 hn]
    decide
  simp [isEmpty, Attrs.isEmpty, hadded, hchanged, hremoved]

namespace Node

mutual

theorem diffAt_of_same {n m : Node} (h : n.Same m) (path : NodePath) : diffAt path n m = [] := by
  cases n <;> cases m
  case text.text a b =>
    obtain rfl : a = b := h
    simp [diffAt]
  case element.element tag as st cs _ bs rt ds =>
    obtain ⟨rfl, has, hst, hcs⟩ := h
    have hmatched := matching_of_sameAll hcs
    have hattrs : attributeEdits path (.between as bs) (.between st rt) = [] := by
      simp [attributeEdits, Delta.isEmpty_of_same has, Delta.isEmpty_of_same hst]
    have hinner : diffMatched path cs ((List.range' 0 ds.length).map some) ds = [] :=
      diffMatched_of_sameAll hcs rfl path
    rw [← List.range_eq_range'] at hinner
    rw [diffAt, if_pos rfl]
    simp only [hmatched, hattrs, hinner, hcs.length, rearrangement_range, List.append_nil]
  all_goals exact h.elim

theorem diffMatched_of_sameAll {old ns ms : List Node} {k : Nat} (h : SameAll ns ms)
    (hold : old.drop k = ns) (path : NodePath) :
    diffMatched path old ((List.range' k ms.length).map some) ms = [] := by
  cases ns <;> cases ms
  case nil.nil => rfl
  case cons.cons n ns m ms =>
    have hk : old[k]? = some n := by rw [← List.head?_drop, hold]; rfl
    have hrest : old.drop (k + 1) = ns := by rw [← List.tail_drop, hold]; rfl
    rw [List.length_cons, List.range'_succ, List.map_cons, diffMatched]
    simp only [hk, diffAt_of_same h.1, diffMatched_of_sameAll h.2 hrest path, List.append_nil]
  all_goals exact h.elim

end

/-- Trees that are equal up to the order of attributes have no difference. -/
theorem diff_of_same {n m : Node} (h : n.Same m) : n.diff m = [] := diffAt_of_same h []

/-- **Trees have no difference exactly if they are equal up to the order of attributes and
declarations.** -/
theorem diff_eq_nil_iff (old new : Node) : old.diff new = [] ↔ old.Same new :=
  ⟨same_of_diff_eq_nil, diff_of_same⟩

end Node

end MarkupSync
