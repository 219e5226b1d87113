import MarkupSync.Proofs.Diff.Match
import MarkupSync.Proofs.Diff.Placement
import MarkupSync.Proofs.Tree.Everywhere

/-!
# Differences lead from one document to the other

* `Node.diffAt_eq_map_under`: the edits below a path are the edits of the node there;
* `Node.ne_replace_of_mem_diff`: elements with the same tag are not replaced;
* `Node.Inherited`: properties of documents that their children have as well;
* `Shadow.IsSourced`: documents all of whose nodes have origins;
* `Shadow.continuedAs`: the new document with the origins of the nodes that it continues;
* **`Shadow.steps_diff`**: the edits of a difference are a chain of steps to it;
* **`Node.applyAll_diff`**: applying a difference never fails and gives the new document.
-/

namespace MarkupSync

/-! ## Edits below a path -/

theorem removals_eq_map_under (path : NodePath) (matched : List (Option Nat)) (count : Nat) :
    removals path matched count = (removals [] matched count).map (Edit.under path) := by
  rw [removals, removals, List.map_map]
  rfl

theorem placements_eq_map_under (path : NodePath) (stays : List Nat) (anchor : Option Slot)
    (current : List Slot) (ts : List Target) : placements path stays anchor current ts =
      (placements [] stays anchor current ts).map (Edit.under path) := by
  induction ts generalizing anchor current with
  | nil => rfl
  | cons t ts ih =>
    simp only [placements]
    cases t.source with
    | none => simp [ih, Edit.under]
    | some i =>
      simp only
      split_ifs
      · exact ih _ _
      cases current.idxOf? t.slot with
      | none => exact ih _ _
      | some source => simp [ih, Edit.under, NodePath.child]

theorem attributeEdits_eq_map_under (path : NodePath) (a s : Delta) :
    attributeEdits path a s = (attributeEdits [] a s).map (Edit.under path) := by
  rw [attributeEdits, attributeEdits]
  split_ifs
  · rfl
  · simp [Edit.under]

namespace Node

mutual

/-- The edits below a path are the edits of the node there. -/
theorem diffAt_eq_map_under (path : NodePath) (old new : Node) :
    diffAt path old new = (diffAt [] old new).map (Edit.under path) := by
  cases new with
  | text b =>
    cases old with
    | text a =>
      rw [diffAt, diffAt]
      split_ifs
      · rfl
      · simp [Edit.under]
    | element => simp [diffAt, Edit.under]
  | element tag as st children =>
    cases old with
    | text => simp [diffAt, Edit.under]
    | element oldTag oldAs oldSt oldChildren =>
      simp only [diffAt]
      split_ifs
      · rw [attributeEdits_eq_map_under, diffMatched_eq_map_under path, rearrangement,
          removals_eq_map_under, placements_eq_map_under, rearrangement]
        simp only [List.map_append]
      · simp [Edit.under]

theorem diffMatched_eq_map_under (path : NodePath) (old : List Node) (sources : List (Option Nat))
    (ns : List Node) :
    diffMatched path old sources ns = (diffMatched [] old sources ns).map (Edit.under path) := by
  cases ns with
  | nil => simp [diffMatched]
  | cons n ns =>
    cases sources with
    | nil => simp [diffMatched]
    | cons source sources =>
      simp only [diffMatched, List.map_append]
      rw [diffMatched_eq_map_under path old sources ns]
      congr 1
      cases source with
      | none => rfl
      | some i =>
        simp only
        cases old[i]? with
        | none => rfl
        | some o =>
          simp only
          rw [diffAt_eq_map_under (path.child i), diffAt_eq_map_under (NodePath.child [] i),
            List.map_map]
          congr 1
          funext e
          simp [NodePath.child]

end

theorem diffMatched_cons (path : NodePath) (old : List Node) (source : Option Nat)
    (sources : List (Option Nat)) (n : Node) (ns : List Node) :
    diffMatched path old (source :: sources) (n :: ns) =
      diffMatched path old [source] [n] ++ diffMatched path old sources ns := by
  simp [diffMatched]

/-- A property of documents that the children of a document have as well. -/
def Inherited (P : Bool → Node → Prop) : Prop :=
  ∀ raw tag as st cs, P raw (.element tag as st cs) → ∀ c ∈ cs, P (isRaw tag) c

end Node

/-! ## Replaced roots -/

theorem ne_replace_of_mem_placements {stays : List Nat} {anchor : Option Slot}
    {current : List Slot} {ts : List Target} {path q : NodePath} {e : Edit} {n : Node}
    (he : e ∈ placements path stays anchor current ts) : e ≠ .replace q n := by
  induction ts generalizing anchor current with
  | nil => cases he
  | cons t ts ih =>
    rw [placements] at he
    split at he
    · rcases List.mem_cons.1 he with rfl | he
      · rintro ⟨⟩
      · exact ih he
    · split_ifs at he
      · exact ih he
      split at he
      · exact ih he
      · rcases List.mem_cons.1 he with rfl | he
        · rintro ⟨⟩
        · exact ih he

theorem ne_replace_of_mem_rearrangement {path q : NodePath} {matched : List (Option Nat)}
    {count : Nat} {new : List Node} {e : Edit} {n : Node}
    (he : e ∈ rearrangement path matched count new) : e ≠ .replace q n := by
  rcases List.mem_append.1 he with he | he
  · obtain ⟨i, -, rfl⟩ := List.mem_map.1 he
    rintro ⟨⟩
  · exact ne_replace_of_mem_placements he

namespace Node

theorem exists_under_of_mem_diffMatched {old : List Node} {sources : List (Option Nat)}
    {ns : List Node} {e : Edit} (he : e ∈ diffMatched [] old sources ns) :
    ∃ i e', e = Edit.under [i] e' := by
  induction ns generalizing sources with
  | nil => cases sources <;> cases he
  | cons n ns ih =>
    rcases sources with _ | ⟨_ | i, sources⟩
    · cases he
    · exact ih he
    · rw [diffMatched] at he
      rcases List.mem_append.1 he with he | he
      · split at he
        · cases he
        · rw [diffAt_eq_map_under] at he
          obtain ⟨e', -, rfl⟩ := List.mem_map.1 he
          exact ⟨i, e', rfl⟩
      · exact ih he

/-- **A difference of elements with the same tag does not replace the root.** -/
theorem ne_replace_of_mem_diff {n m : Node} {e : Edit} (hn : n.isElement = true)
    (htag : n.tag? = m.tag?) (he : e ∈ diff n m) (k : Node) : e ≠ .replace [] k := by
  cases n with
  | text => cases hn
  | element tag as st cs =>
    cases m with
    | text => cases htag
    | element _ bs rt ds =>
      cases htag
      rw [diff, diffAt, if_pos rfl] at he
      rcases List.mem_append.1 he with he | he
      · rcases List.mem_append.1 he with he | he
        · rw [attributeEdits] at he
          split_ifs at he
          · cases he
          · rw [List.mem_singleton.1 he]
            rintro ⟨⟩
        · obtain ⟨i, e', rfl⟩ := exists_under_of_mem_diffMatched he
          cases e' <;> simp [Edit.under]
      · exact ne_replace_of_mem_rearrangement he

/-- The root of a document with another tag is replaced. -/
theorem diff_eq_replace {n m : Node} (htag : n.tag? ≠ m.tag?) : diff n m = [.replace [] m] := by
  cases n <;> cases m
  case text.text => exact absurd rfl htag
  case element.element =>
    rw [diff, diffAt, if_neg fun h => htag (congrArg some h)]
  all_goals rw [diff, diffAt]

end Node

/-! ## The document with origins after a difference -/

namespace Shadow

mutual

/-- All nodes have origins. -/
def IsSourced : Shadow → Prop
  | .text o _ => o.isSome
  | .element o _ _ _ children => o.isSome ∧ AreSourced children

/-- All nodes of documents have origins. -/
def AreSourced : List Shadow → Prop
  | [] => True
  | s :: ss => s.IsSourced ∧ AreSourced ss

end

theorem AreSourced.isSourced {ss : List Shadow} (h : AreSourced ss) {s : Shadow} (hs : s ∈ ss) :
    s.IsSourced := by
  induction ss with
  | nil => cases hs
  | cons t ss ih =>
    rcases List.mem_cons.1 hs with rfl | hs
    · exact h.1
    · exact ih h.2 hs

theorem IsSourced.descend {s x : Shadow} {p : NodePath} (hs : s.IsSourced)
    (h : Tree.descend s p = some x) : x.IsSourced := by
  induction p generalizing s with
  | nil =>
    cases h
    exact hs
  | cons i p ih =>
    obtain ⟨c, hc, hcx⟩ := Option.bind_eq_some_iff.1 h
    cases s with
    | text => cases hc
    | element => exact ih (hs.2.isSourced (List.mem_of_getElem? hc)) hcx

theorem IsSourced.isSome_origin {s : Shadow} (hs : s.IsSourced) : s.origin.isSome := by
  cases s with
  | text => exact hs
  | element => exact hs.1

mutual

/-- The new document; its nodes have the origins of the nodes that they continue. -/
def continuedAs (s : Shadow) : Node → Shadow
  | .text b =>
    match s with
    | .text o _ => .text o b
    | .element .. => fresh (.text b)
  | .element tag bs rt ds =>
    match s with
    | .text .. => fresh (.element tag bs rt ds)
    | .element o oldTag as st cs =>
      if oldTag = tag then
        .element o oldTag ((Delta.between as bs).apply as) ((Delta.between st rt).apply st)
          (allContinuedAs cs (matching (toNodes cs) ds) ds)
      else fresh (.element tag bs rt ds)

/-- New children, with the indices of the children that they continue. -/
def allContinuedAs (cs : List Shadow) : List (Option Nat) → List Node → List Shadow
  | _, [] => []
  | [], _ :: _ => []
  | source :: sources, n :: ns =>
    (match source with
      | none => fresh n
      | some i =>
        match cs[i]? with
        | none => fresh n
        | some c => continuedAs c n) :: allContinuedAs cs sources ns

end

/-- A new child that continues the child with an index, if any. -/
def childContinuedAs (cs : List Shadow) (source : Option Nat) (n : Node) : Shadow :=
  match source.bind (cs[·]?) with
  | none => fresh n
  | some c => c.continuedAs n

theorem allContinuedAs_cons (cs : List Shadow) (source : Option Nat) (sources : List (Option Nat))
    (n : Node) (ns : List Node) : allContinuedAs cs (source :: sources) (n :: ns) =
      childContinuedAs cs source n :: allContinuedAs cs sources ns := by
  cases source with
  | none => rfl
  | some i =>
    simp only [allContinuedAs, childContinuedAs, Option.bind_some]

theorem allContinuedAs_eq_map (cs : List Shadow) (sources : List (Option Nat)) (ns : List Node) :
    allContinuedAs cs sources ns =
      (sources.zip ns).map fun x => childContinuedAs cs x.1 x.2 := by
  induction ns generalizing sources with
  | nil => cases sources <;> rfl
  | cons n ns ih =>
    cases sources with
    | nil => rfl
    | cons source sources =>
      rw [allContinuedAs_cons, ih]
      rfl

theorem getElem?_allContinuedAs (cs : List Shadow) {sources : List (Option Nat)} {ns : List Node}
    {j : Nat} {source : Option Nat} {n : Node} (hs : sources[j]? = some source)
    (hn : ns[j]? = some n) :
    (allContinuedAs cs sources ns)[j]? = some (childContinuedAs cs source n) := by
  have hzip : (sources.zip ns)[j]? = some (source, n) := List.getElem?_zip_eq_some.2 ⟨hs, hn⟩
  rw [allContinuedAs_eq_map, List.getElem?_map, hzip, Option.map_some]

theorem getElem?_allContinuedAs_of_matched {cs : List Shadow} {sources : List (Option Nat)}
    {ns : List Node} {i j : Nat} {c : Shadow} {n : Node} (hs : sources[j]? = some (some i))
    (hc : cs[i]? = some c) (hn : ns[j]? = some n) :
    (allContinuedAs cs sources ns)[j]? = some (c.continuedAs n) := by
  rw [getElem?_allContinuedAs cs hs hn, childContinuedAs, Option.bind_some, hc]

/-- A node that continues another one has its origin, and a new one has none. -/
theorem origin_continuedAs (s : Shadow) (new : Node) :
    (s.continuedAs new).origin = if s.toNode.tag? = new.tag? then s.origin else none := by
  cases new with
  | text b => cases s <;> rfl
  | element tag bs rt ds =>
    cases s with
    | text => rfl
    | element o oldTag as st cs =>
      by_cases htag : oldTag = tag
      · simp [continuedAs, htag, origin, toNode, Node.tag?]
      · simp [continuedAs, htag, fresh, origin, toNode, Node.tag?]

mutual

/-- The new document has the origins of an old one, but it is the new document. -/
theorem toNode_continuedAs (s : Shadow) (new : Node) : (s.continuedAs new).toNode.Same new := by
  cases new with
  | text b =>
    cases s with
    | text o a => rfl
    | element => rw [continuedAs, toNode_fresh]; exact .refl _
  | element tag bs rt ds =>
    cases s with
    | text => rw [continuedAs, toNode_fresh]; exact .refl _
    | element o oldTag as st cs =>
      rw [continuedAs]
      split_ifs with htag
      · exact ⟨htag, Delta.same_apply_between _ _, Delta.same_apply_between _ _,
          toNodes_allContinuedAs cs _ ds (length_matching _ _)⟩
      · rw [toNode_fresh]
        exact .refl _

theorem toNodes_allContinuedAs (cs : List Shadow) (sources : List (Option Nat)) (ns : List Node)
    (hl : sources.length = ns.length) : Node.SameAll (toNodes (allContinuedAs cs sources ns)) ns := by
  cases ns with
  | nil => trivial
  | cons n ns =>
    cases sources with
    | nil => cases hl
    | cons source sources =>
      rw [allContinuedAs_cons, toNodes]
      refine ⟨?_, toNodes_allContinuedAs cs sources ns (Nat.succ.inj hl)⟩
      rw [childContinuedAs]
      split
      · rw [toNode_fresh]
        exact .refl n
      next c _ => exact toNode_continuedAs c n

end

/-! ## Steps to the new document -/

variable {P : Bool → Node → Prop}

section Element

variable {raw : Bool} {o : Origin} {tag : Text} {as bs st rt : Attrs}

/-- The change of an element's attributes is at most one step. -/
theorem steps_attributeEdits {cs : List Shadow} {ds : List Node} (h : P raw (.element tag bs rt ds)) :
    Steps P raw (.element (some o) tag as st cs)
      (attributeEdits [] (.between as bs) (.between st rt))
      (.element (some o) tag ((Delta.between as bs).apply as) ((Delta.between st rt).apply st)
        cs) := by
  rw [attributeEdits]
  split_ifs with he
  · rw [Bool.and_eq_true] at he
    rw [Delta.apply_of_isEmpty he.1, Delta.apply_of_isEmpty he.2]
    exact .nil
  · exact .single (.attributes h)

/-- The child in a slot. -/
def slotChild (cs : List Shadow) (new : List Node) : Slot → Shadow
  | .kept i => cs[i]?.getD default
  | .fresh j => fresh (new[j]?.getD default)

theorem slotChild_of_source {cs : List Shadow} {new : List Node} {t : Target} {i : Nat} {c : Shadow}
    (hs : t.source = some i) (hc : cs[i]? = some c) : slotChild cs new t.slot = c := by
  rw [slot_eq_kept.2 hs, slotChild, hc, Option.getD_some]

theorem slotChild_of_new {matched : List (Option Nat)} {cs : List Shadow} {new : List Node}
    {t : Target} (ht : t ∈ targets matched new) (hs : t.source = none) :
    slotChild cs new t.slot = fresh t.node := by
  rw [slot_eq_fresh.2 ⟨hs, rfl⟩, slotChild, (mem_targets.1 ht).2, Option.getD_some]

/-- At first every child is in its slot. -/
theorem map_slotChild_kept (cs : List Shadow) (new : List Node) :
    (List.range cs.length).map (slotChild cs new ∘ Slot.kept) = cs :=
  List.ext_getElem (by simp) fun i _ h => by simp [slotChild, h]

/-- The rearrangement puts the children into the order of the new ones. -/
theorem steps_rearrangement {matched : List (Option Nat)} {cs : List Shadow}
    {new : List Node} (hl : matched.length = new.length) (hd : (matched.filterMap id).Nodup)
    (hlt : ∀ i, some i ∈ matched → i < cs.length) (hP : ∀ n ∈ new, P (isRaw tag) n) :
    Steps P raw (.element (some o) tag as st cs) (rearrangement [] matched cs.length new)
      (.element (some o) tag as st
        (((targets matched new).map Target.slot).map (slotChild cs new))) := by
  let child := slotChild cs new
  have hremovals : Steps P raw (.element (some o) tag as st cs) (removals [] matched cs.length)
      (.element (some o) tag as st (((survivors matched cs.length).map Slot.kept).map child)) := by
    have := @steps_removals P raw o tag as st matched (child ∘ Slot.kept) cs.length []
    rwa [map_slotChild_kept, ← List.map_map, List.append_nil, List.append_nil] at this
  have hplacements : Steps P raw
      (.element (some o) tag as st (((survivors matched cs.length).map Slot.kept).map child))
      (placements [] (longestRise (newOrder matched cs.length)) none
        ((survivors matched cs.length).map .kept) (targets matched new).reverse)
      (.element (some o) tag as st (((targets matched new).map Target.slot).map child)) := by
    rw [← settle_targets hl hd hlt]
    refine steps_placements (fun t ht hfr => ?_) _ _
    have ht := List.mem_reverse.1 ht
    exact ⟨slotChild_of_new ht hfr, hP _ (List.mem_of_getElem? (mem_targets.1 ht).2)⟩
  exact hremovals.append hplacements

/-- Once the children have become what continues them, their rearrangement is the list of the new
ones. -/
theorem map_slotChild {matched : List (Option Nat)} {old cs : List Shadow} {new : List Node}
    (hlt : ∀ i, some i ∈ matched → i < old.length)
    (hcs : ∀ (j i : Nat) (n : Node), matched[j]? = some (some i) → new[j]? = some n →
      cs[i]? = old[i]?.map (continuedAs · n)) :
    ((targets matched new).map Target.slot).map (slotChild cs new) =
      allContinuedAs old matched new := by
  rw [allContinuedAs_eq_map, targets, List.map_map, List.map_map]
  refine List.ext_getElem? fun j => ?_
  rw [List.getElem?_map, List.getElem?_map, List.getElem?_zipIdx, Nat.zero_add]
  cases hj : (matched.zip new)[j]? with
  | none => rfl
  | some x =>
    obtain ⟨source, n⟩ := x
    obtain ⟨hm, hn⟩ := List.getElem?_zip_eq_some.1 hj
    refine congrArg some ?_
    cases source with
    | none =>
      show fresh (new[j]?.getD default) = fresh n
      rw [hn, Option.getD_some]
    | some i =>
      have hi := List.getElem?_eq_getElem (hlt i (List.mem_of_getElem? hm))
      show cs[i]?.getD default = childContinuedAs old (some i) n
      rw [hcs j i n hm hn, childContinuedAs, Option.bind_some, hi]
      rfl

end Element

mutual

/-- **The edits of a difference are a chain of steps to the new document.** -/
theorem steps_diff (hP : Node.Inherited P) (raw : Bool) {s : Shadow} (hs : s.IsSourced)
    (new : Node) (h : P raw new) : Steps P raw s (Node.diffAt [] s.toNode new) (s.continuedAs new) := by
  cases new with
  | text b =>
    cases s with
    | text o a =>
      obtain ⟨o, rfl⟩ := Option.isSome_iff_exists.1 hs
      rw [toNode, Node.diffAt, continuedAs]
      split_ifs with hab
      · exact hab ▸ .nil
      · exact .single (.text h)
    | element => exact .single (.replace h)
  | element tag bs rt ds =>
    cases s with
    | text => exact .single (.replace h)
    | element o oldTag as st cs =>
      obtain ⟨ho, hcs⟩ := hs
      obtain ⟨o, rfl⟩ := Option.isSome_iff_exists.1 ho
      simp only [toNode, Node.diffAt, continuedAs]
      split_ifs with htag
      · subst htag
        rw [toNodes_eq_map]
        have hds : ∀ n ∈ ds, P (isRaw oldTag) n := fun n hn => hP _ _ _ _ _ h n hn
        have hlt : ∀ i, some i ∈ matching (cs.map toNode) ds → i < cs.length := by
          simpa using fun i (hi : some i ∈ matching (cs.map toNode) ds) => lt_of_mem_matching hi
        obtain ⟨cs', hmatched, hlen, -, hchildren⟩ := exists_steps_diffMatched hP raw (o := o) hcs ds
          (nodup_matching (cs.map toNode) ds) hds (fun _ _ => rfl)
        have hrearranged := @steps_rearrangement P raw o oldTag
          ((Delta.between as bs).apply as) ((Delta.between st rt).apply st) _ cs' _
          (length_matching (cs.map toNode) ds) (nodup_matching _ _) (fun i hi => hlen ▸ hlt i hi) hds
        rw [hlen, map_slotChild hlt hchildren] at hrearranged
        rw [List.length_map]
        exact ((steps_attributeEdits h).append hmatched).append hrearranged
      · exact .single (.replace h)

/-- The edits inside matched children make each of them the new child that continues it, and leave
the other children as they are. -/
theorem exists_steps_diffMatched (hP : Node.Inherited P) (raw : Bool) {o : Origin} {tag : Text}
    {as st : Attrs} {old cs : List Shadow} (hold : AreSourced old) {sources : List (Option Nat)}
    (ns : List Node) (hd : (sources.filterMap id).Nodup) (h : ∀ n ∈ ns, P (isRaw tag) n)
    (hcs : ∀ i, some i ∈ sources → cs[i]? = old[i]?) :
    ∃ cs', Steps P raw (.element (some o) tag as st cs)
      (Node.diffMatched [] (old.map toNode) sources ns) (.element (some o) tag as st cs') ∧
      cs'.length = cs.length ∧ (∀ i, some i ∉ sources → cs'[i]? = cs[i]?) ∧
      ∀ (j i : Nat) (n : Node), sources[j]? = some (some i) → ns[j]? = some n →
        cs'[i]? = old[i]?.map (continuedAs · n) := by
  cases ns with
  | nil => exact ⟨cs, by simpa [Node.diffMatched] using .nil, rfl, fun _ _ => rfl, by simp⟩
  | cons n ns =>
    cases sources with
    | nil => exact ⟨cs, by simpa [Node.diffMatched] using .nil, rfl, fun _ _ => rfl, by simp⟩
    | cons source sources =>
      cases source with
      | none =>
        replace hd : (sources.filterMap id).Nodup := by simpa using hd
        obtain ⟨cs', hsteps, hlen, hother, hchildren⟩ := exists_steps_diffMatched hP raw (o := o)
          hold ns hd (fun m hm => h m (List.mem_cons_of_mem _ hm))
          (fun i hi => hcs i (List.mem_cons_of_mem _ hi))
        refine ⟨cs', by simpa [Node.diffMatched] using hsteps, hlen,
          fun i hi => hother i fun hm => hi (List.mem_cons_of_mem _ hm), fun j => ?_⟩
        cases j with
        | zero => intro i m hj; cases hj
        | succ j => exact hchildren j
      | some i =>
        obtain ⟨hi, hd⟩ := List.nodup_cons.1 hd
        replace hi : some i ∉ sources := by simpa using hi
        -- the child with index `i` becomes `n`, and nothing later touches it
        have hchild : Steps P raw (.element (some o) tag as st cs)
            (Node.diffMatched [] (old.map toNode) [some i] [n])
            (.element (some o) tag as st (cs.modify i (continuedAs · n))) := by
          simp only [Node.diffMatched, List.append_nil, List.getElem?_map]
          rw [← hcs i List.mem_cons_self]
          cases ho : cs[i]? with
          | none =>
            rw [List.modify_eq_self (List.getElem?_eq_none_iff.1 ho)]
            exact .nil
          | some c =>
            have hc : c.IsSourced := hold.isSourced
              (List.mem_of_getElem? ((hcs i List.mem_cons_self).symm.trans ho))
            have := steps_diff hP (isRaw tag) hc n (h n List.mem_cons_self)
            rw [List.modify_eq_set_getElem?, ho]
            simp only [Option.map_some]
            rw [Node.diffAt_eq_map_under]
            exact this.inside ho
        have hrest : ∀ k, some k ∈ sources → (cs.modify i (continuedAs · n))[k]? = old[k]? :=
          fun k hk => by
            rw [List.getElem?_modify_ne _ _ fun hik : i = k => hi (hik ▸ hk)]
            exact hcs k (List.mem_cons_of_mem _ hk)
        obtain ⟨cs', hsteps, hlen, hother, hchildren⟩ := exists_steps_diffMatched hP raw (o := o)
          hold ns hd (fun m hm => h m (List.mem_cons_of_mem _ hm)) hrest
        rw [List.length_modify] at hlen
        refine ⟨cs', ?_, hlen, fun k hk => ?_, fun j k m hj hm => ?_⟩
        · rw [Node.diffMatched_cons]
          exact hchild.append hsteps
        · rw [hother k fun hm => hk (List.mem_cons_of_mem _ hm)]
          exact List.getElem?_modify_ne _ _ fun hik : i = k => hk (hik ▸ List.mem_cons_self)
        · cases j with
          | zero =>
            cases hj
            cases hm
            rw [hother _ hi, List.getElem?_modify_eq, hcs i List.mem_cons_self, Option.map_eq_map]
          | succ j => exact hchildren j k m hj hm

end

/-- A document without a difference to the new one stays as it is. -/
theorem continuedAs_of_diff_eq_nil {s : Shadow} (hs : s.IsSourced) {new : Node}
    (h : s.toNode.diff new = []) : s.continuedAs new = s := by
  have hsteps := steps_diff (P := fun _ _ => True) (fun _ _ _ _ _ _ _ _ => trivial) false hs new
    trivial
  rw [← Node.diff, h] at hsteps
  generalize s.continuedAs new = t at hsteps ⊢
  cases hsteps
  rfl

/-- The edits of a difference are a chain of steps to the new document. -/
theorem exists_steps_diff (hP : Node.Inherited P) (raw : Bool) {s : Shadow} (hs : s.IsSourced)
    (new : Node) (h : P raw new) :
    ∃ t, Steps P raw s (Node.diffAt [] s.toNode new) t ∧ t.toNode.Same new :=
  ⟨_, steps_diff hP raw hs new h, toNode_continuedAs s new⟩

mutual

/-- A document all of whose nodes have some origin. -/
def sourced : Node → Shadow
  | .text content => .text (some default) content
  | .element tag attributes style children =>
    .element (some default) tag attributes style (sourcedAll children)

/-- Documents all of whose nodes have some origin. -/
def sourcedAll : List Node → List Shadow
  | [] => []
  | n :: ns => sourced n :: sourcedAll ns

end

mutual

theorem sourced_spec (n : Node) : (sourced n).IsSourced ∧ (sourced n).toNode = n := by
  cases n with
  | text => exact ⟨rfl, rfl⟩
  | element tag as st cs =>
    obtain ⟨hs, hn⟩ := sourcedAll_spec cs
    exact ⟨⟨rfl, hs⟩, by rw [sourced, toNode, hn]⟩

theorem sourcedAll_spec (ns : List Node) :
    AreSourced (sourcedAll ns) ∧ toNodes (sourcedAll ns) = ns := by
  cases ns with
  | nil => exact ⟨trivial, rfl⟩
  | cons n ns =>
    obtain ⟨hs, hn⟩ := sourced_spec n
    obtain ⟨hss, hns⟩ := sourcedAll_spec ns
    exact ⟨⟨hs, hss⟩, by rw [sourcedAll, toNodes, hn, hns]⟩

end

end Shadow

namespace Node

/-- The edits of a difference are a chain of steps to the new document. -/
theorem exists_steps_diff {P : Bool → Node → Prop} (hP : Inherited P) (raw : Bool)
    (old new : Node) (h : P raw new) : ∃ n, Steps P raw old (diff old new) n ∧ n.Same new := by
  obtain ⟨hs, hn⟩ := Shadow.sourced_spec old
  obtain ⟨t, hsteps, hsame⟩ := Shadow.exists_steps_diff hP raw hs new h
  have hsteps := hsteps.toNode
  rw [hn] at hsteps
  exact ⟨t.toNode, hsteps, hsame⟩

/-- Trees without a difference are equal up to the order of attributes and declarations. -/
theorem same_of_diff_eq_nil {old new : Node} (h : old.diff new = []) : old.Same new := by
  obtain ⟨n, hsteps, hsame⟩ := exists_steps_diff (P := fun _ _ => True)
    (fun _ _ _ _ _ _ _ _ => trivial) false old new trivial
  rw [h] at hsteps
  cases hsteps
  exact hsame

/-- **Applying a difference never fails and gives the new document.** -/
theorem applyAll_diff (old new : Node) :
    (old.applyAll (diff old new)).error = none ∧ (old.applyAll (diff old new)).state.Same new := by
  obtain ⟨n, hsteps, hsame⟩ := exists_steps_diff (P := fun _ _ => True)
    (fun _ _ _ _ _ _ _ _ => trivial) false old new trivial
  rw [applyAll_of_steps hsteps]
  exact ⟨rfl, hsame⟩

end Node

end MarkupSync
