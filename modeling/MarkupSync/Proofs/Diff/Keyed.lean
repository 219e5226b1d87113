import MarkupSync.Proofs.Diff.Continued
import MarkupSync.Proofs.Diff.Trail
import MarkupSync.Proofs.Tree.Map

/-!
# Children with keys keep their identity

A child whose key no other child has, neither before nor after, is the same node after a difference,
unless it is replaced.

* `Shadow.exists_trail_attributeEdits`, `exists_trail_children`, `trail_removals`,
  `exists_trail_placements`: the edits of one node among those of each kind;
* `Shadow.exists_trail_element`, `Shadow.exists_trail_child`: what is done to a matched child are the
  edits of its own difference, and at most one move;
* `Shadow.descend_continuedAs`: where a node that continues another one is in the end;
* **`Node.keyed_diff`**: a child with a key of its own is neither removed nor inserted, it is replaced
  once if it gets another tag, it is moved at most once, and it ends where the new child is.
-/

namespace MarkupSync

namespace Shadow

variable {r : NodePath} {o : Origin} {tag : Text} {as st : Attrs} {cs : List Shadow}

theorem HasOwnOrigins.descend {s x : Shadow} {p : NodePath} (h : s.HasOwnOrigins)
    (hx : Tree.descend s p = some x) : x.HasOwnOrigins := by
  obtain ⟨around, hperm, -⟩ := exists_perm_of_descend hx
  exact h.of_subperm ((List.sublist_append_left ..).subperm.trans hperm.symm.subperm)

/-- Nodes of different children have different origins. -/
theorem HasOwnOrigins.eq_of_mem_origins {s c c' : Shadow} {i k : Nat} (h : s.HasOwnOrigins)
    (hc : (Tree.children s)[i]? = some c) (hc' : (Tree.children s)[k]? = some c')
    (hr : r ∈ c.origins.map Origin.path) (hr' : r ∈ c'.origins.map Origin.path) : i = k := by
  obtain ⟨-, -, hapart⟩ := hasOwnOrigins_iff.1 h
  obtain ⟨hi, rfl⟩ := List.getElem?_eq_some_iff.1 hc
  obtain ⟨hk, rfl⟩ := List.getElem?_eq_some_iff.1 hc'
  by_contra hik
  obtain hlt | hlt := Nat.lt_or_gt_of_ne hik
  · exact List.pairwise_iff_getElem.1 hapart i k hi hk hlt hr hr'
  · exact List.pairwise_iff_getElem.1 hapart k i hk hi hlt hr' hr

theorem identityAt?_singleton {o : Option Origin} (i : Nat) :
    (element o tag as st cs).identityAt? [i] =
      cs[i]?.bind fun c => c.origin.map Origin.path := by
  show (cs[i]?.bind fun c => some c).bind _ = _
  cases cs[i]? <;> rfl

/-! ## The edits of an element -/

/-- The change of attributes is an edit of the element only. -/
theorem exists_trail_attributeEdits (ho : o.path ≠ r) (a b : Delta) :
    ∃ as' st', Trail r (.element (some o) tag as st cs) (attributeEdits [] a b) []
      (.element (some o) tag as' st' cs) := by
  rw [attributeEdits]
  split_ifs
  · exact ⟨as, st, .nil⟩
  · exact ⟨a.apply as, b.apply st, .other rfl (fun h => ho (Option.some.inj h)) .nil⟩

/-- The edits of a node among those inside the old child that a new child continues. -/
def childEditsOf (r : NodePath) (cs : List Shadow) (source : Option Nat) (n : Node) : List Edit :=
  match source with
  | none => []
  | some i =>
    match cs[i]? with
    | none => []
    | some c => (c.editsOf r (c.toNode.diff n)).map (Edit.under [i])

theorem childEdits_congr (r : NodePath) {cs ds : List Shadow} {source : Option Nat} (n : Node)
    (h : ∀ k, source = some k → ds[k]? = cs[k]?) :
    Node.childEdits (toNodes ds) source n = Node.childEdits (toNodes cs) source n ∧
      childEditsOf r ds source n = childEditsOf r cs source n := by
  cases source with
  | none => exact ⟨rfl, rfl⟩
  | some i => simp only [Node.childEdits, childEditsOf, toNodes_eq_map, List.getElem?_map, h i rfl,
      and_self]

/-- The edits inside a child leave its origin, and the other children. -/
theorem exists_trail_childEdits (r : NodePath) (cs : List Shadow) (source : Option Nat) (n : Node) :
    ∃ cs', Trail r (.element (some o) tag as st cs) (Node.childEdits (toNodes cs) source n)
        (childEditsOf r cs source n) (.element (some o) tag as st cs') ∧
      cs'.map origin = cs.map origin ∧ ∀ k, source ≠ some k → cs'[k]? = cs[k]? := by
  cases source with
  | none => exact ⟨cs, .nil, rfl, fun _ _ => rfl⟩
  | some i =>
    cases hc : cs[i]? with
    | none =>
      have hnode : (toNodes cs)[i]? = none := by rw [toNodes_eq_map, List.getElem?_map, hc]; rfl
      refine ⟨cs, ?_, rfl, fun _ _ => rfl⟩
      simp only [Node.childEdits, childEditsOf, hc, hnode]
      exact .nil
    | some c =>
      have hnode : (toNodes cs)[i]? = some c.toNode := by
        rw [toNodes_eq_map, List.getElem?_map, hc, Option.map_some]
      obtain ⟨own, c', htrail⟩ := exists_trail_diff r c n
      refine ⟨cs.set i c', ?_, ?_, fun k hk => List.getElem?_set_ne fun hik => hk (congrArg some hik)⟩
      · simp only [Node.childEdits, childEditsOf, hc, hnode, htrail.editsOf_eq]
        exact htrail.inside hc
      · obtain ⟨hi, rfl⟩ := List.getElem?_eq_some_iff.1 hc
        rw [List.map_set, htrail.origin_eq]
        exact List.ext_getElem? fun k => by
          rw [List.getElem?_set]
          split_ifs with hik <;> simp_all

/-- The edits inside matched children leave the origins of the children. -/
theorem exists_trail_children {l : List (Option Nat × Node)}
    (hd : ((l.map Prod.fst).filterMap id).Nodup) :
    ∃ cs', Trail r (.element (some o) tag as st cs)
        (l.flatMap fun x => Node.childEdits (toNodes cs) x.1 x.2)
        (l.flatMap fun x => childEditsOf r cs x.1 x.2) (.element (some o) tag as st cs') ∧
      cs'.map origin = cs.map origin := by
  induction l generalizing cs with
  | nil => exact ⟨cs, .nil, rfl⟩
  | cons x l ih =>
    rw [List.map_cons, List.filterMap_cons] at hd
    obtain ⟨cs₁, hfirst, horigins₁, hothers⟩ := exists_trail_childEdits r cs x.1 x.2
    have hd' : ((l.map Prod.fst).filterMap id).Nodup := by
      split at hd
      · exact hd
      · exact (List.nodup_cons.1 hd).2
    obtain ⟨cs₂, hrest, horigins₂⟩ := @ih cs₁ hd'
    -- no other child continues the same one
    have hsame : ∀ y ∈ l, ∀ k, y.1 = some k → cs₁[k]? = cs[k]? := by
      refine fun y hy k hk => hothers k fun hx => ?_
      rw [id, hx] at hd
      exact (List.nodup_cons.1 hd).1 (List.mem_filterMap.2 ⟨y.1, List.mem_map_of_mem hy, hk⟩)
    have hcongr := fun y hy => childEdits_congr r y.2 (hsame y hy)
    rw [List.flatMap_congr fun y hy => (hcongr y hy).1,
      List.flatMap_congr fun y hy => (hcongr y hy).2] at hrest
    exact ⟨cs₂, hfirst.append hrest, horigins₂.trans horigins₁⟩

/-- The removals are edits of the children that are matched nowhere. -/
theorem trail_removals {matched : List (Option Nat)} {child : Nat → Shadow} {count : Nat}
    (hr : ∀ k < count, some k ∉ matched → (child k).origin.map Origin.path ≠ some r)
    (behind : List Shadow) :
    Trail r (.element (some o) tag as st ((List.range count).map child ++ behind))
      (removals [] matched count) []
      (.element (some o) tag as st ((survivors matched count).map child ++ behind)) := by
  induction count generalizing behind with
  | zero => exact .nil
  | succ n ih =>
    have ih := ih fun k hk => hr k (Nat.lt_succ_of_lt hk)
    simp only [removals, survivors, List.range_succ, List.reverse_append, List.reverse_singleton,
      List.singleton_append, List.filter_append, List.map_append, List.filter_cons,
      List.filter_nil] at ih ⊢
    by_cases hn : some n ∈ matched
    · simpa [hn] using ih (child n :: behind)
    · simp only [hn, Bool.not_false, if_true, List.map_cons, List.map_nil, decide_false,
        List.elem_eq_mem]
      have hremove : (element (some o) tag as st
          (((List.range n).map child ++ [child n]) ++ behind)).follow (.remove [n]) =
            .ok (.element (some o) tag as st ((List.range n).map child ++ behind)) := by
        rw [follow_of_step (.remove (by simp)) rfl]
        simp [List.eraseIdx_append_of_length_le]
      have hidentity : (element (some o) tag as st
          (((List.range n).map child ++ [child n]) ++ behind)).identityAt? [n] =
            (child n).origin.map Origin.path := by
        rw [identityAt?_singleton]
        simp
      refine .other hremove (fun h => hr n (Nat.lt_succ_self n) hn (hidentity.symm.trans h)) ?_
      simpa using ih behind

/-- Edits that are moves, at most so many. -/
structure AreMoves (n : Nat) (own : List Edit) : Prop where
  moves : ∀ e ∈ own, e.isMove = true
  length_le : own.length ≤ n

theorem AreMoves.mono {n m : Nat} {own : List Edit} (h : AreMoves n own) (hnm : n ≤ m) :
    AreMoves m own := ⟨h.moves, h.length_le.trans hnm⟩

theorem AreMoves.under {n : Nat} {own : List Edit} (h : AreMoves n own) (p : NodePath) :
    AreMoves n (own.map (Edit.under p)) where
  moves e he := by
    obtain ⟨e', he', rfl⟩ := List.mem_map.1 he
    rw [Edit.isMove_under]
    exact h.moves e' he'
  length_le := by
    rw [List.length_map]
    exact h.length_le

/-- The placements move every child at most once. -/
theorem exists_trail_placements {stays : List Nat} {child : Slot → Shadow} {ts : List Target}
    (ho : o.path ≠ r) (hc : ∀ t ∈ ts, t.source = none → child t.slot = fresh t.node)
    (anchor : Option Slot) (current : List Slot) :
    ∃ own, Trail r (.element (some o) tag as st (current.map child))
        (placements [] stays anchor current ts) own
        (.element (some o) tag as st ((settle stays anchor current ts).map child)) ∧
      AreMoves (ts.countP fun t => (child t.slot).origin.map Origin.path == some r) own := by
  induction ts generalizing anchor current with
  | nil => exact ⟨[], .nil, nofun, Nat.le_refl _⟩
  | cons t ts ih =>
    have ih := ih fun t' ht' => hc t' (List.mem_cons_of_mem _ ht')
    have hle := (List.sublist_cons_self t ts).countP_le
      (p := fun t => (child t.slot).origin.map Origin.path == some r)
    cases hs : t.source with
    | none =>
      simp only [placements, settle, place, hs]
      obtain ⟨own, htrail, hown⟩ := ih (some t.slot)
        (current.insertIdx (indexBefore anchor current) t.slot)
      refine ⟨own, .other ?_ (fun h => ho (Option.some.inj h)) htrail, hown.mono hle⟩
      rw [List.map_insertIdx, hc t List.mem_cons_self hs]
      exact follow_of_step
        (.insert ((List.length_map child).symm ▸ indexBefore_le anchor current) trivial) rfl
    | some i =>
      simp only [placements, settle, place, hs]
      split_ifs with hstay
      · obtain ⟨own, htrail, hown⟩ := ih (some t.slot) current
        exact ⟨own, htrail, hown.mono hle⟩
      cases hsource : current.idxOf? t.slot with
      | none =>
        obtain ⟨own, htrail, hown⟩ := ih (some t.slot) current
        exact ⟨own, htrail, hown.mono hle⟩
      | some source =>
        obtain ⟨hlt, hslot, -⟩ := List.idxOf?_eq_some_iff.1 hsource
        have hchild : (current.map child)[source]? = some (child t.slot) := by simp [hlt, hslot]
        have hmove : (element (some o) tag as st (current.map child)).follow
            (.move [source] [] (indexBefore anchor (current.eraseIdx source))) =
              .ok (.element (some o) tag as st (((current.eraseIdx source).insertIdx
                (indexBefore anchor (current.eraseIdx source)) t.slot).map child)) := by
          rw [List.map_insertIdx, ← List.eraseIdx_map]
          refine follow_of_step (.move hchild ?_) rfl
          rw [List.eraseIdx_map, List.length_map]
          exact indexBefore_le _ _
        have hidentity : (element (some o) tag as st (current.map child)).identityAt? [source] =
            (child t.slot).origin.map Origin.path := by
          rw [identityAt?_singleton, hchild, Option.bind_some]
        obtain ⟨own, htrail, hown⟩ := ih (some t.slot) ((current.eraseIdx source).insertIdx
          (indexBefore anchor (current.eraseIdx source)) t.slot)
        by_cases hr : (child t.slot).origin.map Origin.path = some r
        · refine ⟨_, .own hmove (hidentity.trans hr) htrail,
            List.forall_mem_cons.2 ⟨rfl, hown.moves⟩, ?_⟩
          refine (Nat.succ_le_succ hown.length_le).trans (Nat.le_of_eq ?_)
          exact (List.countP_cons_of_pos
            (p := fun t : Target => (child t.slot).origin.map Origin.path == some r)
            (beq_iff_eq.2 hr)).symm
        · exact ⟨own, .other hmove (fun h => hr (hidentity.symm.trans h)) htrail, hown.mono hle⟩

/-- Of the nodes that are put in order only the child itself has its path in the old document. -/
theorem slot_of_identity {matched : List (Option Nat)} {new : List Node} {i : Nat} {t : Target}
    (hlt : ∀ k, some k ∈ matched → k < cs.length)
    (hr : ∀ k x, cs[k]? = some x → x.origin.map Origin.path = some r → k = i)
    (ht : t ∈ targets matched new)
    (hid : (slotChild cs new t.slot).origin.map Origin.path = some r) :
    t.slot = .kept i ∧ (cs[i]?.bind fun c => c.origin.map Origin.path) = some r := by
  cases hs : t.source with
  | none =>
    rw [slotChild_of_new ht hs, origin_fresh] at hid
    cases hid
  | some k =>
    have hk := List.getElem?_eq_getElem (hlt k (hs ▸ List.mem_of_getElem? (mem_targets.1 ht).1))
    rw [slotChild_of_source hs hk] at hid
    obtain rfl := hr k _ hk hid
    exact ⟨slot_eq_kept.2 hs, by rw [hk]; exact hid⟩

/-- The rearrangement moves a matched child at most once, and it removes no matched child. -/
theorem exists_trail_rearrangement {matched : List (Option Nat)} {new : List Node} {i : Nat}
    (ho : o.path ≠ r) (hl : matched.length = new.length) (hd : (matched.filterMap id).Nodup)
    (hlt : ∀ k, some k ∈ matched → k < cs.length) (hi : some i ∈ matched)
    (hr : ∀ k x, cs[k]? = some x → x.origin.map Origin.path = some r → k = i) :
    ∃ moves t, Trail r (.element (some o) tag as st cs) (rearrangement [] matched cs.length new)
        moves t ∧
      AreMoves (if (element (some o) tag as st cs).identityAt? [i] = some r then 1 else 0) moves := by
  let child := slotChild cs new
  have hremovals : Trail r (.element (some o) tag as st cs) (removals [] matched cs.length) []
      (.element (some o) tag as st (((survivors matched cs.length).map Slot.kept).map child)) := by
    have hunmatched : ∀ k < cs.length, some k ∉ matched →
        ((child ∘ Slot.kept) k).origin.map Origin.path ≠ some r := by
      intro k hk hnone hid
      have hget := List.getElem?_eq_getElem hk
      rw [Function.comp_apply, show child (.kept k) = cs[k] by simp [child, slotChild, hk]] at hid
      rw [hr k _ hget hid] at hnone
      exact hnone hi
    have := @trail_removals r o tag as st matched (child ∘ Slot.kept) cs.length hunmatched []
    rwa [map_slotChild_kept, ← List.map_map, List.append_nil, List.append_nil] at this
  obtain ⟨moves, hplacements, hmoves⟩ := @exists_trail_placements r o tag as st
    (longestRise (newOrder matched cs.length)) child (targets matched new).reverse ho
    (fun t ht => slotChild_of_new (List.mem_reverse.1 ht)) none ((survivors matched cs.length).map .kept)
  refine ⟨moves, _, hremovals.append hplacements, hmoves.moves, hmoves.length_le.trans ?_⟩
  rw [List.countP_reverse]
  have honly (t : Target) (ht : t ∈ targets matched new)
      (hp : (child t.slot).origin.map Origin.path == some r) :=
    slot_of_identity hlt hr ht (beq_iff_eq.1 hp)
  split_ifs with hid
  · have hnodup := List.nodup_iff_count_le_one.1 (nodup_slots hl hd) (.kept i)
    rw [List.count, List.countP_map] at hnodup
    refine le_trans (List.countP_mono_left fun t ht hp => ?_) hnodup
    rw [Function.comp_apply, (honly t ht hp).1]
    exact beq_self_eq_true _
  · rw [List.countP_eq_zero.2 fun t ht hp =>
      hid ((identityAt?_singleton i).trans (honly t ht hp).2)]

/-! ## The edits of a matched child -/

variable {bs rt : Attrs} {ds : List Node} {d : Node} {c c' : Shadow} {own : List Edit} {i j : Nat}

/-- Of the edits inside children those of a node are in its own child. -/
theorem flatMap_childEditsOf (hown : (element (some o) tag as st cs).HasOwnOrigins)
    (hm : (matching (toNodes cs) ds)[j]? = some (some i)) (hc : cs[i]? = some c)
    (hd : ds[j]? = some d) (hr : r ∈ c.origins.map Origin.path)
    (h : Trail r c (c.toNode.diff d) own c') :
    ((matching (toNodes cs) ds).zip ds).flatMap (fun x => childEditsOf r cs x.1 x.2) =
      own.map (Edit.under [i]) := by
  have hother : ∀ source m, source ≠ some i → childEditsOf r cs source m = [] := by
    intro source m hsource
    cases source with
    | none => rfl
    | some k =>
      cases hk : cs[k]? with
      | none => simp only [childEditsOf, hk]
      | some x =>
        obtain ⟨own, x', hx⟩ := exists_trail_diff r x m
        have hnone : own = [] := hx.own_eq_nil fun hmem =>
          hsource (congrArg some (hown.eq_of_mem_origins hk hc hmem hr))
        simp only [childEditsOf, hk, hx.editsOf_eq, hnone, List.map_nil]
  refine (Node.flatMap_childEdits (f := fun x => childEditsOf r cs x.1 x.2)
    (nodup_matching _ _) hm hd hother).trans ?_
  simp only [childEditsOf, hc, h.editsOf_eq]

/-- **What a difference does to a matched child** is what its own difference does, and at most one move
of this child. -/
theorem exists_trail_element (hown : (element (some o) tag as st cs).HasOwnOrigins)
    (hm : (matching (toNodes cs) ds)[j]? = some (some i)) (hc : cs[i]? = some c)
    (hd : ds[j]? = some d) (hr : r ∈ c.origins.map Origin.path)
    (h : Trail r c (c.toNode.diff d) own c') :
    ∃ moves t, Trail r (.element (some o) tag as st cs)
        (Node.diff (element (some o) tag as st cs).toNode (.element tag bs rt ds))
        (own.map (Edit.under [i]) ++ moves) t ∧
      AreMoves (if c.identityAt? [] = some r then 1 else 0) moves := by
  have ho : o.path ≠ r := fun ho =>
    (hasOwnOrigins_iff.1 hown).1 o rfl c (List.mem_of_getElem? hc) (ho ▸ hr)
  have hl : (matching (toNodes cs) ds).length = ds.length := length_matching _ _
  obtain ⟨as', st', hattributes⟩ := @exists_trail_attributeEdits r o tag as st cs ho
    (.between as bs) (.between st rt)
  obtain ⟨cs', hinside, horigins⟩ := @exists_trail_children r o tag as' st' cs
    ((matching (toNodes cs) ds).zip ds)
    (by rw [List.map_fst_zip (Nat.le_of_eq hl)]; exact nodup_matching _ _)
  rw [flatMap_childEditsOf hown hm hc hd hr h] at hinside
  -- the children are still the same nodes
  have hlength : cs'.length = cs.length := by simpa using congrArg List.length horigins
  have hcount : (toNodes cs).length = cs'.length := by rw [toNodes_eq_map, List.length_map, hlength]
  have hchild (k : Nat) : cs'[k]?.map origin = cs[k]?.map origin := by
    rw [← List.getElem?_map, ← List.getElem?_map, horigins]
  have honly : ∀ k x, cs'[k]? = some x → x.origin.map Origin.path = some r → k = i := by
    intro k x hx hid
    obtain ⟨y, hy, hyx⟩ := Option.map_eq_some_iff.1 (((hchild k).symm.trans (by rw [hx]; rfl) :
      cs[k]?.map origin = some x.origin))
    exact hown.eq_of_mem_origins hy hc
      (mem_of_identityAt? (p := []) ((congrArg (Option.map Origin.path) hyx).trans hid)) hr
  have hidentity : (element (some o) tag as' st' cs').identityAt? [i] = c.identityAt? [] := by
    obtain ⟨x, hx, hxc⟩ := Option.map_eq_some_iff.1 ((hchild i).trans (by rw [hc]; rfl) :
      cs'[i]?.map origin = some c.origin)
    rw [identityAt?_singleton, hx, Option.bind_some, hxc]
    rfl
  obtain ⟨moves, t, hmoved, hmoves⟩ := @exists_trail_rearrangement r o tag as' st' cs' _ ds i ho hl
    (nodup_matching _ _) (fun k hk => hcount ▸ lt_of_mem_matching hk) (List.mem_of_getElem? hm) honly
  rw [hidentity] at hmoves
  refine ⟨moves, t, ?_, hmoves⟩
  rw [toNode, Node.diff_element, hcount]
  exact (hattributes.append hinside).append hmoved

/-- The same of a child wherever its parent is. -/
theorem exists_trail_child {s : Shadow} {new : Node} {p q : NodePath} {tag' : Text}
    {o' : Option Origin} (hown : s.HasOwnOrigins) (hs : s.IsSourced)
    (h : s.toNode.continued? new q = some p)
    (hx : Tree.descend s p = some (.element o' tag as st cs))
    (hn : Tree.descend new q = some (.element tag' bs rt ds))
    (hm : (matching (toNodes cs) ds)[j]? = some (some i)) (hc : cs[i]? = some c)
    (hd : ds[j]? = some d) (ho : c.origin = some o) :
    ∃ own moves t c', Trail o.path c (c.toNode.diff d) own c' ∧
      Trail o.path s (s.toNode.diff new) (own.map (Edit.under (p.child i)) ++ moves) t ∧
      AreMoves 1 moves := by
  induction q generalizing s new p with
  | nil =>
    obtain ⟨htag, rfl⟩ := Node.continued?_nil h
    cases hx
    cases hn
    cases htag
    obtain ⟨root, hroot⟩ := Option.isSome_iff_exists.1 hs.1
    subst hroot
    have hr : o.path ∈ c.origins.map Origin.path := path_mem_of_descend (p := []) rfl ho
    obtain ⟨own, c', htrail⟩ := exists_trail_diff o.path c d
    obtain ⟨moves, t, hmoved, hmoves⟩ := @exists_trail_element o.path root tag as st cs bs rt ds d c
      c' own i j hown hm hc hd hr htrail
    refine ⟨own, moves, t, c', htrail, hmoved, hmoves.mono ?_⟩
    split_ifs
    · exact Nat.le_refl 1
    · exact Nat.zero_le 1
  | cons k q ih =>
    obtain ⟨root, tag₀, as₀, st₀, cs₀, bs₀, rt₀, ds₀, l, x, n, p, rfl, rfl, hmatch, hget, hnew, hp,
      rfl⟩ := exists_of_continued?_cons h
    obtain ⟨x', hx', hxc⟩ := Option.bind_eq_some_iff.1 hx
    obtain ⟨n', hn', hnn⟩ := Option.bind_eq_some_iff.1 hn
    obtain rfl := Option.some.inj (hget.symm.trans hx')
    obtain rfl := Option.some.inj (hnew.symm.trans hn')
    obtain ⟨root, rfl⟩ := Option.isSome_iff_exists.1 hs.1
    have hxsourced : x.IsSourced := hs.2.isSourced (List.mem_of_getElem? hget)
    have hxown : x.HasOwnOrigins := (hasOwnOrigins_iff.1 hown).2.1 x (List.mem_of_getElem? hget)
    obtain ⟨own, moves, t, c', hchild, htrail, hmoves⟩ := ih hxown hxsourced hp hxc hnn
    -- the child is not the node on the way to it
    have hxchild : Tree.descend x (p.child i) = some c :=
      Tree.descend_child_iff.2 ⟨cs, Tree.childrenAt_eq_ok_iff.2 ⟨_, hxc, rfl⟩, hc⟩
    have hother : x.identityAt? [] ≠ some o.path := fun hid => by
      obtain ⟨o₁, ho₁, hpath⟩ := Option.map_eq_some_iff.1 hid
      have := hxown.eq_of_origin (p := []) rfl hxchild ho₁ ho hpath
      exact List.append_ne_nil_of_right_ne_nil p (List.cons_ne_nil i []) this.symm
    obtain ⟨none, u, hroot, hnone⟩ := @exists_trail_element o.path root tag₀ as₀ st₀ cs₀ bs₀ rt₀ ds₀
      n x t _ l k hown hmatch hget hnew (path_mem_of_descend hxchild ho) htrail
    rw [if_neg hother] at hnone
    obtain rfl := List.eq_nil_of_length_eq_zero (Nat.le_zero.1 hnone.length_le)
    rw [List.append_nil, List.map_append, List.map_map] at hroot
    have hunder : Edit.under [l] ∘ Edit.under (p.child i) =
        Edit.under (NodePath.child (l :: p) i) := by
      funext e
      simp [NodePath.child]
    rw [hunder] at hroot
    exact ⟨own, moves.map (Edit.under [l]), u, c', hchild, hroot, hmoves.under [l]⟩

/-- The edits of a matched element: it is not removed, it is replaced once if the new child has another
tag and not at all otherwise, and it is moved at most once. -/
theorem editsOf_child {s : Shadow} {new : Node} {p q : NodePath} {tag' : Text} {o' : Option Origin}
    (hown : s.HasOwnOrigins) (hs : s.IsSourced) (h : s.toNode.continued? new q = some p)
    (hx : Tree.descend s p = some (.element o' tag as st cs))
    (hn : Tree.descend new q = some (.element tag' bs rt ds))
    (hm : (matching (toNodes cs) ds)[j]? = some (some i)) (hc : cs[i]? = some c)
    (hd : ds[j]? = some d) (ho : c.origin = some o) (helement : c.toNode.isElement = true) :
    (∀ path, .remove path ∉ s.editsOf o.path (s.toNode.diff new)) ∧
      (s.editsOf o.path (s.toNode.diff new)).countP Edit.isReplace =
        (if c.toNode.tag? = d.tag? then 0 else 1) ∧
      (s.editsOf o.path (s.toNode.diff new)).countP Edit.isMove ≤ 1 := by
  have hchild : Tree.descend s (p.child i) = some c :=
    Tree.descend_child_iff.2 ⟨cs, Tree.childrenAt_eq_ok_iff.2 ⟨_, hx, rfl⟩, hc⟩
  obtain ⟨own, moves, t, c', hroot, htrail, hmoves⟩ := exists_trail_child hown hs h hx hn hm hc hd ho
  obtain ⟨hkept, hreplaced⟩ := hroot.own_of_root (hown.descend hchild)
    (by rw [identityAt?_root, ho]; rfl) helement
  rw [htrail.editsOf_eq, List.countP_append, List.countP_append]
  refine ⟨fun path hmem => ?_, ?_, ?_⟩
  · rcases List.mem_append.1 hmem with hmem | hmem
    · obtain ⟨e, he, heq⟩ := List.mem_map.1 hmem
      cases e with
      | remove path => exact (hkept _ he).2 path rfl
      | insert | replace | updateAttributes | updateText | move => cases heq
    · cases hmoves.moves _ hmem
  · have hnone : moves.countP Edit.isReplace = 0 := List.countP_eq_zero.2 fun e he => by
      rw [Edit.isReplace_of_isMove (hmoves.moves e he)]
      exact Bool.false_ne_true
    rw [hnone, List.countP_map, Nat.add_zero, ← hreplaced]
    exact List.countP_congr fun e _ => by rw [Function.comp_apply, Edit.isReplace_under]
  · have hnone : (own.map (Edit.under (p.child i))).countP Edit.isMove = 0 := by
      refine List.countP_eq_zero.2 fun e he => ?_
      obtain ⟨e', he', rfl⟩ := List.mem_map.1 he
      rw [Edit.isMove_under, (hkept e' he').1]
      exact Bool.false_ne_true
    rw [hnone, Nat.zero_add]
    exact List.countP_le_length.trans hmoves.length_le

/-! ## The place of a matched child -/

/-- The node that continues another one is where the new node is. -/
theorem descend_continuedAs {s x : Shadow} {new n : Node} {p q : NodePath}
    (h : s.toNode.continued? new q = some p) (hx : Tree.descend s p = some x)
    (hn : Tree.descend new q = some n) :
    Tree.descend (s.continuedAs new) q = some (x.continuedAs n) := by
  induction q generalizing s new p with
  | nil =>
    obtain ⟨-, rfl⟩ := Node.continued?_nil h
    cases hx
    cases hn
    rfl
  | cons j q ih =>
    obtain ⟨root, tag, as, st, cs, bs, rt, ds, i, c, d, r, rfl, rfl, hm, hc, hd, hr, rfl⟩ :=
      exists_of_continued?_cons h
    obtain ⟨c', hc', hcx⟩ := Option.bind_eq_some_iff.1 hx
    obtain ⟨d', hd', hdn⟩ := Option.bind_eq_some_iff.1 hn
    obtain rfl := Option.some.inj (hc.symm.trans hc')
    obtain rfl := Option.some.inj (hd.symm.trans hd')
    rw [continuedAs, if_pos rfl]
    exact Option.bind_eq_some_iff.2
      ⟨_, getElem?_allContinuedAs_of_matched hm hc hd, ih hr hcx hdn⟩

/-- A matched child is where the new child is, also if it was replaced. -/
theorem descend_continuedAs_child {s : Shadow} {new : Node} {p q : NodePath} {tag' : Text}
    {o' : Option Origin} (h : s.toNode.continued? new q = some p)
    (hx : Tree.descend s p = some (.element o' tag as st cs))
    (hn : Tree.descend new q = some (.element tag' bs rt ds))
    (hm : (matching (toNodes cs) ds)[j]? = some (some i)) (hc : cs[i]? = some c)
    (hd : ds[j]? = some d) :
    Tree.descend (s.continuedAs new) (q.child j) = some (c.continuedAs d) := by
  cases Node.tag?_eq_of_continued? h (by rw [isMap_toNode.descend, hx]; rfl) hn
  refine Tree.descend_child_iff.2 ⟨allContinuedAs cs (matching (toNodes cs) ds) ds,
    Tree.childrenAt_eq_ok_iff.2 ⟨_, descend_continuedAs h hx hn, ?_⟩, ?_⟩
  · rw [continuedAs, if_pos rfl]
    rfl
  · exact getElem?_allContinuedAs_of_matched hm hc hd

end Shadow

/-! ## Keyed children -/

/-- New nodes are put in for targets that continue no old child. -/
theorem exists_of_insert_mem_placements {stays : List Nat} {anchor : Option Slot}
    {current : List Slot} {ts : List Target} {index : Nat} {n : Node}
    (h : .insert [] index n ∈ placements [] stays anchor current ts) :
    ∃ t ∈ ts, t.source = none ∧ t.node = n := by
  induction ts generalizing anchor current with
  | nil => cases h
  | cons t ts ih =>
    have hrest {anchor : Option Slot} {current : List Slot}
        (h : .insert [] index n ∈ placements [] stays anchor current ts) :
        ∃ t' ∈ t :: ts, t'.source = none ∧ t'.node = n := by
      obtain ⟨t', ht', h⟩ := ih h
      exact ⟨t', List.mem_cons_of_mem t ht', h⟩
    rw [placements] at h
    split at h
    next hs =>
      rcases List.mem_cons.1 h with h | h
      · cases h
        exact ⟨t, List.mem_cons_self, hs, rfl⟩
      · exact hrest h
    · split_ifs at h
      · exact hrest h
      split at h
      · exact hrest h
      · rcases List.mem_cons.1 h with h | h
        · cases h
        · exact hrest h

namespace Node

variable {old new : Node} {p q : NodePath} {tag tag' : Text} {as st bs rt : Attrs}
  {cs ds : List Node}

/-- The nodes that a difference puts among the children of an element that it keeps are the new
children that continue no old ones. -/
theorem exists_of_insert_mem_diff (h : continued? old new q = some p)
    (ho : Tree.descend old p = some (.element tag as st cs))
    (hn : Tree.descend new q = some (.element tag' bs rt ds)) {index : Nat} {n : Node}
    (hmem : .insert p index n ∈ diff old new) :
    ∃ l : Nat, (matching cs ds)[l]? = some none ∧ ds[l]? = some n := by
  have hplaced : .insert p index n ∈ Edit.placedIn p (diff old new) :=
    List.mem_filter.2 ⟨hmem, beq_self_eq_true _⟩
  rw [placedIn_diff h ho hn] at hplaced
  obtain ⟨e, he, heq⟩ := List.mem_map.1 hplaced
  cases places_of_mem_placements he with
  | move => cases heq
  | insert =>
    obtain ⟨-, rfl, rfl⟩ := Edit.insert.inj heq
    obtain ⟨t, ht, hs, rfl⟩ := exists_of_insert_mem_placements he
    obtain ⟨hm, hd⟩ := mem_targets.1 (List.mem_reverse.1 ht)
    exact ⟨t.index, hs ▸ hm, hd⟩

/-- A key that one child has is found at an index. -/
theorem exists_key {ns : List Node} {k : Text} (h : ns.countP (·.key? == some k) = 1) :
    ∃ (i : Nat) (n : Node), ns[i]? = some n ∧ n.key? = some k ∧ uniqueKey? ns n = some k := by
  obtain ⟨n, hn, hk⟩ := List.countP_pos_iff.1 (h ▸ Nat.one_pos)
  obtain ⟨i, hi⟩ := List.mem_iff_getElem?.1 hn
  have hk := eq_of_beq hk
  exact ⟨i, n, hi, hk, uniqueKey?_of_key? hk h⟩

theorem isElement_of_key? {n : Node} {k : Text} (h : n.key? = some k) : n.isElement = true := by
  cases n with
  | text => cases h
  | element => rfl

/-- **Children with keys keep their identity.** A key that one old and one new child of an element has
makes them belong together: no node with this key is put in; the old child, wherever it is, is not
removed, it is replaced once if the new one has another tag and not at all otherwise, and it is moved
at most once; and unless it was replaced, it is the same node that is at the place of the new child in
the end. -/
theorem keyed_diff (h : continued? old new q = some p)
    (ho : Tree.descend old p = some (.element tag as st cs))
    (hn : Tree.descend new q = some (.element tag' bs rt ds)) {k : Text}
    (hold : cs.countP (·.key? == some k) = 1) (hnew : ds.countP (·.key? == some k) = 1) :
    ∃ i j c d, cs[i]? = some c ∧ ds[j]? = some d ∧ c.key? = some k ∧ d.key? = some k ∧
      (matching cs ds)[j]? = some (some i) ∧
      (∀ index n, .insert p index n ∈ diff old new → n.key? ≠ some k) ∧
      ∀ s : Shadow, s.HasOwnOrigins → s.IsSourced → s.toNode = old →
        ∃ x o t y, Tree.descend s (p.child i) = some x ∧ x.origin = some o ∧
          (∀ path, .remove path ∉ s.editsOf o.path (diff old new)) ∧
          (s.editsOf o.path (diff old new)).countP Edit.isReplace =
            (if c.tag? = d.tag? then 0 else 1) ∧
          (s.editsOf o.path (diff old new)).countP Edit.isMove ≤ 1 ∧
          s.applyAll (diff old new) = .ok t ∧ Tree.descend t (q.child j) = some y ∧
          y.toNode.Same d ∧ y.origin = if c.tag? = d.tag? then some o else none := by
  obtain ⟨i, c, hc, hck, hcunique⟩ := exists_key hold
  obtain ⟨j, d, hd, hdk, hdunique⟩ := exists_key hnew
  have hm := getElem?_matching hc hd hcunique hdunique
  refine ⟨i, j, c, d, hc, hd, hck, hdk, hm, fun index n hmem hk => ?_, ?_⟩
  · obtain ⟨l, hnone, hl⟩ := exists_of_insert_mem_diff h ho hn hmem
    rw [index_of_uniqueKey? hl hd (uniqueKey?_of_key? hk hnew) hdunique, hm] at hnone
    cases hnone
  rintro s hown hs rfl
  rw [Shadow.isMap_toNode.descend] at ho
  obtain ⟨parent, hparent, hnode⟩ := Option.map_eq_some_iff.1 ho
  cases parent with
  | text => cases hnode
  | element o' tag as st ss =>
    cases hnode
    rw [Shadow.toNodes_eq_map, List.getElem?_map] at hc
    obtain ⟨x, hx, rfl⟩ := Option.map_eq_some_iff.1 hc
    have hchild : Tree.descend s (p.child i) = some x :=
      Tree.descend_child_iff.2 ⟨ss, Tree.childrenAt_eq_ok_iff.2 ⟨_, hparent, rfl⟩, hx⟩
    obtain ⟨o, hxo⟩ := Option.isSome_iff_exists.1 (hs.descend hchild).isSome_origin
    obtain ⟨hkept, hreplaced, hmoved⟩ := Shadow.editsOf_child hown hs h hparent hn hm hx hd hxo
      (isElement_of_key? hck)
    have hrun := Shadow.applyAll_of_steps (Shadow.steps_diff (P := fun _ _ => True)
      (fun _ _ _ _ _ _ _ _ => trivial) false hs new trivial)
    exact ⟨x, o, s.continuedAs new, x.continuedAs d, hchild, hxo, hkept, hreplaced, hmoved, hrun,
      Shadow.descend_continuedAs_child h hparent hn hm hx hd, Shadow.toNode_continuedAs x d,
      by rw [Shadow.origin_continuedAs, hxo]⟩

/-- Two items that change places, and the first gets another tag: it is replaced in its old place and
moved then. -/
theorem keyed_diff_items :
    let key (name : Char) := Attrs.ofList [(keyName, [name])]
    let own (path : NodePath) : Option Origin := some ⟨path, default, default⟩
    let cs := [Node.element ['b'] (key 'x') .empty [], .element ['b'] (key 'y') .empty []]
    let d := Node.element ['i'] (key 'x') .empty []
    let ds := [Node.element ['b'] (key 'y') .empty [], d]
    let s := Shadow.element (own []) rootTag .empty .empty
      [.element (own [0]) ['b'] (key 'x') .empty [], .element (own [1]) ['b'] (key 'y') .empty []]
    let es := diff (root cs) (root ds)
    continued? (root cs) (root ds) [] = some [] ∧ cs.countP (·.key? == some ['x']) = 1 ∧
    ds.countP (·.key? == some ['x']) = 1 ∧ s.HasOwnOrigins ∧ s.IsSourced ∧ s.toNode = root cs ∧
    es = [.replace [0] d, .move [0] [] 1] ∧
    (∀ path, .remove path ∉ s.editsOf [0] es) ∧ (s.editsOf [0] es).countP Edit.isReplace = 1 ∧
    (s.editsOf [0] es).countP Edit.isMove ≤ 1 ∧
    ∃ t y, s.applyAll es = .ok t ∧ Tree.descend t [1] = some y ∧ y.toNode.Same d ∧
      y.origin = none := by
  intro key own cs d ds s es
  have hcontinued : continued? (root cs) (root ds) [] = some [] := rfl
  have hold : cs.countP (·.key? == some ['x']) = 1 := rfl
  have hnew : ds.countP (·.key? == some ['x']) = 1 := rfl
  have hown : s.HasOwnOrigins := by
    show ([[], [0], [1]] : List NodePath).Nodup
    decide
  have hs : s.IsSourced := by simp [s, own, Shadow.IsSourced, Shadow.AreSourced]
  obtain ⟨i, j, c, d', hc, hd, hck, hdk, -, -, hkept⟩ := keyed_diff hcontinued rfl rfl hold hnew
  obtain rfl : i = 0 := index_of_uniqueKey? hc (show cs[0]? = some _ from rfl)
    (uniqueKey?_of_key? hck hold) (uniqueKey?_of_key? rfl hold)
  obtain rfl : j = 1 := index_of_uniqueKey? hd (show ds[1]? = some d from rfl)
    (uniqueKey?_of_key? hdk hnew) (uniqueKey?_of_key? rfl hnew)
  cases hc
  cases hd
  obtain ⟨x, o, t, y, hx, ho, hremoved, hreplaced, hmoved, ht, hy, hsame, horigin⟩ :=
    hkept s hown hs rfl
  cases hx
  cases ho
  exact ⟨rfl, rfl, rfl, hown, hs, rfl, rfl, hremoved, hreplaced, hmoved, t, y, ht, hy, hsame,
    horigin⟩

end Node

end MarkupSync
