import MarkupSync.Proofs.Diff.Order
import MarkupSync.Proofs.Patch.Shadow

/-!
# Paths of a difference

The edits of a difference are applied one after another, and each reads its paths in the document
as it is then. But the path of the parent leads to the same node as in the old document.

* `Edit.parents`: the paths of the parents of an edit;
* `Edit.Spares`: an edit that leaves the node at a path where it is;
* **`Shadow.originAt?_edit`**, `Shadow.originAt?_applyAll`: its origin is still at this path;
* `Edit.Before.spares`: an edit of a difference spares the parents of those behind it;
* `Node.Admits.exists_parent`: the parents of an edit are elements of the old document;
* **`Node.diff_parents`**: the parents of the edits of a difference are the same nodes when the
  edits are applied, and every list of children is changed in order.
-/

namespace MarkupSync

namespace Edit

/-- The paths of the parents of an edit: for a move the old and the new one. The root counts as a
parent of its own. -/
def parents : Edit → List NodePath
  | insert parent _ _ => [parent]
  | remove path => [path.dropLast]
  | replace path _ => [path.dropLast]
  | updateAttributes path _ _ => [path.dropLast]
  | updateText path _ => [path.dropLast]
  | move source parent _ => [source.dropLast, parent]

/-- An edit leaves the node at a path where it is: it replaces neither this node nor one around it,
and it rearranges no children on the way to it. -/
def Spares (p : NodePath) : Edit → Prop
  | insert parent _ _ => parent <+: p → parent = p
  | remove path => path.dropLast <+: p → path.dropLast = p
  | replace path _ => ¬ path <+: p
  | updateAttributes .. => True
  | updateText .. => True
  | move source parent _ =>
    (source.dropLast <+: p → source.dropLast = p) ∧ (parent <+: p → parent = p)

end Edit

/-! ## Nodes that an edit spares -/

namespace Shadow

variable {s t x y n : Shadow} {p q : NodePath} {k : Nat}

/-- The origin of the node at a path. -/
def originAt? (s : Shadow) (p : NodePath) : Option (Option Origin) :=
  (Tree.descend s p).map origin

theorem origin_withChildren (ss : List Shadow) (s : Shadow) :
    (Tree.withChildren ss s).origin = s.origin := by
  cases s <;> rfl

/-- A change of the node at a path is seen at another one only if it is seen in the node itself. -/
theorem originAt?_modifyAt {f : Shadow → Shadow}
    (h : ∀ r x, p = q ++ r → Tree.descend s q = some x → (f x).originAt? r = x.originAt? r) :
    (Tree.modifyAt f q s).originAt? p = s.originAt? p := by
  induction q generalizing s p with
  | nil => exact h p s rfl rfl
  | cons j q ih =>
    cases p with
    | nil => exact congrArg some (origin_withChildren _ s)
    | cons i p =>
      cases hc : (Tree.children s)[j]? with
      | none =>
        have hsame : (Tree.children s).modify j (Tree.modifyAt f q) = Tree.children s :=
          List.modify_eq_self (List.getElem?_eq_none_iff.1 hc)
        have hs : Tree.modifyAt f (j :: q) s = s := by
          rw [Tree.modifyAt, hsame]
          cases s <;> rfl
        rw [hs]
      | some c =>
        rw [Tree.modifyAt_child f hc]
        by_cases hij : i = j
        · subst hij
          rw [originAt?, originAt?, Tree.descend_child (Tree.child_setChild hc),
            Tree.descend_child hc]
          refine ih fun r x hr hx => h r x ?_ ?_
          · rw [hr, List.cons_append]
          · rw [Tree.descend_child hc, hx]
        · simp only [originAt?, Tree.descend, Tree.children_setChild hc]
          rw [List.getElem?_set_ne (Ne.symm hij)]

/-- Another list of children at a path leaves all nodes in place that are not below it. -/
theorem originAt?_withChildren (h : q <+: p → q = p) (ss : List Shadow) :
    (Tree.modifyAt (Tree.withChildren ss) q s).originAt? p = s.originAt? p := by
  refine originAt?_modifyAt fun r x hr _ => ?_
  have hq := h (hr ▸ List.prefix_append q r)
  obtain rfl : r = [] := by
    rw [hq] at hr
    exact List.self_eq_append_right.1 hr
  exact congrArg some (origin_withChildren ss x)

theorem originAt?_insertAt (hp : q <+: p → q = p) (h : Tree.insertAt s q k n = .ok t) :
    t.originAt? p = s.originAt? p := by
  rw [Tree.insertAt] at h
  split at h
  · cases h
  · split at h
    · cases h
    · cases h
      exact originAt?_withChildren hp _

theorem originAt?_detach (hp : q.dropLast <+: p → q.dropLast = p)
    (h : Tree.detach s q = .ok (n, t)) : t.originAt? p = s.originAt? p := by
  rw [Tree.detach] at h
  split at h
  · cases h
  next slot hslot =>
    cases h
    have hparent : slot.parent = q.dropLast := by
      rw [Tree.slot] at hslot
      split at hslot
      · cases hslot
      next parent index hsplit =>
        rw [NodePath.split?] at hsplit
        split at hsplit
        · cases hsplit
        · cases hsplit
          split at hslot
          · cases hslot
          · split at hslot
            · cases hslot
            · cases hslot
              rfl
    rw [hparent]
    exact originAt?_withChildren hp _

/-- A revised node has the nodes below it where they were. -/
theorem Revises.originAt? (h : y.Revises x) (r : NodePath) : y.originAt? r = x.originAt? r := by
  cases r with
  | nil => exact congrArg some h.origin
  | cons i r => rw [Shadow.originAt?, Shadow.originAt?, Tree.descend, Tree.descend, h.children]

theorem originAt?_updateAt {f : Shadow → Except EditFault Shadow}
    (hf : ∀ x y r, f x = .ok y → p = q ++ r → y.originAt? r = x.originAt? r)
    (h : Tree.updateAt s q f = .ok t) : t.originAt? p = s.originAt? p := by
  rw [Tree.updateAt] at h
  split at h
  · cases h
  next x hx =>
    split at h
    · cases h
    next y hy =>
      cases h
      refine originAt?_modifyAt fun r x' hr hx' => ?_
      obtain rfl := Option.some.inj (hx.symm.trans hx')
      exact hf x y r hy hr

/-- **An edit leaves the node that it spares where it is.** -/
theorem originAt?_edit {e : Edit} (he : e.Spares p) (h : s.edit e = .ok t) :
    t.originAt? p = s.originAt? p := by
  cases e with
  | insert q k n => exact originAt?_insertAt he h
  | remove q =>
    obtain ⟨⟨n, rest⟩, hd, rfl⟩ := exists_of_map_eq_ok h
    exact originAt?_detach he hd
  | replace q n =>
    have hu : Tree.updateAt s q (fun _ => .ok (fresh n)) = .ok t := h
    exact originAt?_updateAt (fun x y r _ hr => absurd (hr ▸ List.prefix_append q r) he) hu
  | updateAttributes q a b =>
    have hu : Tree.updateAt s q (withDeltas a b) = .ok t := h
    exact originAt?_updateAt (fun x y r hy _ => (revises_of_withDeltas hy).originAt? r) hu
  | updateText q content =>
    have hu : Tree.updateAt s q (withContent content) = .ok t := h
    exact originAt?_updateAt (fun x y r hy _ => (revises_of_withContent hy).originAt? r) hu
  | move q parent k =>
    have hm : (Tree.move s q parent k).result = .ok t := h
    rw [Outcome.result, Tree.move] at hm
    cases hd : Tree.detach s q with
    | error f =>
      rw [hd] at hm
      cases hm
    | ok r =>
      obtain ⟨n, rest⟩ := r
      rw [hd] at hm
      cases hi : Tree.insertAt rest parent k n with
      | error f =>
        simp only [hi] at hm
        cases hm
      | ok u =>
        simp only [hi] at hm
        cases hm
        show u.originAt? p = _
        rw [originAt?_insertAt he.2 hi, originAt?_detach he.1 hd]

/-- Edits that all spare a node leave it where it is. -/
theorem originAt?_applyAll {es : List Edit} (he : ∀ e ∈ es, e.Spares p)
    (h : s.applyAll es = .ok t) : t.originAt? p = s.originAt? p := by
  induction es generalizing s with
  | nil =>
    cases h
    rfl
  | cons e es ih =>
    obtain ⟨u, hu, hut⟩ := exists_of_applyAll_cons h
    obtain ⟨he, hes⟩ := List.forall_mem_cons.1 he
    rw [ih hes hut, originAt?_edit he hu]

/-- Edits that can be applied with more behind them can be applied. -/
theorem exists_of_applyAll_append {es fs : List Edit} (h : s.applyAll (es ++ fs) = .ok t) :
    ∃ u, s.applyAll es = .ok u ∧ u.applyAll fs = .ok t := by
  induction es generalizing s with
  | nil => exact ⟨s, rfl, h⟩
  | cons e es ih =>
    obtain ⟨v, hv, hvt⟩ := exists_of_applyAll_cons h
    obtain ⟨u, hu, hut⟩ := ih hvt
    refine ⟨u, ?_, hut⟩
    rw [applyAll, apply, hv]
    exact hu

end Shadow

/-! ## Parents in a difference -/

namespace Edit

variable {e f : Edit} {i j : Nat} {p : NodePath}

theorem dropLast_under {path : NodePath} (h : path ≠ []) :
    ([i] ++ path).dropLast = i :: path.dropLast := List.dropLast_cons_of_ne_nil h

theorem Places.parents (he : e.Places) (hp : p ∈ e.parents) : p = [] := by
  cases he <;> simpa [Edit.parents] using hp

/-- A parent of an edit below a child is the root or below the same child. -/
theorem exists_parent_of_under (hp : p ∈ (e.under [i]).parents) :
    p = [] ∨ ∃ q ∈ e.parents, p = i :: q := by
  have key (path : NodePath) : (i :: path).dropLast = [] ∨
      (i :: path).dropLast = i :: path.dropLast := by
    cases path <;> simp
  cases e with
  | insert parent k n =>
    exact .inr ⟨parent, List.mem_singleton_self _, List.mem_singleton.1 hp⟩
  | move source parent k =>
    obtain hp | hp : p = (i :: source).dropLast ∨ p = i :: parent := by
      simpa [under, parents] using hp
    · exact (key source).imp (hp ▸ ·) fun h =>
        ⟨source.dropLast, List.mem_cons_self, hp.trans h⟩
    · exact .inr ⟨parent, by simp [parents], hp⟩
  | remove path | replace path | updateAttributes path | updateText path =>
    have hp : p = (i :: path).dropLast := List.mem_singleton.1 hp
    exact (key path).imp (hp ▸ ·) fun h =>
      ⟨path.dropLast, List.mem_singleton_self _, hp.trans h⟩

/-- An edit below a child spares what its edit spares there. -/
theorem Spares.under (he : e.KeepsRoot) (h : e.Spares p) : (e.under [i]).Spares (i :: p) := by
  have key {q : NodePath} (hq : q <+: p → q = p) : i :: q <+: i :: p → i :: q = i :: p :=
    fun h => congrArg _ (hq (List.cons_prefix_cons.1 h).2)
  cases e with
  | insert => exact key h
  | remove path =>
    show ([i] ++ path).dropLast <+: i :: p → ([i] ++ path).dropLast = i :: p
    rw [dropLast_under he]
    exact key h
  | replace => exact fun hp => h (List.cons_prefix_cons.1 hp).2
  | updateAttributes | updateText => trivial
  | move source =>
    refine ⟨?_, key h.2⟩
    rw [dropLast_under he]
    exact key h.1

/-- An edit below a child spares the root and all that is below other children. -/
theorem KeepsRoot.spares_under (he : e.KeepsRoot) (hp : ∀ q, p ≠ i :: q) :
    (e.under [i]).Spares p := by
  have key (q : NodePath) : ¬ i :: q <+: p := by
    rintro ⟨r, rfl⟩
    exact hp _ rfl
  cases e with
  | insert parent => exact fun h => (key parent h).elim
  | remove path =>
    show ([i] ++ path).dropLast <+: p → ([i] ++ path).dropLast = p
    rw [dropLast_under he]
    exact fun h => (key _ h).elim
  | replace path => exact key path
  | updateAttributes | updateText => trivial
  | move source parent =>
    refine ⟨?_, fun h => (key parent h).elim⟩
    rw [dropLast_under he]
    exact fun h => (key _ h).elim

theorem Places.spares_root (he : e.Places) : e.Spares [] := by
  cases he with
  | insert => exact fun _ => rfl
  | move => exact ⟨fun _ => rfl, fun _ => rfl⟩

/-- **An edit of a difference spares the parents of those behind it.** -/
theorem Before.spares (h : e.Before f) : ∀ p ∈ f.parents, e.Spares p := by
  induction h with
  | attributes => exact fun _ _ => trivial
  | inside he _ _ ih =>
    intro p hp
    obtain rfl | ⟨q, hq, rfl⟩ := exists_parent_of_under hp
    · exact he.spares_under nofun
    · exact (ih q hq).under he
  | apart he _ hij =>
    intro p hp
    refine he.spares_under fun r hr => ?_
    obtain rfl | ⟨q, -, rfl⟩ := exists_parent_of_under hp
    · cases hr
    · exact hij (List.cons.inj hr).1.symm
  | removed he =>
    intro p hp
    cases List.mem_singleton.1 hp
    exact he.spares_under nofun
  | placed he hf =>
    intro p hp
    cases hf.parents hp
    exact he.spares_under nofun
  | removals =>
    intro p hp
    cases List.mem_singleton.1 hp
    exact fun _ => rfl
  | placedRemoved hf =>
    intro p hp
    cases hf.parents hp
    exact fun _ => rfl
  | placements he hf =>
    intro p hp
    cases hf.parents hp
    exact he.spares_root

end Edit

namespace Node

/-- The parents of an edit are elements of the old document, unless the document is a text. -/
theorem Admits.exists_parent {n : Node} {e : Edit} (h : n.Admits e) :
    ∀ p ∈ e.parents, ∃ x, Tree.descend n p = some x ∧
      (x.isElement = true ∨ n.isElement = false ∧ p = []) := by
  induction h with
  | text =>
    intro p hp
    cases List.mem_singleton.1 hp
    exact ⟨_, rfl, .inr ⟨rfl, rfl⟩⟩
  | @replace n m =>
    intro p hp
    cases List.mem_singleton.1 hp
    cases n with
    | text => exact ⟨_, rfl, .inr ⟨rfl, rfl⟩⟩
    | element => exact ⟨_, rfl, .inl rfl⟩
  | attributes | removal =>
    intro p hp
    cases List.mem_singleton.1 hp
    exact ⟨_, rfl, .inl rfl⟩
  | placement he =>
    intro p hp
    cases he.parents hp
    exact ⟨_, rfl, .inl rfl⟩
  | @inside tag as st cs i c e hc he ih =>
    intro p hp
    obtain rfl | ⟨q, hq, rfl⟩ := Edit.exists_parent_of_under hp
    · exact ⟨_, rfl, .inl rfl⟩
    · obtain ⟨x, hx, hx' | ⟨hc', -⟩⟩ := ih q hq
      · exact ⟨x, (Tree.descend_child hc).trans hx, .inl hx'⟩
      · -- the parent of an edit of a text as a whole is the element that has this text
        cases he with
        | text | replace => cases List.mem_singleton.1 hp
        | attributes | removal | placement | inside => cases hc'

/-- The parents of the edits of a difference are the same nodes when the edits are applied. -/
theorem exists_parent_of_diff {s : Shadow} (hs : s.IsSourced) {new : Node}
    {front back : List Edit} {e : Edit} (h : s.toNode.diff new = front ++ e :: back) {p : NodePath}
    (hp : p ∈ e.parents) : ∃ t x y, s.applyAll front = .ok t ∧ Tree.descend s p = some x ∧
      Tree.descend t p = some y ∧ y.origin = x.origin := by
  obtain ⟨hadmits, hbefore⟩ := admits_and_before_diff s.toNode new
  rw [h] at hadmits hbefore
  -- all edits in front of `e` spare its parents
  have hspares : ∀ f ∈ front, f.Spares p := fun f hf =>
    ((List.pairwise_append.1 hbefore).2.2 f hf e List.mem_cons_self).spares p hp
  have hsteps := Shadow.steps_diff (P := fun _ _ => True) (fun _ _ _ _ _ _ _ _ => trivial) false
    hs new trivial
  have hrun := Shadow.applyAll_of_steps hsteps
  rw [← diff, h] at hrun
  obtain ⟨t, ht, -⟩ := Shadow.exists_of_applyAll_append hrun
  obtain ⟨n, hn, -⟩ := (hadmits e (by simp)).exists_parent p hp
  rw [Shadow.isMap_toNode.descend] at hn
  obtain ⟨x, hx, rfl⟩ := Option.map_eq_some_iff.1 hn
  have horigin := Shadow.originAt?_applyAll hspares ht
  rw [Shadow.originAt?, Shadow.originAt?, hx, Option.map_some] at horigin
  obtain ⟨y, hy, hyx⟩ := Option.map_eq_some_iff.1 horigin
  exact ⟨t, x, y, ht, hx, hy, hyx⟩

/-- **The parents of the edits of a difference are elements of the old document, and the same nodes
when the edits are applied; and every list of children is changed in order.** Only the one edit of a
document that is a text has this text as its parent. -/
theorem diff_parents (old new : Node) :
    (∀ e ∈ diff old new, ∀ p ∈ e.parents, ∃ x, Tree.descend old p = some x ∧
      (x.isElement = true ∨ old.isElement = false ∧ p = [])) ∧
    (∀ s : Shadow, s.IsSourced → s.toNode = old →
      ∀ front e back, diff old new = front ++ e :: back → ∀ p ∈ e.parents,
        ∃ t x y, s.applyAll front = .ok t ∧ Tree.descend s p = some x ∧
          Tree.descend t p = some y ∧ y.origin = x.origin) ∧
    ∀ p, (diff old new).Pairwise (Edit.InOrder p) := by
  refine ⟨fun e he => ((admits_and_before_diff old new).1 e he).exists_parent, ?_,
    inOrder_diff old new⟩
  rintro s hs rfl front e back h p hp
  exact exists_parent_of_diff hs h hp

/-- Three items, of which the second is dropped and the others change places: when the text of the
first is changed, its parent is the item that it is in the old document. -/
theorem diff_parents_items :
    let item (name : Char) := Attrs.ofList [(keyName, [name])]
    let own (path : NodePath) : Option Origin := some ⟨path, default, default⟩
    let old := root [.element [] (item 'a') .empty [.text ['x']], .element [] (item 'b') .empty [],
      .element [] (item 'c') .empty []]
    let new := root [.element [] (item 'c') .empty [.text ['z']],
      .element [] (item 'a') .empty [.text ['y']]]
    let s := Shadow.element (own []) rootTag .empty .empty
      [.element (own [0]) [] (item 'a') .empty [.text (own [0, 0]) ['x']],
        .element (own [1]) [] (item 'b') .empty [], .element (own [2]) [] (item 'c') .empty []]
    diff old new =
      [.insert [2] 0 (.text ['z'])] ++ .updateText [0, 0] ['y'] :: [.remove [1], .move [0] [] 1] ∧
    s.IsSourced ∧ s.toNode = old ∧
    (∃ t y, s.applyAll [.insert [2] 0 (.text ['z'])] = .ok t ∧ Tree.descend t [0] = some y ∧
      y.origin = own [0]) ∧
    ∀ p, (diff old new).Pairwise (Edit.InOrder p) := by
  intro item own old new s
  have hdiff : diff old new =
      [.insert [2] 0 (.text ['z'])] ++
        .updateText [0, 0] ['y'] :: [.remove [1], .move [0] [] 1] := rfl
  have hs : s.IsSourced := by simp [s, own, Shadow.IsSourced, Shadow.AreSourced]
  obtain ⟨-, hparent, horder⟩ := diff_parents old new
  obtain ⟨t, x, y, ht, hx, hy, hxy⟩ :=
    hparent s hs rfl _ _ _ hdiff [0] (List.mem_singleton_self _)
  cases hx
  exact ⟨hdiff, hs, rfl, ⟨t, y, ht, hy, hxy⟩, horder⟩

/-- A text with other content is its own parent. -/
theorem not_all_parents_isElement : ¬ ∀ old new : Node, ∀ e ∈ diff old new, ∀ p ∈ e.parents,
    ∃ x, Tree.descend old p = some x ∧ x.isElement = true := by
  intro h
  obtain ⟨x, hx, helement⟩ := h (.text ['a']) (.text ['b']) (.updateText [] ['b'])
    (List.mem_singleton_self _) [] (List.mem_singleton_self _)
  cases hx
  cases helement

end Node

end MarkupSync
