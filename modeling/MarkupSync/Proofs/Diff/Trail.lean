import MarkupSync.Proofs.Diff.Ancestors

/-!
# The edits of one node

The edits of a list that concern one node of a document, wherever the edits in front of them have
brought it.

* `Shadow.follow`: an edit, where a node that replaces another one takes over its origin;
* `Shadow.editsOf`: the edits of a node, and of what has replaced it;
* `Shadow.Trail`: edits one after another, with those of one node. `Trail.origin_eq`,
  `Trail.subperm`: the root keeps its origin, and no origin is added or doubled;
* `Trail.own_eq_nil`: a node that is not in the document has no edits;
* `Shadow.exists_trail`: edits of a document that succeed leave a trail;
* **`Trail.own_of_root`**: a difference neither removes nor moves the root, and it replaces it once
  exactly if the new one has another tag.
-/

namespace MarkupSync

namespace Edit

/-- Whether an edit replaces a node. -/
def isReplace : Edit → Bool
  | replace .. => true
  | insert .. | remove _ | updateAttributes .. | updateText .. | move .. => false

/-- Whether an edit moves a node. -/
def isMove : Edit → Bool
  | move .. => true
  | insert .. | remove _ | replace .. | updateAttributes .. | updateText .. => false

variable {e : Edit} {p q : NodePath}

theorem path_under (p : NodePath) (e : Edit) : (e.under p).path = p ++ e.path := by
  cases e <;> rfl

@[simp] theorem isReplace_under (p : NodePath) (e : Edit) : (e.under p).isReplace = e.isReplace := by
  cases e <;> rfl

@[simp] theorem isMove_under (p : NodePath) (e : Edit) : (e.under p).isMove = e.isMove := by
  cases e <;> rfl

theorem isReplace_of_isMove (h : e.isMove = true) : e.isReplace = false := by
  cases e <;> first | rfl | cases h

/-- An edit that replaces nothing leaves the root where it is. -/
theorem spares_root (h : e.isReplace = false) : e.Spares [] := by
  cases e with
  | replace => cases h
  | insert | remove => exact List.prefix_nil.1
  | updateAttributes | updateText => trivial
  | move => exact ⟨List.prefix_nil.1, List.prefix_nil.1⟩

/-- A root that is kept stays where it is. -/
theorem KeepsRoot.stays (h : e.KeepsRoot) (hpath : e.path = []) :
    e.isMove = false ∧ ∀ q, e ≠ .remove q := by
  cases e with
  | remove => exact absurd hpath h
  | move => exact absurd hpath h
  | insert | replace | updateAttributes | updateText => exact ⟨rfl, nofun⟩

end Edit

namespace Shadow

/-! ## Nodes that are followed -/

/-- The document with another origin of its root. -/
def withOrigin (o : Option Origin) : Shadow → Shadow
  | .text _ content => .text o content
  | .element _ tag as st cs => .element o tag as st cs

/-- The document after an edit. A node that replaces another one takes over its origin. -/
def follow (s : Shadow) : Edit → Except EditError Shadow
  | .replace path node => Tree.updateAt s path fun old => .ok ((fresh node).withOrigin old.origin)
  | e => s.edit e

/-- The path in the old document of the node at a path. A new node has none. -/
def identityAt? (s : Shadow) (path : NodePath) : Option NodePath :=
  (Tree.descend s path).bind fun x => x.origin.map Origin.path

/-- The edits of a node, given by its path in the old document, and of what has replaced it: those that
have its path when they are applied. -/
def editsOf (r : NodePath) (s : Shadow) : List Edit → List Edit
  | [] => []
  | e :: es =>
    let later := match s.follow e with
      | .error _ => []
      | .ok t => t.editsOf r es
    if s.identityAt? e.path = some r then e :: later else later

variable {s t u c c' x : Shadow} {e : Edit} {p r : NodePath} {i : Nat}

theorem toNode_withOrigin (o : Option Origin) (s : Shadow) : (s.withOrigin o).toNode = s.toNode := by
  cases s <;> rfl

theorem origin_withOrigin (o : Option Origin) (s : Shadow) : (s.withOrigin o).origin = o := by
  cases s <;> rfl

theorem origins_withOrigin_fresh (o : Option Origin) (n : Node) :
    ((fresh n).withOrigin o).origins = o.toList := by
  cases n with
  | text => rfl
  | element tag as st cs =>
    rw [fresh, withOrigin, origins, allOrigins_freshAll, List.append_nil]

theorem follow_of_ne (h : e.isReplace = false) : s.follow e = s.edit e := by
  cases e <;> first | rfl | cases h

theorem follow_of_step (h : Step (fun _ _ => True) false s e t) (he : e.isReplace = false) :
    s.follow e = .ok t := (follow_of_ne he).trans (edit_of_step h)

theorem follow_cases (h : s.follow e = .ok t) : e.isReplace = false ∧ s.edit e = .ok t ∨
    ∃ q n, e = .replace q n ∧
      Tree.updateAt s q (fun old => .ok ((fresh n).withOrigin old.origin)) = .ok t := by
  cases he : e.isReplace with
  | false => exact .inl ⟨rfl, follow_of_ne he ▸ h⟩
  | true =>
    cases e with
    | replace q n => exact .inr ⟨q, n, rfl, h⟩
    | insert | remove | updateAttributes | updateText | move => cases he

theorem toNode_follow (s : Shadow) (e : Edit) :
    (s.toNode.apply e).result = (s.follow e).map toNode := by
  cases e with
  | replace p n =>
    rw [Node.apply, Outcome.result_ofExcept]
    refine isMap_toNode.updateAt
      (g := fun old => .ok ((fresh n).withOrigin old.origin)) (h := fun _ => .ok n) (fun _ => ?_) s p
    exact congrArg Except.ok ((toNode_withOrigin _ _).trans (toNode_fresh n)).symm
  | insert | remove | updateAttributes | updateText | move =>
    rw [follow_of_ne rfl]
    exact toNode_edit s _

theorem follow_under (hc : (Tree.children s)[i]? = some c) (h : c.follow e = .ok c') :
    s.follow (e.under [i]) = .ok (Tree.setChild s i c') := by
  obtain ⟨he, hedit⟩ | ⟨q, n, rfl, hu⟩ := follow_cases h
  · rw [follow_of_ne ((Edit.isReplace_under [i] e).trans he)]
    exact edit_under hc hedit
  · exact Tree.updateAt_child (f := fun x => .ok ((fresh n).withOrigin x.origin)) hc hu

/-- The root keeps its origin. -/
theorem origin_follow (h : s.follow e = .ok t) : t.origin = s.origin := by
  have hroot : t.originAt? [] = s.originAt? [] := by
    obtain ⟨he, hedit⟩ | ⟨q, n, rfl, hu⟩ := follow_cases h
    · exact originAt?_edit (Edit.spares_root he) hedit
    · refine originAt?_updateAt (fun x y r hy hr => ?_) hu
      obtain ⟨-, rfl⟩ := List.append_eq_nil_iff.1 hr.symm
      cases hy
      exact congrArg some (origin_withOrigin _ _)
  exact Option.some.inj hroot

/-- No origin is added or doubled. -/
theorem subperm_follow (h : s.follow e = .ok t) : t.origins.Subperm s.origins := by
  obtain ⟨-, hedit⟩ | ⟨q, n, rfl, hu⟩ := follow_cases h
  · exact subperm_edit hedit
  · refine subperm_updateAt (fun x y hy => ?_) hu
    cases hy
    rw [origins_withOrigin_fresh, origins_eq x]
    exact (List.sublist_append_left ..).subperm

theorem identityAt?_child (hc : (Tree.children s)[i]? = some c) (p : NodePath) :
    s.identityAt? (i :: p) = c.identityAt? p := by
  rw [identityAt?, identityAt?, Tree.descend_child hc]

theorem identityAt?_root (s : Shadow) : s.identityAt? [] = s.origin.map Origin.path := rfl

theorem identityAt?_root_follow (h : s.follow e = .ok t) : t.identityAt? [] = s.identityAt? [] := by
  rw [identityAt?_root, identityAt?_root, origin_follow h]

theorem mem_of_identityAt? (h : s.identityAt? p = some r) : r ∈ s.origins.map Origin.path := by
  obtain ⟨x, hx, hr⟩ := Option.bind_eq_some_iff.1 h
  obtain ⟨o, ho, rfl⟩ := Option.map_eq_some_iff.1 hr
  exact path_mem_of_descend hx ho

/-! ## Trails -/

/-- Edits that lead from a document to another, with those of one node. -/
inductive Trail (r : NodePath) : Shadow → List Edit → List Edit → Shadow → Prop
  | nil {s : Shadow} : Trail r s [] [] s
  | own {s t u : Shadow} {e : Edit} {es own : List Edit} (h : s.follow e = .ok t)
    (hr : s.identityAt? e.path = some r) (hs : Trail r t es own u) : Trail r s (e :: es) (e :: own) u
  | other {s t u : Shadow} {e : Edit} {es own : List Edit} (h : s.follow e = .ok t)
    (hr : s.identityAt? e.path ≠ some r) (hs : Trail r t es own u) : Trail r s (e :: es) own u

variable {es fs own own' : List Edit}

/-- The edits of the node in a trail are its edits. -/
theorem Trail.editsOf_eq (h : Trail r s es own t) : s.editsOf r es = own := by
  induction h with
  | nil => rfl
  | own h hr _ ih => simp only [editsOf, hr, if_true, h, ih]
  | other h hr _ ih => simp only [editsOf, hr, if_false, h, ih]

theorem Trail.append (h : Trail r s es own t) (h' : Trail r t fs own' u) :
    Trail r s (es ++ fs) (own ++ own') u := by
  induction h with
  | nil => exact h'
  | own h hr _ ih => exact .own h hr (ih h')
  | other h hr _ ih => exact .other h hr (ih h')

theorem Trail.sublist (h : Trail r s es own t) : own.Sublist es := by
  induction h with
  | nil => exact .slnil
  | own _ _ _ ih => exact ih.cons_cons _
  | other _ _ _ ih => exact ih.cons _

theorem Trail.origin_eq (h : Trail r s es own t) : t.origin = s.origin := by
  induction h with
  | nil => rfl
  | own h _ _ ih => exact ih.trans (origin_follow h)
  | other h _ _ ih => exact ih.trans (origin_follow h)

theorem Trail.subperm (h : Trail r s es own t) : t.origins.Subperm s.origins := by
  induction h with
  | nil => exact .refl _
  | own h _ _ ih => exact ih.trans (subperm_follow h)
  | other h _ _ ih => exact ih.trans (subperm_follow h)

/-- The trail of a child is a trail of its parent. -/
theorem Trail.inside {o : Option Origin} {tag : Text} {as st : Attrs} {cs : List Shadow}
    (hc : cs[i]? = some c) (h : Trail r c es own c') :
    Trail r (.element o tag as st cs) (es.map (Edit.under [i])) (own.map (Edit.under [i]))
      (.element o tag as st (cs.set i c')) := by
  have hstep {c u : Shadow} {e : Edit} {cs : List Shadow} (hc : cs[i]? = some c)
      (h : c.follow e = .ok u) : (element o tag as st cs).follow (e.under [i]) =
        .ok (.element o tag as st (cs.set i u)) := follow_under (s := .element ..) hc h
  have hidentity {c : Shadow} {e : Edit} {cs : List Shadow} (hc : cs[i]? = some c) :
      (element o tag as st cs).identityAt? (e.under [i]).path = c.identityAt? e.path := by
    rw [Edit.path_under]
    exact identityAt?_child (s := .element ..) hc e.path
  induction h generalizing cs with
  | nil =>
    obtain ⟨hi, rfl⟩ := List.getElem?_eq_some_iff.1 hc
    rw [List.set_getElem_self]
    exact .nil
  | own h hr _ ih =>
    have hrest := ih (List.getElem?_set_self (List.getElem?_eq_some_iff.1 hc).1)
    rw [List.set_set] at hrest
    exact .own (hstep hc h) ((hidentity hc).trans hr) hrest
  | other h hr _ ih =>
    have hrest := ih (List.getElem?_set_self (List.getElem?_eq_some_iff.1 hc).1)
    rw [List.set_set] at hrest
    exact .other (hstep hc h) (fun heq => hr ((hidentity hc).symm.trans heq)) hrest

/-- A node that is not in the document has no edits. -/
theorem Trail.own_eq_nil (h : Trail r s es own t) (hr : r ∉ s.origins.map Origin.path) :
    own = [] := by
  induction h with
  | nil => rfl
  | own _ hown _ _ => exact absurd (mem_of_identityAt? hown) hr
  | other h _ _ ih => exact ih fun hmem => hr (List.map_subset _ (subperm_follow h).subset hmem)

/-- The edits of the root have its path. -/
theorem Trail.path_eq_nil (h : Trail r s es own t) (hown : s.HasOwnOrigins)
    (hr : s.identityAt? [] = some r) : ∀ e ∈ own, e.path = [] := by
  induction h with
  | nil => exact nofun
  | own h hpath _ ih =>
    refine List.forall_mem_cons.2 ⟨?_, ih (hown.of_subperm (subperm_follow h))
      ((identityAt?_root_follow h).trans hr)⟩
    obtain ⟨x, hx, hxr⟩ := Option.bind_eq_some_iff.1 hpath
    obtain ⟨o, ho, rfl⟩ := Option.map_eq_some_iff.1 hxr
    rw [identityAt?_root] at hr
    obtain ⟨o', ho', hoo⟩ := Option.map_eq_some_iff.1 hr
    exact hown.eq_of_origin hx (q := []) rfl ho ho' hoo.symm
  | other h _ _ ih =>
    exact ih (hown.of_subperm (subperm_follow h)) ((identityAt?_root_follow h).trans hr)

/-- Edits of a document that succeed leave a trail. -/
theorem exists_trail (r : NodePath) (h : (s.toNode.applyAll es).error = none) :
    ∃ own t, Trail r s es own t := by
  induction es generalizing s with
  | nil => exact ⟨[], s, .nil⟩
  | cons e es ih =>
    have hstep := toNode_follow s e
    rw [Node.applyAll, Outcome.run, Outcome.andThen] at h
    rw [Outcome.result] at hstep
    cases he : s.follow e with
    | error f =>
      rw [he] at hstep
      split at hstep
      · cases hstep
      next hsome =>
        simp only [hsome] at h
        cases h
    | ok t =>
      rw [he] at hstep
      split at hstep
      next hnone =>
        simp only [hnone, Except.ok.inj hstep] at h
        obtain ⟨own, u, hu⟩ := ih h
        by_cases hr : s.identityAt? e.path = some r
        · exact ⟨_, u, .own he hr hu⟩
        · exact ⟨_, u, .other he hr hu⟩
      next => cases hstep

theorem exists_trail_diff (r : NodePath) (s : Shadow) (new : Node) :
    ∃ own t, Trail r s (s.toNode.diff new) own t :=
  exists_trail r (Node.applyAll_diff s.toNode new).1

/-- **A difference neither removes nor moves the root**, and it replaces it once exactly if the new
one has another tag. -/
theorem Trail.own_of_root {new : Node} (h : Trail r s (s.toNode.diff new) own t)
    (hown : s.HasOwnOrigins) (hr : s.identityAt? [] = some r) (helement : s.toNode.isElement = true) :
    (∀ e ∈ own, e.isMove = false ∧ ∀ q, e ≠ .remove q) ∧
      own.countP Edit.isReplace = if s.toNode.tag? = new.tag? then 0 else 1 := by
  have hpaths := h.path_eq_nil hown hr
  have hmem : ∀ e ∈ own, e ∈ s.toNode.diff new := fun e he => h.sublist.subset he
  refine ⟨fun e he => ?_, ?_⟩
  · exact ((Node.admits_and_before_diff _ _).1 e (hmem e he)).keepsRoot.stays (hpaths e he)
  · split_ifs with htag
    · rw [List.countP_eq_zero]
      intro e he hreplace
      cases e with
      | replace path n =>
        obtain rfl : path = [] := hpaths _ he
        exact Node.ne_replace_of_mem_diff helement htag (hmem _ he) n rfl
      | insert | remove | updateAttributes | updateText | move => cases hreplace
    · rw [Node.diff_eq_replace htag] at h
      cases h with
      | own _ _ h =>
        cases h
        rfl
      | other _ hne _ => exact absurd hr hne

end Shadow

end MarkupSync
