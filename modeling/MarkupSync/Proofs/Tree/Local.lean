import Mathlib.Data.List.Basic
import MarkupSync.Edit.Apply
import MarkupSync.Patch.Shadow

/-!
# Changes below a child

What is done below a child of a tree is done in the child, and nothing else changes.

* `Tree.insertAt_child`, `Tree.detach_child`, `Tree.updateAt_child`, `Tree.move_child`: the changes
  of trees;
* `Edit.under`: an edit below a path.
-/

namespace MarkupSync

namespace NodePath

theorem split?_cons {i : Nat} {p q : NodePath} {k : Nat} (h : p.split? = some (q, k)) :
    split? (i :: p) = some (i :: q, k) := by
  cases p with
  | nil => simp [split?] at h
  | cons j p =>
    simp only [split?] at h ⊢
    rw [List.getLast?_cons_cons]
    split at h
    · cases h
    next l hl => cases h; simp

end NodePath

namespace Tree

variable {τ : Type} [Tree τ]

/-- A tree with another child at an index. -/
def setChild (t : τ) (i : Nat) (c : τ) : τ := withChildren ((children t).set i c) t

variable {t c c' n : τ} {i k : Nat} {p q : NodePath}

theorem descend_child (hc : (children t)[i]? = some c) : descend t (i :: p) = descend c p := by
  simp [descend, hc]

theorem modifyAt_child (f : τ → τ) (hc : (children t)[i]? = some c) :
    modifyAt f (i :: p) t = setChild t i (modifyAt f p c) := by
  rw [modifyAt, setChild, List.modify_eq_set_getElem?, hc]
  rfl

theorem childrenAt_child {ns : List τ} (hc : (children t)[i]? = some c)
    (h : childrenAt c p = .ok ns) : childrenAt t (i :: p) = .ok ns := by
  simp only [childrenAt, descend_child hc] at h ⊢
  split at h
  · cases h
  · split at h
    · cases h
    next hn => simpa only [hn] using h

/-- A node put below a child. -/
theorem insertAt_child (hc : (children t)[i]? = some c) (h : insertAt c p k n = .ok c') :
    insertAt t (i :: p) k n = .ok (setChild t i c') := by
  simp only [insertAt] at h ⊢
  split at h
  · cases h
  next ns hns =>
    rw [childrenAt_child hc hns]
    split at h
    · cases h
    next hk =>
      cases h
      simp only [hk, if_false, modifyAt_child _ hc]

/-- A node taken out below a child. -/
theorem detach_child (hc : (children t)[i]? = some c) (h : detach c p = .ok (n, c')) :
    detach t (i :: p) = .ok (n, setChild t i c') := by
  simp only [detach, slot] at h ⊢
  split at h
  · cases h
  next s hs =>
    split at hs
    · cases hs
    next parent k hk =>
      rw [NodePath.split?_cons hk]
      split at hs
      · cases hs
      next ns hns =>
        simp only [childrenAt_child hc hns]
        split at hs
        · cases hs
        next hn =>
          cases hs
          cases h
          simp only [modifyAt_child _ hc]

/-- A node changed below a child. -/
theorem updateAt_child {f : τ → Except EditFault τ} (hc : (children t)[i]? = some c)
    (h : updateAt c p f = .ok c') : updateAt t (i :: p) f = .ok (setChild t i c') := by
  simp only [updateAt, descend_child hc] at h ⊢
  split at h
  · cases h
  next old ho =>
    split at h
    · cases h
    next new hnew =>
      cases h
      simp only [modifyAt_child _ hc]

end Tree

/-! ## Trees whose children can be read back -/

/-- Trees that have the children that they were given. -/
class LawfulTree (τ : Type) extends Tree τ where
  children?_withChildren (t : τ) (ns : List τ) (h : (children? t).isSome) :
    children? (withChildren ns t) = some ns
  withChildren_withChildren (t : τ) (ns ms : List τ) :
    withChildren ms (withChildren ns t) = withChildren ms t

namespace Tree

variable {τ : Type} [LawfulTree τ] {t c c' n : τ} {i k : Nat} {p q : NodePath}

theorem isSome_children?_of_child (hc : (children t)[i]? = some c) : (children? t).isSome := by
  cases h : children? t with
  | none => simp [children, h] at hc
  | some _ => rfl

theorem children_setChild (hc : (children t)[i]? = some c) :
    children (setChild t i c') = (children t).set i c' := by
  rw [children, setChild, LawfulTree.children?_withChildren _ _ (isSome_children?_of_child hc)]
  rfl

theorem child_setChild (hc : (children t)[i]? = some c) :
    (children (setChild t i c'))[i]? = some c' := by
  rw [children_setChild hc]
  obtain ⟨hi, -⟩ := List.getElem?_eq_some_iff.1 hc
  simp [hi]

theorem setChild_setChild {c'' : τ} (hc : (children t)[i]? = some c) :
    setChild (setChild t i c') i c'' = setChild t i c'' := by
  rw [setChild, children_setChild hc, List.set_set, setChild, setChild,
    LawfulTree.withChildren_withChildren]

/-- A node moved below a child. -/
theorem move_child (hc : (children t)[i]? = some c) (h : move c p q k = ⟨c', none⟩) :
    move t (i :: p) (i :: q) k = ⟨setChild t i c', none⟩ := by
  simp only [move] at h ⊢
  split at h
  · cases h
  next m rest hd =>
    rw [detach_child hc hd]
    cases hi : insertAt rest q k m with
    | error e => rw [hi] at h; cases h
    | ok u =>
      rw [hi] at h
      cases h
      simp only [insertAt_child (child_setChild hc) hi, setChild_setChild hc, Outcome.ofExcept]

end Tree

instance : LawfulTree Node where
  children?_withChildren t ns h := by cases t <;> first | rfl | cases h
  withChildren_withChildren t ns ms := by cases t <;> rfl

instance : LawfulTree Shadow where
  children?_withChildren t ns h := by cases t <;> first | rfl | cases h
  withChildren_withChildren t ns ms := by cases t <;> rfl

/-! ## Edits below a path -/

namespace Edit

/-- An edit of the node at a path, as an edit of the whole tree. -/
def under (path : NodePath) : Edit → Edit
  | insert parent index node => insert (path ++ parent) index node
  | remove p => remove (path ++ p)
  | replace p node => replace (path ++ p) node
  | updateAttributes p attributes style => updateAttributes (path ++ p) attributes style
  | updateText p content => updateText (path ++ p) content
  | move source parent index => move (path ++ source) (path ++ parent) index

@[simp] theorem under_nil (e : Edit) : e.under [] = e := by cases e <;> rfl

@[simp] theorem under_under (p q : NodePath) (e : Edit) : (e.under q).under p = e.under (p ++ q) := by
  cases e <;> simp [under]

end Edit

/-- An edit below a child is the edit of the child. -/
theorem Node.apply_under {n c c' : Node} {i : Nat} {e : Edit} (hc : (Tree.children n)[i]? = some c)
    (h : c.apply e = ⟨c', none⟩) : n.apply (e.under [i]) = ⟨Tree.setChild n i c', none⟩ := by
  have ok {r : Except EditError Node} (hr : Outcome.ofExcept c r = ⟨c', none⟩) : r = .ok c' := by
    cases r <;> cases hr
    rfl
  cases e with
  | insert p k m => exact congrArg (Outcome.ofExcept n) (Tree.insertAt_child hc (ok h))
  | remove p =>
    cases hd : Tree.detach c p with
    | error e => simp only [apply, hd] at h; cases h
    | ok r =>
      simp only [apply, hd] at h
      cases h
      simp only [apply, Edit.under, List.cons_append, List.nil_append, Tree.detach_child hc hd]
      rfl
  | replace p m => exact congrArg (Outcome.ofExcept n) (Tree.updateAt_child hc (ok h))
  | updateAttributes p d s => exact congrArg (Outcome.ofExcept n) (Tree.updateAt_child hc (ok h))
  | updateText p s => exact congrArg (Outcome.ofExcept n) (Tree.updateAt_child hc (ok h))
  | move p q k => exact Tree.move_child hc h

/-- An edit below a child of a document with origins is the edit of the child. -/
theorem Shadow.edit_under {s c c' : Shadow} {i : Nat} {e : Edit}
    (hc : (Tree.children s)[i]? = some c) (h : c.edit e = .ok c') :
    s.edit (e.under [i]) = .ok (Tree.setChild s i c') := by
  cases e with
  | insert p k m => exact Tree.insertAt_child hc h
  | remove p =>
    cases hd : Tree.detach c p with
    | error e => simp only [edit, hd] at h; cases h
    | ok r =>
      simp only [edit, hd] at h
      cases h
      simp only [edit, Edit.under, List.cons_append, List.nil_append, Tree.detach_child hc hd]
      rfl
  | replace p m => exact Tree.updateAt_child (f := fun _ => .ok (fresh m)) hc h
  | updateAttributes p d s => exact Tree.updateAt_child (f := withDeltas d s) hc h
  | updateText p s => exact Tree.updateAt_child (f := withContent s) hc h
  | move p q k =>
    have hm : Tree.move c p q k = ⟨c', none⟩ := by
      simp only [edit, Outcome.result] at h
      split at h
      next hn =>
        cases h
        cases hm : Tree.move c p q k
        simp_all
      next => cases h
    simp only [edit, Edit.under, List.singleton_append, Tree.move_child hc hm, Outcome.result]

end MarkupSync
