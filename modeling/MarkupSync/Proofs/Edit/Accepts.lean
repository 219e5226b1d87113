import Mathlib.Data.List.Perm.Basic
import MarkupSync.Proofs.Tree.Map

/-!
# Edits that can be applied

* `Node.HasRoom`: an element with enough children in front of an index;
* `Node.without`: a document without one of its nodes;
* `Node.Accepts`: what an edit needs. A move reads its target in the document without its node;
* `Node.leftBy`: what an edit leaves that cannot be applied;
* `Node.count_modifyAt`: the number of nodes when one of them is changed;
* **`Node.apply_exact`**: an edit succeeds exactly if the document accepts it, and what is left
  otherwise; a move that succeeds keeps the number of nodes and the node that it moves.
-/

namespace MarkupSync.Node

open MarkupSync.Tree

/-! ## What an edit needs -/

/-- The element at a path has at least as many children as an index says. -/
def HasRoom (n : Node) (parent : NodePath) (index : Nat) : Prop :=
  ∃ x, descend n parent = some x ∧ x.isElement = true ∧ index ≤ x.children.length

/-- The document without the node at a path and all that is in it. The root is never taken out. -/
def without : NodePath → Node → Node
  | [], n => n
  | _ :: _, .text content => .text content
  | [i], .element tag as st cs => .element tag as st (cs.eraseIdx i)
  | i :: j :: path, .element tag as st cs =>
    .element tag as st (cs.modify i (without (j :: path)))

/-- What an edit needs. -/
def Accepts (n : Node) : Edit → Prop
  | .insert parent index _ => n.HasRoom parent index
  | .remove path => path ≠ [] ∧ ∃ x, descend n path = some x
  | .replace path _ => ∃ x, descend n path = some x
  | .updateAttributes path _ _ => ∃ x, descend n path = some x ∧ x.isElement = true
  | .updateText path _ => ∃ x, descend n path = some x ∧ x.isText = true
  | .move source parent index =>
    source ≠ [] ∧ (∃ x, descend n source = some x) ∧ (n.without source).HasRoom parent index

/-- What is left when an edit cannot be applied: all, except that a move may have taken its node
out. -/
def leftBy (n : Node) : Edit → Node
  | .move source _ _ =>
    match descend n source with
    | none => n
    | some _ => n.without source
  | _ => n

/-! ## Lists of children -/

variable {n m x : Node} {ns : List Node} {p path : NodePath} {i k : Nat}

theorem childrenAt_eq_ok_iff : childrenAt n p = .ok ns ↔
    ∃ x, descend n p = some x ∧ x.isElement = true ∧ x.children = ns := by
  rw [Tree.childrenAt_eq_ok_iff]
  refine exists_congr fun x => and_congr_right fun _ => ?_
  cases x with
  | text => exact ⟨nofun, nofun⟩
  | element => exact ⟨fun h => ⟨rfl, Option.some.inj h⟩, fun h => congrArg some h.2⟩

theorem hasRoom_iff : n.HasRoom p k ↔ ∃ ns, childrenAt n p = .ok ns ∧ k ≤ ns.length := by
  simp only [childrenAt_eq_ok_iff]
  constructor
  · rintro ⟨x, hx, helement, hk⟩
    exact ⟨_, ⟨x, hx, helement, rfl⟩, hk⟩
  · rintro ⟨_, ⟨x, hx, helement, rfl⟩, hk⟩
    exact ⟨x, hx, helement, hk⟩

/-- The document without a child is the document with one child fewer. -/
theorem modifyAt_eraseIdx (h : childrenAt n p = .ok ns) :
    modifyAt (withChildren (ns.eraseIdx i)) p n = n.without (p.child i) := by
  obtain ⟨x, hx, hns⟩ := Tree.childrenAt_eq_ok_iff.1 h
  clear h
  induction p generalizing n with
  | nil =>
    cases hx
    cases x with
    | text => cases hns
    | element =>
      cases hns
      rfl
  | cons j p ih =>
    obtain ⟨c, hc, hcx⟩ := Option.bind_eq_some_iff.1 hx
    cases n with
    | text => cases hc
    | element tag as st cs =>
      have hwithout : (element tag as st cs).without (NodePath.child (j :: p) i) =
          .element tag as st (cs.modify j (without (NodePath.child p i))) := by
        cases p <;> rfl
      have hmodify : cs.modify j (without (NodePath.child p i)) =
          cs.set j (c.without (NodePath.child p i)) := by
        rw [List.modify_eq_set_getElem?, show cs[j]? = some c from hc]
        rfl
      rw [modifyAt_child _ hc, ih hcx, hwithout, hmodify]
      rfl

/-- Any node but the root can be taken out. -/
theorem detach_eq_ok_iff :
    detach n path = .ok (x, m) ↔ path ≠ [] ∧ descend n path = some x ∧ n.without path = m := by
  rw [Tree.detach_eq_ok_iff]
  constructor
  · rintro ⟨p, i, ns, rfl, hns, hx, rfl⟩
    refine ⟨by simp [NodePath.child], ?_, (modifyAt_eraseIdx hns).symm⟩
    exact descend_child_iff.2 ⟨ns, hns, hx⟩
  · rintro ⟨hpath, hx, rfl⟩
    obtain rfl | ⟨p, i, rfl⟩ := List.eq_nil_or_concat' path
    · exact absurd rfl hpath
    · obtain ⟨ns, hns, hi⟩ := descend_child_iff.1 hx
      exact ⟨p, i, ns, rfl, hns, hi, modifyAt_eraseIdx hns⟩

/-- A node that was put among others is there. -/
theorem descend_insertAt (h : insertAt n p k x = .ok m) : descend m (p.child k) = some x := by
  obtain ⟨ns, -, hk, hm⟩ := childrenAt_insertAt h
  exact descend_child_iff.2 ⟨_, hm, by rw [List.getElem?_insertIdx_self, if_pos hk]⟩

/-! ## Numbers of nodes -/

theorem countAll_perm {ms : List Node} (h : ns.Perm ms) : countAll ns = countAll ms := by
  induction h with
  | nil => rfl
  | cons n _ ih => rw [countAll, countAll, ih]
  | swap n m ns => exact Nat.add_left_comm ..
  | trans _ _ ih ih' => exact ih.trans ih'

theorem countAll_insertIdx (hk : k ≤ ns.length) :
    countAll (ns.insertIdx k x) = x.count + countAll ns :=
  countAll_perm (List.perm_insertIdx x ns hk)

theorem countAll_eraseIdx (hx : ns[i]? = some x) :
    countAll ns = x.count + countAll (ns.eraseIdx i) := by
  obtain ⟨hi, rfl⟩ := List.getElem?_eq_some_iff.1 hx
  exact countAll_perm (List.getElem_cons_eraseIdx_perm hi).symm

/-- The number of nodes changes as in the node that is changed. -/
theorem count_modifyAt {f : Node → Node} (h : descend n p = some x) :
    (modifyAt f p n).count + x.count = n.count + (f x).count := by
  induction p generalizing n with
  | nil =>
    cases h
    exact Nat.add_comm ..
  | cons i p ih =>
    obtain ⟨c, hc, hcx⟩ := Option.bind_eq_some_iff.1 h
    have hcount := ih hcx
    rw [modifyAt_child f hc]
    cases n with
    | text => cases hc
    | element tag as st cs =>
      obtain ⟨hi, rfl⟩ := List.getElem?_eq_some_iff.1 (show cs[i]? = some c from hc)
      have hset := countAll_perm (List.set_perm_cons_eraseIdx hi (modifyAt f p cs[i]))
      have hold := countAll_perm (List.getElem_cons_eraseIdx_perm hi)
      rw [countAll] at hset hold
      show 1 + countAll (cs.set i _) + x.count = 1 + countAll cs + (f x).count
      omega

theorem count_withChildren (h : children? x = some ns) (ms : List Node) :
    (withChildren ms x).count + countAll ns = x.count + countAll ms := by
  cases x with
  | text => cases h
  | element =>
    cases h
    exact Nat.add_right_comm ..

theorem count_insertAt (h : insertAt n p k x = .ok m) : m.count = n.count + x.count := by
  obtain ⟨ns, hns, hk, rfl⟩ := insertAt_eq_ok_iff.1 h
  obtain ⟨y, hy, hys⟩ := Tree.childrenAt_eq_ok_iff.1 hns
  have hcount := count_modifyAt (f := withChildren (ns.insertIdx k x)) hy
  have hchildren := count_withChildren hys (ns.insertIdx k x)
  have hinsert := countAll_insertIdx (x := x) hk
  omega

/-- The nodes of the document without one of its nodes, and those in this node. -/
theorem count_without (hpath : path ≠ []) (h : descend n path = some x) :
    (n.without path).count + x.count = n.count := by
  obtain ⟨p, i, ns, rfl, hns, hx, hm⟩ := Tree.detach_eq_ok_iff.1
    (detach_eq_ok_iff.2 ⟨hpath, h, rfl⟩)
  obtain ⟨y, hy, hys⟩ := Tree.childrenAt_eq_ok_iff.1 hns
  have hcount := count_modifyAt (f := withChildren (ns.eraseIdx i)) hy
  have hchildren := count_withChildren hys (ns.eraseIdx i)
  have herase := countAll_eraseIdx hx
  rw [hm] at hcount
  omega

/-! ## Edits -/

theorem error_ofExcept {r : Except EditError Node} :
    (Outcome.ofExcept n r).error = none ↔ ∃ m, r = .ok m := by
  cases r <;> simp [Outcome.ofExcept]

theorem exists_insertAt_iff : (∃ m, insertAt n p k x = .ok m) ↔ n.HasRoom p k := by
  simp only [insertAt_eq_ok_iff, hasRoom_iff]
  constructor
  · rintro ⟨_, ns, hns, hk, -⟩
    exact ⟨ns, hns, hk⟩
  · rintro ⟨ns, hns, hk⟩
    exact ⟨_, ns, hns, hk, rfl⟩

theorem exists_updateAt_iff {f : Node → Except EditFault Node} {P : Node → Prop}
    (hf : ∀ x, (∃ y, f x = .ok y) ↔ P x) :
    (∃ m, updateAt n p f = .ok m) ↔ ∃ x, descend n p = some x ∧ P x := by
  simp only [updateAt_eq_ok_iff, ← hf]
  constructor
  · rintro ⟨_, x, y, hx, hy, -⟩
    exact ⟨x, hx, y, hy⟩
  · rintro ⟨x, hx, y, hy⟩
    exact ⟨_, x, y, hx, hy, rfl⟩

/-- An edit succeeds exactly if the document accepts it. -/
theorem error_apply_eq_none_iff (n : Node) (e : Edit) :
    (n.apply e).error = none ↔ n.Accepts e := by
  cases e with
  | insert parent index node => exact error_ofExcept.trans exists_insertAt_iff
  | remove path =>
    rw [apply, error_ofExcept]
    constructor
    · rintro ⟨m, hm⟩
      obtain ⟨⟨x, rest⟩, hd, -⟩ := exists_of_map_eq_ok hm
      obtain ⟨hpath, hx, -⟩ := detach_eq_ok_iff.1 hd
      exact ⟨hpath, x, hx⟩
    · rintro ⟨hpath, x, hx⟩
      exact ⟨n.without path, by rw [detach_eq_ok_iff.2 ⟨hpath, hx, rfl⟩]; rfl⟩
  | replace path node =>
    refine (error_ofExcept.trans (exists_updateAt_iff (P := fun _ => True) fun x => ?_)).trans ?_
    · simp
    · simp [Accepts]
  | updateAttributes path attributes style =>
    refine error_ofExcept.trans (exists_updateAt_iff fun x => ?_)
    cases x <;> simp [withDeltas, isElement]
  | updateText path content =>
    refine error_ofExcept.trans (exists_updateAt_iff fun x => ?_)
    cases x <;> simp [withContent, isText, isElement]
  | move source parent index =>
    rw [apply, Accepts]
    obtain ⟨e, hd, hm⟩ | ⟨x, rest, hd, hi⟩ := move_cases n source parent index
    · rw [hm]
      constructor
      · intro h
        cases h
      · rintro ⟨hsource, ⟨x, hx⟩, -⟩
        rw [detach_eq_ok_iff.2 ⟨hsource, hx, rfl⟩] at hd
        cases hd
    · obtain ⟨hsource, hx, rfl⟩ := detach_eq_ok_iff.1 hd
      rw [← exists_insertAt_iff (x := x)]
      obtain ⟨e, hi, hm⟩ | ⟨m, hi, hm⟩ := hi
      · rw [hm, hi]
        constructor
        · intro h
          cases h
        · rintro ⟨-, -, _, hok⟩
          cases hok
      · rw [hm]
        exact ⟨fun _ => ⟨hsource, ⟨x, hx⟩, m, hi⟩, fun _ => rfl⟩

theorem state_ofExcept {r : Except EditError Node} (h : (Outcome.ofExcept n r).error ≠ none) :
    (Outcome.ofExcept n r).state = n := by
  cases r with
  | error => rfl
  | ok => exact absurd rfl h

/-- An edit that fails leaves the document as it was, or without the node that it moves. -/
theorem state_apply_of_error {e : Edit} (h : (n.apply e).error ≠ none) :
    (n.apply e).state = n.leftBy e := by
  cases e with
  | insert | remove | replace | updateAttributes | updateText => exact state_ofExcept h
  | move source parent index =>
    rw [apply] at h ⊢
    rw [leftBy]
    obtain ⟨e, hd, hm⟩ | ⟨x, rest, hd, hi⟩ := move_cases n source parent index
    · rw [hm]
      cases hx : descend n source with
      | none => rfl
      | some x =>
        -- only the root is there and cannot be taken out
        by_cases hsource : source = []
        · rw [hsource]
          rfl
        · rw [detach_eq_ok_iff.2 ⟨hsource, hx, rfl⟩] at hd
          cases hd
    · obtain ⟨-, hx, rfl⟩ := detach_eq_ok_iff.1 hd
      rw [hx]
      obtain ⟨e, -, hm⟩ | ⟨m, -, hm⟩ := hi
      · rw [hm]
      · rw [hm] at h
        exact absurd rfl h

/-- A move that succeeds keeps the number of nodes, and what it moves. -/
theorem keeps_of_move {source parent : NodePath} {index : Nat}
    (h : (n.apply (.move source parent index)).error = none) :
    (n.apply (.move source parent index)).state.count = n.count ∧
      ∃ x, descend n source = some x ∧
        descend (n.apply (.move source parent index)).state (parent.child index) = some x := by
  rw [apply] at h ⊢
  obtain ⟨e, -, hm⟩ | ⟨x, rest, hd, hi⟩ := move_cases n source parent index
  · rw [hm] at h
    cases h
  · obtain ⟨hsource, hx, rfl⟩ := detach_eq_ok_iff.1 hd
    obtain ⟨e, -, hm⟩ | ⟨m, hi, hm⟩ := hi
    · rw [hm] at h
      cases h
    · rw [hm]
      refine ⟨?_, x, hx, descend_insertAt hi⟩
      show m.count = n.count
      rw [count_insertAt hi, count_without hsource hx]

/-- **An edit succeeds exactly if the document accepts it. One that fails changes nothing, except
that a move may have taken its node out; a move that succeeds keeps the number of nodes and the node
that it moves, with all that is in it.** -/
theorem apply_exact (n : Node) (e : Edit) :
    ((n.apply e).error = none ↔ n.Accepts e) ∧
    ((n.apply e).error ≠ none → (n.apply e).state = n.leftBy e) ∧
    ∀ source parent index, e = .move source parent index → (n.apply e).error = none →
      (n.apply e).state.count = n.count ∧ ∃ x, descend n source = some x ∧
        descend (n.apply e).state (parent.child index) = some x := by
  refine ⟨error_apply_eq_none_iff n e, state_apply_of_error, ?_⟩
  rintro source parent index rfl h
  exact keeps_of_move h

/-- Two items with a text in the first: moved into the item that takes its place, the first keeps its
text; moved into the place behind that one, it is lost. -/
theorem apply_exact_items :
    let item (children : List Node) := Node.element ['l', 'i'] .empty .empty children
    let list (items : List Node) := Node.element ['u', 'l'] .empty .empty items
    let n := list [item [.text ['a']], item []]
    let into := n.apply (.move [0] [0] 0)
    let behind := n.apply (.move [0] [1] 0)
    n.Accepts (.move [0] [0] 0) ∧ into.error = none ∧
      descend into.state [0, 0] = some (item [.text ['a']]) ∧
    ¬ n.Accepts (.move [0] [1] 0) ∧ behind.error ≠ none ∧ behind.state = list [item []] := by
  intro item list n into behind
  obtain ⟨haccepts, -, hkeeps⟩ := apply_exact n (.move [0] [0] 0)
  obtain ⟨hrefuses, hleft, -⟩ := apply_exact n (.move [0] [1] 0)
  have hinto : into.error = none := rfl
  have hbehind : behind.error ≠ none := nofun
  obtain ⟨-, x, hx, hstate⟩ := hkeeps _ _ _ rfl hinto
  cases hx
  exact ⟨haccepts.1 hinto, hinto, hstate, fun h => hbehind (hrefuses.2 h), hbehind, hleft hbehind⟩

end MarkupSync.Node
