import Mathlib.Data.List.InsertIdx
import MarkupSync.Proofs.Tree.Local

/-!
# Maps of trees, and their lists of children

What is done to a tree can be done to its image under a map that keeps the children, and changes of
lists of children keep the properties of trees that are about their nodes one by one.

* `Tree.IsMap`: maps that send the children of a branch to the children of its image;
* `IsMap.insertAt`, `IsMap.detach`, `IsMap.updateAt`, `IsMap.move`: changes of the image;
* `modifyAt_slot`: a node exchanged in the list of children that it is in;
* `Tree.Hereditary`: a property passes to the children, and children with it can be exchanged;
* `Hereditary.insertAt`, `Hereditary.detach`, `Hereditary.updateAt`, `Hereditary.move`: changes of
  trees keep it;
* `Tree.Throughout`: every node of a tree has a property;
* `Tree.childrenAt_eq_ok_iff`, `Tree.descend_child_iff`, `Tree.insertAt_eq_ok_iff`,
  `Tree.detach_eq_ok_iff`, `Tree.updateAt_eq_ok_iff`: when children can be put in and taken out, and
  the tree then;
* `Tree.move_cases`: a move does all, or nothing, or it stops half-way;
* `Tree.childrenAt_insertAt`, `Tree.childrenAt_detach`: the list of children then.
-/

namespace MarkupSync.Tree

section Map

variable {σ τ : Type} [Tree σ] [Tree τ] {f : σ → τ}

/-- A map of trees that keeps the children. -/
structure IsMap (f : σ → τ) : Prop where
  children? (t : σ) : children? (f t) = (children? t).map (List.map f)
  withChildren (ns : List σ) (t : σ) : f (withChildren ns t) = withChildren (ns.map f) (f t)

namespace IsMap

theorem children (hf : IsMap f) (t : σ) : Tree.children (f t) = (Tree.children t).map f := by
  rw [Tree.children, Tree.children, hf.children?]
  cases Tree.children? t <;> rfl

theorem descend (hf : IsMap f) (t : σ) (p : NodePath) :
    Tree.descend (f t) p = (Tree.descend t p).map f := by
  induction p generalizing t with
  | nil => rfl
  | cons i p ih =>
    rw [Tree.descend, Tree.descend, hf.children, List.getElem?_map]
    cases (Tree.children t)[i]? with
    | none => rfl
    | some c => exact ih c

theorem modifyAt (hf : IsMap f) {g : σ → σ} {h : τ → τ} (hg : ∀ t, f (g t) = h (f t))
    (p : NodePath) (t : σ) : f (Tree.modifyAt g p t) = Tree.modifyAt h p (f t) := by
  induction p generalizing t with
  | nil => exact hg t
  | cons i p ih =>
    rw [Tree.modifyAt, Tree.modifyAt, hf.withChildren, hf.children]
    congr 1
    refine List.ext_getElem? fun j => ?_
    rw [List.getElem?_map, List.getElem?_modify, List.getElem?_modify, List.getElem?_map]
    cases (Tree.children t)[j]? with
    | none => rfl
    | some c => by_cases hij : i = j <;> simp [hij, ih]

theorem childrenAt (hf : IsMap f) (t : σ) (p : NodePath) :
    Tree.childrenAt (f t) p = (Tree.childrenAt t p).map (List.map f) := by
  rw [Tree.childrenAt, Tree.childrenAt, hf.descend]
  cases Tree.descend t p with
  | none => rfl
  | some n =>
    simp only [Option.map_some, hf.children?]
    cases Tree.children? n <;> rfl

/-- A node is put into the image as it is put into the tree. -/
theorem insertAt (hf : IsMap f) (t : σ) (p : NodePath) (k : Nat) (n : σ) :
    Tree.insertAt (f t) p k (f n) = (Tree.insertAt t p k n).map f := by
  rw [Tree.insertAt, Tree.insertAt, hf.childrenAt]
  cases Tree.childrenAt t p with
  | error e => rfl
  | ok ns =>
    simp only [Except.map, List.length_map]
    split
    · rfl
    · rw [← List.map_insertIdx]
      exact congrArg Except.ok (hf.modifyAt (hf.withChildren _) p t).symm

/-- A node is taken out of the image as it is taken out of the tree. -/
theorem detach (hf : IsMap f) (t : σ) (p : NodePath) :
    Tree.detach (f t) p = (Tree.detach t p).map fun (n, rest) => (f n, f rest) := by
  rw [Tree.detach, Tree.detach, Tree.slot, Tree.slot]
  cases p.split? with
  | none => rfl
  | some split =>
    simp only [hf.childrenAt]
    cases Tree.childrenAt t split.1 with
    | error e => rfl
    | ok ns =>
      simp only [Except.map, List.getElem?_map]
      cases ns[split.2]? with
      | none => rfl
      | some n =>
        simp only [Option.map_some, hf.modifyAt (hf.withChildren _), List.eraseIdx_map]

/-- A node is changed in the image as it is changed in the tree. -/
theorem updateAt (hf : IsMap f) {g : σ → Except EditFault σ} {h : τ → Except EditFault τ}
    (hg : ∀ t, h (f t) = (g t).map f) (t : σ) (p : NodePath) :
    Tree.updateAt (f t) p h = (Tree.updateAt t p g).map f := by
  rw [Tree.updateAt, Tree.updateAt, hf.descend]
  cases Tree.descend t p with
  | none => rfl
  | some old =>
    simp only [Option.map_some, hg]
    cases g old with
    | error fault => rfl
    | ok new => exact congrArg Except.ok (hf.modifyAt (fun _ => rfl) p t).symm

/-- A node is moved in the image as it is moved in the tree. -/
theorem move (hf : IsMap f) (t : σ) (p q : NodePath) (k : Nat) :
    Tree.move (f t) p q k = ⟨f (Tree.move t p q k).state, (Tree.move t p q k).error⟩ := by
  rw [Tree.move, Tree.move, hf.detach]
  cases Tree.detach t p with
  | error e => rfl
  | ok r =>
    simp only [Except.map, hf.insertAt]
    cases Tree.insertAt r.2 q k r.1 <;> rfl

end IsMap

end Map

/-! ## Nodes in lists of children -/

section Slot

variable {τ : Type} [Tree τ]

theorem eq_of_split? {path parent : NodePath} {index : Nat}
    (h : path.split? = some (parent, index)) : path = parent ++ [index] := by
  rw [NodePath.split?] at h
  split at h
  · cases h
  next k hk =>
    cases h
    obtain ⟨q, rfl⟩ := List.getLast?_eq_some_iff.1 hk
    simp

theorem exists_of_slot {t : τ} {path : NodePath} {s : Slot τ} (h : slot t path = .ok s) :
    path = s.parent ++ [s.index] ∧ s.siblings[s.index]? = some s.node ∧
      ∃ x, descend t s.parent = some x ∧ children? x = some s.siblings := by
  rw [slot] at h
  split at h
  · cases h
  next parent index hsplit =>
    split at h
    · cases h
    next siblings hsiblings =>
      split at h
      · cases h
      next n hn =>
        cases h
        refine ⟨eq_of_split? hsplit, hn, ?_⟩
        rw [childrenAt] at hsiblings
        split at hsiblings
        · cases hsiblings
        next x hx =>
          split at hsiblings
          · cases hsiblings
          next ns hns =>
            cases hsiblings
            exact ⟨x, hx, hns⟩

theorem descend_append {t : τ} {p q : NodePath} :
    descend t (p ++ q) = (descend t p).bind (descend · q) := by
  induction p generalizing t with
  | nil => rfl
  | cons i p ih =>
    rw [List.cons_append, descend, descend]
    cases (children t)[i]? with
    | none => rfl
    | some c => exact ih

/-- A node below the root is in a list of children. -/
theorem exists_slot {t n : τ} {path : NodePath} (hpath : path ≠ [])
    (h : descend t path = some n) : ∃ s, slot t path = .ok s := by
  obtain rfl | ⟨p, i, rfl⟩ := List.eq_nil_or_concat' path
  · exact absurd rfl hpath
  · rw [descend_append] at h
    obtain ⟨x, hx, hxn⟩ := Option.bind_eq_some_iff.1 h
    obtain ⟨c, hc, -⟩ := Option.bind_eq_some_iff.1 hxn
    cases hns : children? x with
    | none =>
      rw [children, hns] at hc
      cases hc
    | some ns =>
      rw [children, hns] at hc
      have hchildren : childrenAt t p = .ok ns := by
        rw [childrenAt, hx]
        simp only [hns]
      refine ⟨⟨p, i, ns, c⟩, ?_⟩
      simp only [slot, NodePath.split?, List.getLast?_concat, List.dropLast_concat, hchildren]
      rw [Option.getD_some] at hc
      simp only [hc]

theorem toOption_updateAt (t : τ) (path : NodePath) (f : τ → Except EditFault τ) :
    (updateAt t path f).toOption = (descend t path).bind fun old =>
      (f old).toOption.map fun new => modifyAt (fun _ => new) path t := by
  rw [updateAt]
  cases descend t path with
  | none => rfl
  | some old =>
    rw [Option.bind_some]
    cases h : f old <;> simp only [h] <;> rfl

/-- A node exchanged in the list of children that it is in is exchanged at its path. -/
theorem modifyAt_slot {t : τ} {path : NodePath} {s : Slot τ} (h : slot t path = .ok s) (n : τ) :
    modifyAt (withChildren (s.siblings.set s.index n)) s.parent t = modifyAt (fun _ => n) path t ∧
      descend t path = some s.node := by
  obtain ⟨hpath, hnode, x, hx, hns⟩ := exists_of_slot h
  rw [hpath]
  generalize s.parent = p at hx
  clear h hpath
  induction p generalizing t with
  | nil =>
    cases hx
    have hchildren : children x = s.siblings := by
      rw [children, hns]
      rfl
    rw [← hchildren] at hnode ⊢
    rw [List.nil_append]
    refine ⟨?_, ?_⟩
    · rw [modifyAt_child _ hnode]
      rfl
    · rw [descend_child hnode]
      rfl
  | cons i p ih =>
    obtain ⟨c, hc, hcx⟩ := Option.bind_eq_some_iff.1 hx
    obtain ⟨hmodify, hdescend⟩ := ih hcx
    rw [List.cons_append, modifyAt_child _ hc, modifyAt_child _ hc, descend_child hc, hmodify]
    exact ⟨rfl, hdescend⟩

end Slot

/-! ## Properties that pass to the children -/

variable {τ : Type}

/-- A property passes to the children, and a tree keeps it if its children are exchanged for others
with the property. -/
structure Hereditary [Tree τ] (P : τ → Prop) : Prop where
  children {t : τ} (h : P t) : ∀ c ∈ children t, P c
  withChildren {t : τ} {ns : List τ} (h : P t) (hns : ∀ c ∈ ns, P c) : P (withChildren ns t)

namespace Hereditary

variable [Tree τ] {P : τ → Prop} {t t' n : τ} {p q : NodePath} {k : Nat}

theorem descend (hP : Hereditary P) (h : P t) (hd : Tree.descend t p = some n) : P n := by
  induction p generalizing t with
  | nil =>
    cases hd
    exact h
  | cons i p ih =>
    obtain ⟨c, hc, hcn⟩ := Option.bind_eq_some_iff.1 hd
    exact ih (hP.children h c (List.mem_of_getElem? hc)) hcn

theorem modifyAt (hP : Hereditary P) {f : τ → τ} (hf : ∀ t, P t → P (f t)) (h : P t)
    (p : NodePath) : P (Tree.modifyAt f p t) := by
  induction p generalizing t with
  | nil => exact hf t h
  | cons i p ih =>
    refine hP.withChildren h fun c hc => ?_
    obtain ⟨j, hj⟩ := List.mem_iff_getElem?.1 hc
    rw [List.getElem?_modify] at hj
    obtain ⟨d, hd, rfl⟩ := Option.map_eq_some_iff.1 hj
    have hd := hP.children h d (List.mem_of_getElem? hd)
    split
    · exact ih hd
    · exact hd

theorem childrenAt (hP : Hereditary P) (h : P t) {ns : List τ}
    (hns : Tree.childrenAt t p = .ok ns) : ∀ c ∈ ns, P c := by
  rw [Tree.childrenAt] at hns
  split at hns
  · cases hns
  next x hx =>
    split at hns
    · cases hns
    next ms hms =>
      cases hns
      have := hP.children (hP.descend h hx)
      rwa [Tree.children, hms] at this

/-- A node is put into the tree. -/
theorem insertAt (hP : Hereditary P) (h : P t) (hn : P n) (hi : Tree.insertAt t p k n = .ok t') :
    P t' := by
  rw [Tree.insertAt] at hi
  split at hi
  · cases hi
  next ns hns =>
    split at hi
    · cases hi
    · cases hi
      refine hP.modifyAt (fun x hx => hP.withChildren hx fun c hc => ?_) h p
      obtain rfl | hc := List.eq_or_mem_of_mem_insertIdx hc
      · exact hn
      · exact hP.childrenAt h hns c hc

/-- A node is taken out of the tree. -/
theorem detach (hP : Hereditary P) (h : P t) (hd : Tree.detach t p = .ok (n, t')) : P n ∧ P t' := by
  rw [Tree.detach] at hd
  split at hd
  · cases hd
  next s hs =>
    cases hd
    obtain ⟨-, hn, x, hx, hns⟩ := exists_of_slot hs
    have hsiblings : ∀ c ∈ s.siblings, P c := by
      have := hP.children (hP.descend h hx)
      rwa [Tree.children, hns] at this
    refine ⟨hsiblings _ (List.mem_of_getElem? hn), hP.modifyAt (fun x hx =>
      hP.withChildren hx fun c hc => hsiblings c (List.mem_of_mem_eraseIdx hc)) h _⟩

/-- A node of the tree is changed. -/
theorem updateAt (hP : Hereditary P) {f : τ → Except EditFault τ}
    (hf : ∀ x y, P x → f x = .ok y → P y) (h : P t) (hu : Tree.updateAt t p f = .ok t') : P t' := by
  rw [Tree.updateAt] at hu
  split at hu
  · cases hu
  next old hold =>
    split at hu
    · cases hu
    next new hnew =>
      cases hu
      exact hP.modifyAt (fun _ _ => hf old new (hP.descend h hold) hnew) h p

/-- A node is moved in the tree. -/
theorem move (hP : Hereditary P) (h : P t) (hm : Tree.move t p q k = ⟨t', none⟩) : P t' := by
  rw [Tree.move] at hm
  split at hm
  · cases hm
  next x rest hd =>
    obtain ⟨hx, hrest⟩ := hP.detach h hd
    cases hi : Tree.insertAt rest q k x with
    | error e =>
      rw [hi] at hm
      cases hm
    | ok u =>
      rw [hi] at hm
      cases hm
      exact hP.insertAt hrest hx hi

end Hereditary

/-! ## Properties of all nodes -/

variable [LawfulTree τ] {Q : τ → Prop} {t : τ}

/-- Every node of a tree has the property `Q`. -/
def Throughout (Q : τ → Prop) (t : τ) : Prop := ∀ p n, descend t p = some n → Q n

theorem throughout_iff : Throughout Q t ↔ Q t ∧ ∀ c ∈ children t, Throughout Q c := by
  constructor
  · refine fun h => ⟨h [] t rfl, fun c hc p n hn => ?_⟩
    obtain ⟨i, hi⟩ := List.mem_iff_getElem?.1 hc
    exact h (i :: p) n (by rwa [descend_child hi])
  · rintro ⟨ht, hcs⟩ (_ | ⟨i, p⟩) n hn
    · cases hn
      exact ht
    · obtain ⟨c, hc, hcn⟩ := Option.bind_eq_some_iff.1 hn
      exact hcs c (List.mem_of_getElem? hc) p n hcn

/-- Changes of children keep a property of all nodes that is not about their children. -/
theorem hereditary_throughout (hQ : ∀ (t : τ) (ns : List τ), Q t → Q (withChildren ns t))
    (hleaf : ∀ (t : τ) (ns : List τ), children? t = none → withChildren ns t = t) :
    Hereditary (Throughout Q) where
  children h := (throughout_iff.1 h).2
  withChildren {t ns} h hns := by
    cases ht : children? t with
    | none => rwa [hleaf t ns ht]
    | some ms =>
      refine throughout_iff.2 ⟨hQ t ns (throughout_iff.1 h).1, ?_⟩
      rwa [children, LawfulTree.children?_withChildren t ns (by rw [ht]; rfl)]

/-! ## Lists of children -/

section Tree

variable {τ : Type} [Tree τ] {t t' n : τ} {ns : List τ} {p : NodePath} {i k : Nat}

theorem childrenAt_eq_ok_iff :
    childrenAt t p = .ok ns ↔ ∃ x, descend t p = some x ∧ children? x = some ns := by
  rw [childrenAt]
  cases descend t p with
  | none => simp
  | some x =>
    cases h : children? x with
    | none => simp [h]
    | some ms => simp [h]

/-- The node at the path of a child is in the list of children. -/
theorem descend_child_iff :
    descend t (p.child i) = some n ↔ ∃ ns, childrenAt t p = .ok ns ∧ ns[i]? = some n := by
  rw [NodePath.child, descend_append, Option.bind_eq_some_iff]
  constructor
  · rintro ⟨x, hx, hxn⟩
    obtain ⟨c, hc, hcn⟩ := Option.bind_eq_some_iff.1 hxn
    cases hcn
    cases hns : children? x with
    | none =>
      rw [Tree.children, hns] at hc
      cases hc
    | some ns =>
      rw [Tree.children, hns] at hc
      exact ⟨ns, childrenAt_eq_ok_iff.2 ⟨x, hx, hns⟩, hc⟩
  · rintro ⟨ns, hns, hn⟩
    obtain ⟨x, hx, hxs⟩ := childrenAt_eq_ok_iff.1 hns
    refine ⟨x, hx, Option.bind_eq_some_iff.2 ⟨n, ?_, rfl⟩⟩
    rw [Tree.children, hxs]
    exact hn

/-- A node can be put among the children of a branch, up to behind the last one. -/
theorem insertAt_eq_ok_iff : insertAt t p k n = .ok t' ↔ ∃ ns, childrenAt t p = .ok ns ∧
    k ≤ ns.length ∧ modifyAt (withChildren (ns.insertIdx k n)) p t = t' := by
  rw [insertAt]
  cases childrenAt t p with
  | error e => simp
  | ok ns =>
    by_cases hk : k ≤ ns.length
    · simp [hk, Nat.not_lt.2 hk]
    · simp [hk, Nat.not_le.1 hk]

theorem split?_child (p : NodePath) (i : Nat) : (p.child i).split? = some (p, i) := by
  simp [NodePath.split?, NodePath.child]

/-- A child of a branch can be taken out. -/
theorem detach_eq_ok_iff {path : NodePath} : detach t path = .ok (n, t') ↔ ∃ p i ns,
    path = p.child i ∧ childrenAt t p = .ok ns ∧ ns[i]? = some n ∧
      modifyAt (withChildren (ns.eraseIdx i)) p t = t' := by
  rw [detach, slot]
  constructor
  · intro h
    cases hsplit : path.split? with
    | none =>
      rw [hsplit] at h
      cases h
    | some split =>
      obtain ⟨p, i⟩ := split
      simp only [hsplit] at h
      cases hns : childrenAt t p with
      | error e =>
        rw [hns] at h
        cases h
      | ok ns =>
        simp only [hns] at h
        cases hn : ns[i]? with
        | none =>
          rw [hn] at h
          cases h
        | some m =>
          rw [hn] at h
          cases h
          exact ⟨p, i, ns, eq_of_split? hsplit, hns, hn, rfl⟩
  · rintro ⟨p, i, ns, rfl, hns, hn, rfl⟩
    simp only [split?_child, hns, hn]

/-- A node that is there can be changed as far as the change allows it. -/
theorem updateAt_eq_ok_iff {f : τ → Except EditFault τ} : updateAt t p f = .ok t' ↔
    ∃ x y, descend t p = some x ∧ f x = .ok y ∧ modifyAt (fun _ => y) p t = t' := by
  rw [updateAt]
  cases descend t p with
  | none => simp
  | some x =>
    cases h : f x with
    | error fault => simp [h]
    | ok y => simp [h]

/-- A move does all, or nothing, or it takes the node out and cannot put it in. -/
theorem move_cases (t : τ) (source parent : NodePath) (k : Nat) :
    (∃ e, detach t source = .error e ∧ move t source parent k = ⟨t, some e⟩) ∨
    ∃ n rest, detach t source = .ok (n, rest) ∧
      ((∃ e, insertAt rest parent k n = .error e ∧ move t source parent k = ⟨rest, some e⟩) ∨
        ∃ t', insertAt rest parent k n = .ok t' ∧ move t source parent k = ⟨t', none⟩) := by
  rw [move]
  cases hd : detach t source with
  | error e => exact .inl ⟨e, rfl, rfl⟩
  | ok r =>
    obtain ⟨n, rest⟩ := r
    refine .inr ⟨n, rest, rfl, ?_⟩
    cases hi : insertAt rest parent k n with
    | error e => exact .inl ⟨e, rfl, by simp only [hi, Outcome.ofExcept]⟩
    | ok t' => exact .inr ⟨t', rfl, by simp only [hi, Outcome.ofExcept]⟩

end Tree

/-! ## The children then -/

variable {τ : Type} [LawfulTree τ] {t t' n x : τ} {ns ms : List τ} {p : NodePath} {i k : Nat}

theorem descend_modifyAt {f : τ → τ} (h : descend t p = some x) :
    descend (modifyAt f p t) p = some (f x) := by
  induction p generalizing t with
  | nil =>
    cases h
    rfl
  | cons i p ih =>
    obtain ⟨c, hc, hcx⟩ := Option.bind_eq_some_iff.1 h
    rw [modifyAt_child f hc, descend_child (child_setChild hc)]
    exact ih hcx

theorem childrenAt_modifyAt (h : childrenAt t p = .ok ns) :
    childrenAt (modifyAt (withChildren ms) p t) p = .ok ms := by
  obtain ⟨x, hx, hns⟩ := childrenAt_eq_ok_iff.1 h
  exact childrenAt_eq_ok_iff.2
    ⟨_, descend_modifyAt hx, LawfulTree.children?_withChildren x ms (by rw [hns]; rfl)⟩

/-- The children that a node was put among. -/
theorem childrenAt_insertAt (h : insertAt t p k n = .ok t') :
    ∃ ns, childrenAt t p = .ok ns ∧ k ≤ ns.length ∧ childrenAt t' p = .ok (ns.insertIdx k n) := by
  obtain ⟨ns, hns, hk, rfl⟩ := insertAt_eq_ok_iff.1 h
  exact ⟨ns, hns, hk, childrenAt_modifyAt hns⟩

/-- The children that a node was taken out of. -/
theorem childrenAt_detach (h : detach t (p.child i) = .ok (n, t')) :
    ∃ ns, childrenAt t p = .ok ns ∧ ns[i]? = some n ∧ childrenAt t' p = .ok (ns.eraseIdx i) := by
  obtain ⟨q, j, ns, hpath, hns, hn, rfl⟩ := detach_eq_ok_iff.1 h
  obtain ⟨rfl, hij⟩ := List.append_inj' hpath rfl
  cases hij
  exact ⟨ns, hns, hn, childrenAt_modifyAt hns⟩

end MarkupSync.Tree
