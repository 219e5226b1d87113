import Mathlib.Data.Finset.Card
import Mathlib.Data.Finset.Range
import Mathlib.Data.List.Perm.Basic
import Mathlib.Logic.Relation
import MarkupSync.Proofs.Canvas.Record

/-!
# A canvas is a forest

* `Canvas.Below`: a node is another or below it;
* `Canvas.IsForest`: parents and children agree, and parents are nearer to the top;
* `IsForest.antisymm`, `IsForest.disjoint`: no node is below itself, and siblings have nothing in
  common;
* `IsForest.depth_lt`: the nodes above a node are fewer than the nodes of the canvas;
* **`IsForest.isAncestor_iff`**: the walk up from a node finds all nodes above it;
* `IsForest.unlink`, `IsForest.link`: nodes can be taken out and put elsewhere.
-/

namespace MarkupSync.Canvas

variable {c c' : Canvas} {a b p x y z : NodeId}

/-- The node `x` is `a` or below it. -/
def Below (c : Canvas) (a x : NodeId) : Prop :=
  Relation.ReflTransGen (fun p x => c.parent? x = some p) a x

namespace Below

@[refl] theorem refl (c : Canvas) (a : NodeId) : c.Below a a := Relation.ReflTransGen.refl

theorem trans (h : c.Below a b) (h' : c.Below b x) : c.Below a x := Relation.ReflTransGen.trans h h'

theorem child (h : c.Below a p) (hx : c.parent? x = some p) : c.Below a x :=
  Relation.ReflTransGen.tail h hx

/-- Every node below another has its parent below it, too. -/
theorem eq_or_parent (h : c.Below a x) : x = a ∨ ∃ p, c.parent? x = some p ∧ c.Below a p := by
  cases h with
  | refl => exact .inl rfl
  | tail h hx => exact .inr ⟨_, hx, h⟩

theorem parent (h : c.Below a x) (hne : x ≠ a) (hx : c.parent? x = some p) : c.Below a p := by
  obtain rfl | ⟨q, hq, h⟩ := h.eq_or_parent
  · exact absurd rfl hne
  · rw [hx] at hq
    cases hq
    exact h

/-- Of two nodes above a third one is above the other. -/
theorem total (h : c.Below a x) (h' : c.Below b x) : c.Below a b ∨ c.Below b a := by
  induction h with
  | refl => exact .inr h'
  | tail h hx ih =>
    obtain rfl | ⟨q, hq, h'⟩ := h'.eq_or_parent
    · exact .inl (Below.child h hx)
    · rw [hx] at hq
      cases hq
      exact ih h'

theorem lt (h : c.Below a x) (ha : a < c.nodes.length) : x < c.nodes.length := by
  obtain rfl | ⟨q, hq, -⟩ := h.eq_or_parent
  · exact ha
  · exact lt_of_parent? hq

/-- What is below a node stays there if the nodes on the way keep their parents. -/
theorem congr (h : c.Below a x)
    (hp : ∀ y, c.Below y x → y < c.nodes.length → y ≠ a → c'.parent? y = c.parent? y) :
    c'.Below a x := by
  induction h with
  | refl => rfl
  | @tail p x h hx ih =>
    by_cases hne : x = a
    · rw [hne]
    · exact (ih fun y hy => hp y (hy.child hx)).child
        ((hp x (.refl c x) (lt_of_parent? hx) hne).trans hx)

end Below

/-- Parents and children of a canvas agree, and parents are nearer to the top. -/
structure IsForest (c : Canvas) : Prop where
  mem_children : ∀ {p x}, x ∈ c.children p ↔ c.parent? x = some p
  nodup : ∀ p, (c.children p).Nodup
  acyclic : ∃ depth : NodeId → Nat, ∀ p x, c.parent? x = some p → depth p < depth x

namespace IsForest

variable (hc : c.IsForest)
include hc

theorem antisymm (h : c.Below a b) (h' : c.Below b a) : a = b := by
  obtain ⟨depth, hd⟩ := hc.acyclic
  have key {x y : NodeId} (h : c.Below x y) : x = y ∨ depth x < depth y := by
    induction h with
    | refl => exact .inl rfl
    | tail _ hx ih =>
      rcases ih with rfl | ih
      · exact .inr (hd _ _ hx)
      · exact .inr (ih.trans (hd _ _ hx))
  rcases key h with h | h
  · exact h
  · rcases key h' with h' | h'
    · exact h'.symm
    · exact absurd h (Nat.lt_asymm h')

theorem ne_parent (h : c.parent? x = some p) : x ≠ p := by
  obtain ⟨depth, hd⟩ := hc.acyclic
  rintro rfl
  exact Nat.lt_irrefl _ (hd _ _ h)

theorem not_below_parent (h : c.parent? x = some p) : ¬ c.Below x p := fun h' =>
  hc.ne_parent h (hc.antisymm h' ((Below.refl c p).child h))

/-- Siblings have nothing in common. -/
theorem disjoint (hx : c.parent? x = some p) (hy : c.parent? y = some p) (hne : x ≠ y)
    (h : c.Below x z) : ¬ c.Below y z := by
  intro h'
  rcases h.total h' with h | h
  · exact hc.not_below_parent hx (h.parent hne.symm hy)
  · exact hc.not_below_parent hy (h.parent hne hx)

theorem lt_of_parent (h : c.parent? x = some p) : p < c.nodes.length :=
  lt_of_mem_children (hc.mem_children.2 h)

end IsForest

/-! ## The way up -/

section Depth

open Classical

/-- The number of nodes above a node, itself included. -/
noncomputable def depth (c : Canvas) (x : NodeId) : Nat :=
  ((Finset.range c.nodes.length).filter fun a => c.Below a x).card

theorem depth_le (c : Canvas) (x : NodeId) : c.depth x ≤ c.nodes.length := by
  rw [← Finset.card_range c.nodes.length]
  exact Finset.card_filter_le _ _

theorem depth_le_of_below (h : c.Below a x) : c.depth a ≤ c.depth x := by
  refine Finset.card_le_card fun b hb => ?_
  rw [Finset.mem_filter] at hb ⊢
  exact ⟨hb.1, hb.2.trans h⟩

theorem depth_pos (h : x < c.nodes.length) : 0 < c.depth x :=
  Finset.card_pos.2 ⟨x, Finset.mem_filter.2 ⟨Finset.mem_range.2 h, .refl c x⟩⟩

/-- A node has more nodes above it than its parent. -/
theorem IsForest.depth_lt (hc : c.IsForest) (h : c.parent? x = some p) : c.depth p < c.depth x := by
  refine Finset.card_lt_card ⟨fun a ha => ?_, fun hsub => ?_⟩
  · rw [Finset.mem_filter] at ha ⊢
    exact ⟨ha.1, ha.2.child h⟩
  · have hx := @hsub x (Finset.mem_filter.2 ⟨Finset.mem_range.2 (lt_of_parent? h), .refl c x⟩)
    exact hc.not_below_parent h (Finset.mem_filter.1 hx).2

end Depth

theorem IsForest.reaches_of_below (hc : c.IsForest) {fuel : Nat} (h : c.Below a x) (hf : c.depth x ≤ c.depth a + fuel) :
    c.reaches a fuel x = true := by
  induction fuel generalizing x with
  | zero =>
    obtain rfl | ⟨p, hp, h⟩ := h.eq_or_parent
    · simp [reaches]
    · have := hc.depth_lt hp
      have := depth_le_of_below h
      omega
  | succ fuel ih =>
    obtain rfl | ⟨p, hp, h⟩ := h.eq_or_parent
    · simp [reaches]
    · have := hc.depth_lt hp
      simp [reaches, hp, ih h (by omega)]

theorem below_of_reaches {fuel : Nat} (h : c.reaches a fuel x = true) : c.Below a x := by
  induction fuel generalizing x with
  | zero =>
    obtain rfl : x = a := by simpa [reaches] using h
    rfl
  | succ fuel ih =>
    simp only [reaches, Bool.or_eq_true, beq_iff_eq] at h
    rcases h with rfl | h
    · rfl
    · cases hp : c.parent? x with
      | none => simp [hp] at h
      | some p =>
        rw [hp] at h
        exact (ih h).child hp

/-- **The walk up from a node finds all nodes above it.** -/
theorem IsForest.isAncestor_iff (hc : c.IsForest) : c.isAncestor a x = true ↔ c.Below a x := by
  refine ⟨below_of_reaches, fun h => hc.reaches_of_below h ?_⟩
  have := c.depth_le x
  omega

/-! ## Changes -/

namespace IsForest

theorem of_eq (hc : c.IsForest) (hp : ∀ x, c'.parent? x = c.parent? x)
    (hch : ∀ x, c'.children x = c.children x) : c'.IsForest where
  mem_children {p x} := by
    rw [hp, hch]
    exact hc.mem_children
  nodup := by simpa only [hch] using hc.nodup
  acyclic := by simpa only [hp] using hc.acyclic

/-- A node can be taken out. -/
theorem unlink (hc : c.IsForest) (x : NodeId) : (c.unlink x).IsForest where
  mem_children {p y} := by
    rw [children_unlink, parent?_unlink]
    by_cases hyx : y = x
    · subst hyx
      by_cases hp : c.parent? y = some p <;> simp [hp, hc.mem_children]
    · split_ifs with hp <;> simp [hyx, hc.mem_children]
  nodup p := by
    rw [children_unlink]
    split_ifs
    · exact (hc.nodup p).filter _
    · exact hc.nodup p
  acyclic := by
    obtain ⟨depth, hd⟩ := hc.acyclic
    refine ⟨depth, fun p y hy => hd p y ?_⟩
    rw [parent?_unlink] at hy
    split_ifs at hy
    exact hy

/-- A node without a parent can be put below any node that is not below it. -/
theorem link (hc : c.IsForest) {k : Option Nat} (hp : p < c.nodes.length)
    (hx : x < c.nodes.length) (hnone : c.parent? x = none) (hbelow : ¬ c.Below x p)
    (hk : ∀ i, k = some i → i ≤ (c.children p).length) : (c.link p x k).IsForest where
  mem_children {q y} := by
    have hki : k.getD (c.children p).length ≤ (c.children p).length := by
      cases k with
      | none => exact Nat.le_refl _
      | some i => exact hk i rfl
    rw [children_link hp, parent?_link hx]
    split_ifs with hq hy hy
    · simp [hq, hy, List.mem_insertIdx hki]
    · simp [hq, hy, List.mem_insertIdx hki, hc.mem_children]
    · simp [hy, hc.mem_children, hnone, Ne.symm hq]
    · exact hc.mem_children
  nodup q := by
    rw [children_link hp]
    split_ifs with hq
    · have hki : k.getD (c.children p).length ≤ (c.children p).length := by
        cases k with
        | none => exact Nat.le_refl _
        | some i => exact hk i rfl
      rw [(List.perm_insertIdx x _ hki).nodup_iff, List.nodup_cons, hc.mem_children, hnone]
      exact ⟨(Option.some_ne_none p).symm, hc.nodup p⟩
    · exact hc.nodup q
  acyclic := by
    classical
    obtain ⟨depth, hd⟩ := hc.acyclic
    refine ⟨fun y => if c.Below x y then depth p + 1 + depth y else depth y, fun q y hy => ?_⟩
    rw [parent?_link hx] at hy
    split_ifs at hy with hyx
    · cases hy
      subst hyx
      simp only [hbelow, Below.refl, if_true, if_false]
      omega
    · have hqy := hd q y hy
      by_cases h : c.Below x y
      · simp only [h, h.parent hyx hy, if_true]
        omega
      · have h' : ¬ c.Below x q := fun h' => h (h'.child hy)
        simpa only [h, h', if_false] using hqy

theorem link_none (hc : c.IsForest) (hp : p < c.nodes.length) (hx : x < c.nodes.length)
    (hnone : c.parent? x = none) (hbelow : ¬ c.Below x p) : (c.link p x none).IsForest :=
  hc.link hp hx hnone hbelow (by rintro _ ⟨⟩)

end IsForest

end MarkupSync.Canvas
