import MarkupSync.Proofs.Canvas.Create

/-!
# Nodes at paths

* `Display.descend_append`, `Display.resolve_child`: nodes below a node at a path;
* `Display.shown_of_resolve`: the nodes at paths are no decoration, nor are they in decoration;
* `Display.resolve_congr`: other children of the node at a path do not change the way to it;
* `Display.removed`: the nodes that an edit takes off the canvas;
* `Canvas.Changes`: the canvas after a change of one node;
* **`Canvas.Hosts.set`**: a change below a child is a change of what the child stands for.
-/

namespace MarkupSync

namespace Canvas

variable {c c' : Canvas} {d : Decoration} {raw : Bool} {a p x y z : NodeId} {n : Node} {j : Nat}

/-- An element of the editor's that is on the canvas. -/
structure IsArtifact (c : Canvas) (d : Decoration) (a : NodeId) : Prop where
  below : c.Below container a
  ne : a ≠ container
  isDecoration : c.isDecoration d a = true

/-- Nodes that are shown are not in decoration. -/
theorem Shown.not_below (h : c.Shown d x) (hc : c.IsForest) (ha : c.IsArtifact d a) :
    ¬ c.Below a x := by
  induction h with
  | container => exact fun h => ha.ne (hc.antisymm h ha.below)
  | @child x y hx hy ih =>
    intro h
    obtain ⟨hy, hsig⟩ := mem_significant.1 hy
    obtain rfl | ⟨q, hq, h⟩ := h.eq_or_parent
    · exact Bool.noConfusion ((isDecoration_of_isSignificant hsig).symm.trans ha.isDecoration)
    · rw [hc.mem_children.1 hy] at hq
      cases hq
      exact ih h

/-- Only the node `x` has other content or other children, and the nodes `gone` have no parent any
more. -/
structure Changes (c c' : Canvas) (d : Decoration) (x : NodeId) (gone : List NodeId) : Prop where
  le : c.nodes.length ≤ c'.nodes.length
  data? : ∀ y < c.nodes.length, y ≠ x → c'.data? y = c.data? y
  children : ∀ y < c.nodes.length, y ≠ x → c'.children y = c.children y
  parent? : ∀ y < c.nodes.length, y ∉ gone → c'.parent? y = c.parent? y
  gone : ∀ y ∈ gone, c.parent? y = some x ∧ c.isDecoration d y = false

theorem Grows.changes (h : c.Grows c' x) : c.Changes c' d x [] where
  le := h.le
  data? y hy hne := data?_congr (h.get? y hy hne)
  children y hy hne := children_congr (h.get? y hy hne)
  parent? y hy _ := by
    by_cases hne : y = x
    · rw [hne, h.parent?]
    · exact parent?_congr (h.get? y hy hne)
  gone := List.forall_mem_nil _

theorem changes_unlink (hy : c.parent? y = some x) (hsig : c.isSignificant d y = true) :
    c.Changes (c.unlink y) d x [y] where
  le := length_unlink.ge
  data? _ _ _ := data?_unlink
  children z _ hne := by
    rw [children_unlink, hy, if_neg fun h => hne (Option.some.inj h).symm]
  parent? z _ hz := by
    rw [parent?_unlink, if_neg fun h => hz (List.mem_singleton.2 h)]
  gone z hz := by
    rw [List.mem_singleton.1 hz]
    exact ⟨hy, isDecoration_of_isSignificant hsig⟩

namespace Changes

variable {gone : List NodeId} (h : c.Changes c' d x gone)
include h

/-- What is not above the change stays. -/
theorem stands (hc : c.IsForest) (hz : c.Stands d raw z n) (hx : ¬ c.Below z x) :
    c'.Stands d raw z n := by
  refine hz.congr hc fun w hw => ?_
  have hne : w ≠ x := fun hwx => hx (hwx ▸ hw)
  have hlt := hw.lt hz.lt_length
  exact ⟨h.data? w hlt hne, h.children w hlt hne⟩

/-- New nodes after a change. -/
theorem grows {c'' : Canvas} (h' : c'.Grows c'' x) : c.Changes c'' d x gone := by
  have hnew := h'.changes (d := d)
  have hlt {y : NodeId} (hy : y < c.nodes.length) := hy.trans_le h.le
  exact ⟨h.le.trans h'.le, fun y hy hne => (hnew.data? y (hlt hy) hne).trans (h.data? y hy hne),
    fun y hy hne => (hnew.children y (hlt hy) hne).trans (h.children y hy hne),
    fun y hy hg => (hnew.parent? y (hlt hy) List.not_mem_nil).trans (h.parent? y hy hg), h.gone⟩

end Changes

/-- **A change below a child is a change of what the child stands for.** -/
theorem Hosts.set {ns : List Node} (h : c.Hosts d raw p ns) (hc : c.IsForest)
    (hy : (c.significant d p)[j]? = some y) (hyx : c.Below y x) {gone : List NodeId}
    (hch : c.Changes c' d x gone) (hn : c'.Stands d raw y n) : c'.Hosts d raw p (ns.set j n) := by
  have hmem := mem_significant.1 (List.mem_of_getElem? hy)
  have hparent := hc.mem_children.1 hmem.1
  have hp := hc.lt_of_parent hparent
  have hsibling : ∀ z ∈ c.children p, z ≠ y → ¬ c.Below z x := fun z hz hzy hzx =>
    hc.disjoint (hc.mem_children.1 hz) hparent hzy hzx hyx
  have hchildren : c'.children p = c.children p := by
    refine hch.children p hp ?_
    rintro rfl
    exact hc.not_below_parent hparent hyx
  have hdata : ∀ z ∈ c.children p, z ≠ y → c'.data? z = c.data? z := fun z hz hzy =>
    hch.data? z (lt_of_parent? (hc.mem_children.1 hz)) fun hzx =>
      hsibling z hz hzy (hzx ▸ .refl c z)
  have hsig : c'.significant d p = c.significant d p := by
    rw [significant, significant, hchildren]
    refine List.filter_congr fun z hz => ?_
    by_cases hzy : z = y
    · rw [hzy, hn.isSignificant, hmem.2]
    · exact isSignificant_congr (hdata z hz hzy)
  constructor
  · intro z hz s hs hspace
    rw [hchildren] at hz
    by_cases hzy : z = y
    · have := hn.isSignificant
      rw [← hzy, isSignificant_text hs, hspace] at this
      cases this
    · rw [hdata z hz hzy] at hs
      exact h.1 z hz s hs hspace
  · rw [hsig]
    obtain ⟨hlen, hall⟩ := List.forall₂_iff_get.1 h.2
    obtain ⟨hj, hjy⟩ := List.getElem?_eq_some_iff.1 hy
    refine List.forall₂_iff_get.2 ⟨by rw [List.length_set]; exact hlen, fun i hi hi' => ?_⟩
    rw [List.length_set] at hi'
    simp only [List.get_eq_getElem, List.getElem_set] at hall ⊢
    split_ifs with hji
    · subst hji
      rw [hjy]
      exact hn
    · refine hch.stands hc (hall i hi hi') (hsibling _ ?_ fun hzy => hji ?_)
      · exact (mem_significant.1 (List.getElem_mem hi)).1
      · exact ((hc.nodup p).filter _).getElem_inj_iff.1 (hjy.trans hzy.symm)

end Canvas

namespace Display

open Canvas

variable {s : Display} {d : Decoration} {path q : NodePath} {x y : NodeId} {i : Nat}

/-- The nodes that an edit takes off the canvas. -/
def removed (d : Decoration) (s : Display) : Edit → List NodeId
  | .remove path => (s.resolve d path).toOption.toList
  | .replace path _ =>
    if path = [] then (s.canvas.children container).filter fun x => !s.canvas.isDecoration d x
    else (s.resolve d path).toOption.toList
  | _ => []

theorem resolve_iff : s.resolve d path = .ok x ↔
    ∃ r, s.root d = .ok r ∧ s.descend d r path = some x := by
  rw [resolve]
  cases s.root d with
  | error e => simp
  | ok r =>
    cases h : s.descend d r path <;> simp [h]

theorem descend_append {r : NodeId} :
    s.descend d r (path ++ q) = (s.descend d r path).bind (s.descend d · q) := by
  induction path generalizing r with
  | nil => rfl
  | cons i path ih =>
    rw [List.cons_append, descend, descend]
    cases (s.canvas.significant d r)[i]? with
    | none => rfl
    | some child => exact ih

theorem resolve_child_iff (h : s.resolve d path = .ok x) :
    s.resolve d (path ++ [i]) = .ok y ↔ (s.canvas.significant d x)[i]? = some y := by
  obtain ⟨r, hr, hx⟩ := resolve_iff.1 h
  have hi : s.descend d x [i] = (s.canvas.significant d x)[i]? := by
    rw [descend]
    cases (s.canvas.significant d x)[i]? <;> rfl
  rw [resolve_iff, ← hi]
  simp [hr, descend_append, hx]

/-- A child of the node at a path. -/
theorem resolve_child (h : s.resolve d path = .ok x)
    (hy : (s.canvas.significant d x)[i]? = some y) : s.resolve d (path ++ [i]) = .ok y :=
  (resolve_child_iff h).2 hy

theorem shown_of_descend {r : NodeId} (hr : s.canvas.Shown d r)
    (h : s.descend d r path = some x) : s.canvas.Shown d x := by
  induction path generalizing r with
  | nil =>
    cases h
    exact hr
  | cons i path ih =>
    rw [descend] at h
    cases hy : (s.canvas.significant d r)[i]? with
    | none => rw [hy] at h; cases h
    | some y =>
      rw [hy] at h
      exact ih (hr.child (List.mem_of_getElem? hy)) h

theorem root_cases {r : NodeId} (h : s.root d = .ok r) :
    r = container ∧ s.isWrapped = true ∨
      s.isWrapped = false ∧
        (s.canvas.significant d container).find? s.canvas.isElement = some r := by
  rw [root] at h
  cases hw : s.isWrapped with
  | true =>
    rw [hw] at h
    cases h
    exact .inl ⟨rfl, rfl⟩
  | false =>
    rw [hw] at h
    cases hf : (s.canvas.significant d container).find? s.canvas.isElement with
    | none => simp [hf] at h
    | some id =>
      simp only [hf, Bool.false_eq_true, if_false] at h
      cases h
      exact .inr ⟨rfl, rfl⟩

/-- The nodes at paths are shown. -/
theorem shown_of_resolve (h : s.resolve d path = .ok x) : s.canvas.Shown d x := by
  obtain ⟨r, hr, hx⟩ := resolve_iff.1 h
  refine shown_of_descend ?_ hx
  obtain ⟨rfl, -⟩ | ⟨-, hfind⟩ := root_cases hr
  · exact .container
  · exact .child .container (List.mem_of_find?_eq_some hfind)

theorem below_of_descend (hc : s.canvas.IsForest) {r : NodeId}
    (h : s.descend d r path = some x) : s.canvas.Below r x := by
  induction path generalizing r with
  | nil =>
    cases h
    rfl
  | cons i path ih =>
    rw [descend] at h
    cases hy : (s.canvas.significant d r)[i]? with
    | none => rw [hy] at h; cases h
    | some y =>
      rw [hy] at h
      have hy := hc.mem_children.1 (mem_significant.1 (List.mem_of_getElem? hy)).1
      exact ((Below.refl _ r).child hy).trans (ih h)

/-- Other children of the node at a path do not change the way to it. -/
theorem resolve_congr (hc : s.canvas.IsForest) {c' : Canvas}
    (hd : ∀ y, c'.data? y = s.canvas.data? y)
    (hch : ∀ y, y ≠ x → c'.children y = s.canvas.children y) (h : s.resolve d path = .ok x) :
    ({ s with canvas := c' } : Display).resolve d path = .ok x := by
  obtain ⟨r, hr, hx⟩ := resolve_iff.1 h
  have hsig : ∀ y, y ≠ x → c'.significant d y = s.canvas.significant d y := fun y hy =>
    significant_congr (hch y hy) fun z _ => hd z
  refine resolve_iff.2 ⟨r, ?_, ?_⟩
  · obtain ⟨rfl, hw⟩ | ⟨hw, hfind⟩ := root_cases hr
    · rw [root, if_pos hw]
    · have hne : container ≠ x := by
        rintro rfl
        have hmem := mem_significant.1 (List.mem_of_find?_eq_some hfind)
        exact hc.not_below_parent (hc.mem_children.1 hmem.1) (below_of_descend hc hx)
      have hel : c'.isElement = s.canvas.isElement := funext fun y => isElement_congr (hd y)
      rw [root, hsig container hne, hel, hfind]
      simp [hw]
  · clear hr h
    induction path generalizing r with
    | nil => exact hx
    | cons i path ih =>
      rw [descend] at hx ⊢
      cases hy : (s.canvas.significant d r)[i]? with
      | none => rw [hy] at hx; cases hx
      | some y =>
        rw [hy] at hx
        have hne : r ≠ x := by
          rintro rfl
          have hmem := mem_significant.1 (List.mem_of_getElem? hy)
          exact hc.not_below_parent (hc.mem_children.1 hmem.1) (below_of_descend hc hx)
        rw [hsig r hne, hy]
        exact ih y hx

end Display

end MarkupSync
