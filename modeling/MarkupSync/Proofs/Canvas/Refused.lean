import MarkupSync.Proofs.Canvas.Walk

/-!
# Changes that are refused

A change of a canvas is refused for one of a few reasons. All of them are looked for before anything
is changed, but for the last one of an insertion: whether its anchor is among the children is asked
when the node has been taken from its parent.

* `Canvas.Change.IsRefused`: why changes are refused;
* `Canvas.not_mem_children_unlink`: what is no anchor for a node that is put elsewhere;
* `Canvas.insertBefore_of_isRefused`, `Canvas.isRefused_of_insertBefore`: what a refused insertion
  leaves, and which insertions are refused;
* `Canvas.Change.error_iff`: changes are refused for these reasons and no others;
* `Canvas.Change.Orphans`: insertions without an anchor, of a node that has a parent;
* **`Canvas.unchanged_of_refused`**: these leave the node without a parent, and every other change
  that is refused leaves the canvas as it was.
-/

namespace MarkupSync.Canvas

variable {c : Canvas} {p y z : NodeId} {before : Option NodeId} {e : CanvasError}

namespace Change

/-- The element that a change is to give an attribute, or to take one from. -/
def element? : Change → Option NodeId
  | .setAttribute y _ _ | .removeAttribute y _ => some y
  | _ => none

/-- Why a change is refused. -/
inductive IsRefused (c : Canvas) : Change → CanvasError → Prop
  | unknownParent {p y : NodeId} {before : Option NodeId} (hp : c.nodes.length ≤ p) :
    IsRefused c (.insertBefore p y before) (.unknownNode p)
  | unknownChild {p y : NodeId} {before : Option NodeId} (hp : p < c.nodes.length)
    (hy : c.nodes.length ≤ y) : IsRefused c (.insertBefore p y before) (.unknownNode y)
  | ownSubtree {p y : NodeId} {before : Option NodeId} (hp : p < c.nodes.length)
    (hy : y < c.nodes.length) (h : c.Below y p) :
    IsRefused c (.insertBefore p y before) (.ownSubtree y)
  | notAChild {p y a : NodeId} (hp : p < c.nodes.length) (hy : y < c.nodes.length)
    (h : ¬ c.Below y p) (ha : a = y ∨ a ∉ c.children p) :
    IsRefused c (.insertBefore p y (some a)) (.notAChild a p)
  | unknown {y : NodeId} (hy : c.nodes.length ≤ y) : IsRefused c (.detach y) (.unknownNode y)
  | unknownElement {x : Change} {y : NodeId} (hx : x.element? = some y)
    (hy : c.nodes.length ≤ y) : IsRefused c x (.unknownNode y)
  | notAnElement {x : Change} {y : NodeId} {data : LiveData} (hx : x.element? = some y)
    (hy : c.data? y = some data) (h : c.isElement y = false) : IsRefused c x (.notAnElement y)
  | notAText {y : NodeId} {content : Text} (h : c.isElement y = true) :
    IsRefused c (.setText y content) (.notAText y)

end Change

/-! ## Insertions -/

/-- The node itself is no anchor, and neither is what is no child. -/
theorem not_mem_children_unlink (hc : c.IsForest) {a : NodeId} :
    a ∉ (c.unlink y).children p ↔ a = y ∨ a ∉ c.children p := by
  rw [children_unlink]
  split_ifs with hp
  · rw [List.mem_filter, bne_iff_ne]
    tauto
  · refine ⟨.inr, ?_⟩
    rintro (rfl | ha)
    · rwa [hc.mem_children]
    · exact ha

section Insert

variable (hp : p < c.nodes.length) (hy : y < c.nodes.length)

theorem insertBefore_unknownParent (hp : c.nodes.length ≤ p) :
    c.insertBefore p y before = ⟨c, some (.unknownNode p)⟩ := by
  rw [Canvas.insertBefore, known_of_le hp]

include hp

theorem insertBefore_unknownChild (hy : c.nodes.length ≤ y) :
    c.insertBefore p y before = ⟨c, some (.unknownNode y)⟩ := by
  rw [Canvas.insertBefore, known_of_lt hp, known_of_le hy]

include hy

theorem insertBefore_ownSubtree (hc : c.IsForest) (h : c.Below y p) :
    c.insertBefore p y before = ⟨c, some (.ownSubtree y)⟩ := by
  rw [Canvas.insertBefore, known_of_lt hp, known_of_lt hy]
  exact if_pos (hc.isAncestor_iff.2 h)

theorem insertBefore_notAChild (hc : c.IsForest) {a : NodeId} (h : ¬ c.Below y p)
    (ha : a = y ∨ a ∉ c.children p) :
    c.insertBefore p y (some a) = ⟨c.unlink y, some (.notAChild a p)⟩ := by
  rw [← hc.isAncestor_iff] at h
  rw [← not_mem_children_unlink hc, ← List.idxOf?_eq_none_iff] at ha
  rw [Canvas.insertBefore, known_of_lt hp, known_of_lt hy]
  simp only [if_neg h, ha]

theorem error_insertBefore (hc : c.IsForest) (h : ¬ c.Below y p)
    (hbefore : ∀ a, before = some a → a ≠ y ∧ a ∈ c.children p) :
    (c.insertBefore p y before).error = none := by
  rw [← hc.isAncestor_iff] at h
  rw [Canvas.insertBefore, known_of_lt hp, known_of_lt hy]
  simp only [if_neg h]
  cases before with
  | none => rfl
  | some a =>
    obtain ⟨hay, ha⟩ := hbefore a rfl
    have hmem : a ∈ (c.unlink y).children p :=
      not_not.1 fun h => ((not_mem_children_unlink hc).1 h).elim hay fun h => h ha
    obtain ⟨i, hi⟩ := Option.isSome_iff_exists.1 (List.isSome_idxOf?.2 hmem)
    simp only [hi]

end Insert

/-- Why an insertion is refused. -/
theorem isRefused_of_insertBefore (hc : c.IsForest)
    (h : (c.insertBefore p y before).error = some e) :
    Change.IsRefused c (.insertBefore p y before) e := by
  by_cases hp : p < c.nodes.length
  swap
  · rw [insertBefore_unknownParent (Nat.le_of_not_lt hp)] at h
    cases h
    exact .unknownParent (Nat.le_of_not_lt hp)
  by_cases hy : y < c.nodes.length
  swap
  · rw [insertBefore_unknownChild hp (Nat.le_of_not_lt hy)] at h
    cases h
    exact .unknownChild hp (Nat.le_of_not_lt hy)
  by_cases hbelow : c.Below y p
  · rw [insertBefore_ownSubtree hp hy hc hbelow] at h
    cases h
    exact .ownSubtree hp hy hbelow
  by_cases hbefore : ∀ a, before = some a → a ≠ y ∧ a ∈ c.children p
  · rw [error_insertBefore hp hy hc hbelow hbefore] at h
    cases h
  · push Not at hbefore
    obtain ⟨a, rfl, ha⟩ := hbefore
    have ha : a = y ∨ a ∉ c.children p := or_iff_not_imp_left.2 ha
    rw [insertBefore_notAChild hp hy hc hbelow ha] at h
    cases h
    exact .notAChild hp hy hbelow ha

/-- An insertion without an anchor takes the node from its parent, and no other insertion that is
refused changes anything. -/
theorem insertBefore_of_isRefused (hc : c.IsForest)
    (h : Change.IsRefused c (.insertBefore p y before) e) :
    (c.insertBefore p y before).error = some e ∧
      ((∀ a, e ≠ .notAChild a p) ∧ (c.insertBefore p y before).state = c ∨
        ∃ a, before = some a ∧ e = .notAChild a p ∧
          (c.insertBefore p y before).state = c.unlink y) := by
  cases h with
  | unknownParent hp =>
    rw [insertBefore_unknownParent hp]
    exact ⟨rfl, .inl ⟨nofun, rfl⟩⟩
  | unknownChild hp hy =>
    rw [insertBefore_unknownChild hp hy]
    exact ⟨rfl, .inl ⟨nofun, rfl⟩⟩
  | ownSubtree hp hy h =>
    rw [insertBefore_ownSubtree hp hy hc h]
    exact ⟨rfl, .inl ⟨nofun, rfl⟩⟩
  | @notAChild _ _ a hp hy h ha =>
    rw [insertBefore_notAChild hp hy hc h ha]
    exact ⟨rfl, .inr ⟨a, rfl, rfl, rfl⟩⟩
  | unknownElement hx => cases hx
  | notAnElement hx => cases hx

/-! ## All changes -/

theorem updateAttributes_error_iff {f : Attrs → Attrs} : c.updateAttributes y f = .error e ↔
    c.nodes.length ≤ y ∧ e = .unknownNode y ∨
      (∃ data, c.data? y = some data) ∧ c.isElement y = false ∧ e = .notAnElement y := by
  cases hy : c.data? y with
  | none =>
    have hle := data?_eq_none_iff.1 hy
    rw [Canvas.updateAttributes, get?_eq_none_iff.2 hle]
    simp [hle, @eq_comm _ e]
  | some data =>
    have hlt := lt_of_data? hy
    obtain ⟨q, cs, hget⟩ := exists_get? hy
    cases data with
    | element tag as => simp [updateAttributes_eq hy, isElement_of_data? hy, Nat.not_le.2 hlt]
    | text | comment =>
      simp [Canvas.updateAttributes, isElement, hget, Nat.not_le.2 hlt, @eq_comm _ e]

theorem setText_error_iff {content : Text} :
    c.setText y content = .error e ↔ c.isElement y = true ∧ e = .notAText y := by
  rw [Canvas.setText, isElement]
  cases hget : c.get? y with
  | none => simp [@eq_comm _ e]
  | some n =>
    obtain ⟨data, q, cs⟩ := n
    cases data <;> simp [@eq_comm _ e]

theorem ofExcept_error_iff {r : Except CanvasError Canvas} :
    (Outcome.ofExcept c r).error = some e ↔ r = .error e := by
  cases r <;> simp [Outcome.ofExcept]

theorem state_ofExcept_of_error {r : Except CanvasError Canvas}
    (h : (Outcome.ofExcept c r).error = some e) : (Outcome.ofExcept c r).state = c := by
  rw [ofExcept_error_iff.1 h]
  rfl

/-- **Changes are refused for these reasons and no others.** -/
theorem Change.error_iff (hc : c.IsForest) {x : Change} :
    (x.apply c).error = some e ↔ x.IsRefused c e := by
  cases x with
  | append | create | mount =>
    refine ⟨nofun, fun h => ?_⟩
    cases h with
    | unknownElement hx => cases hx
    | notAnElement hx => cases hx
  | insertBefore p y before =>
    exact ⟨isRefused_of_insertBefore hc, fun h => (insertBefore_of_isRefused hc h).1⟩
  | detach y =>
    rw [apply, ofExcept_error_iff, Canvas.detach]
    constructor
    · intro h
      by_cases hy : y < c.nodes.length
      · rw [known_of_lt hy] at h
        cases h
      · rw [known_of_le (Nat.le_of_not_lt hy)] at h
        cases h
        exact .unknown (Nat.le_of_not_lt hy)
    · intro h
      cases h with
      | unknown hy => rw [known_of_le hy]
      | unknownElement hx => cases hx
      | notAnElement hx => cases hx
  | setAttribute y | removeAttribute y =>
    rw [apply, ofExcept_error_iff]
    refine updateAttributes_error_iff.trans ⟨?_, fun h => ?_⟩
    · rintro (⟨hy, rfl⟩ | ⟨⟨data, hy⟩, h, rfl⟩)
      · exact .unknownElement rfl hy
      · exact .notAnElement rfl hy h
    · cases h with
      | unknownElement hx hy =>
        cases hx
        exact .inl ⟨hy, rfl⟩
      | notAnElement hx hy h =>
        cases hx
        exact .inr ⟨⟨_, hy⟩, h, rfl⟩
  | setText y content =>
    rw [apply, ofExcept_error_iff, setText_error_iff]
    refine ⟨?_, fun h => ?_⟩
    · rintro ⟨h, rfl⟩
      exact .notAText h
    · cases h with
      | notAText h => exact ⟨h, rfl⟩
      | unknownElement hx => cases hx
      | notAnElement hx => cases hx

/-- A change is an insertion of a node that has a parent, in front of the node itself or of a node
that is no child of the new parent. -/
def Change.Orphans (c : Canvas) (x : Change) (y : NodeId) : Prop :=
  ∃ p a, x = .insertBefore p y (some a) ∧ x.IsRefused c (.notAChild a p) ∧ c.parent? y ≠ none

theorem Change.Orphans.state (hc : c.IsForest) {x : Change} (h : x.Orphans c y) :
    (x.apply c).state = c.unlink y := by
  obtain ⟨p, a, rfl, h, -⟩ := h
  obtain ⟨-, ⟨hne, -⟩ | ⟨-, -, -, hstate⟩⟩ := insertBefore_of_isRefused hc h
  · exact absurd rfl (hne a)
  · exact hstate

theorem state_of_not_orphans (hc : c.IsForest) {x : Change} (h : (x.apply c).error = some e)
    (hx : ∀ y, ¬ x.Orphans c y) : (x.apply c).state = c := by
  cases x with
  | append | create | mount => cases h
  | insertBefore p y before =>
    have hrefused := isRefused_of_insertBefore hc h
    obtain ⟨-, ⟨-, hstate⟩ | ⟨a, rfl, rfl, hstate⟩⟩ := insertBefore_of_isRefused hc hrefused
    · exact hstate
    · have hnone : c.parent? y = none := by
        by_contra hne
        exact hx y ⟨p, a, rfl, hrefused, hne⟩
      exact hstate.trans (unlink_of_parent? hnone)
  | detach | setAttribute | removeAttribute | setText => exact state_ofExcept_of_error h

/-- **A change that is refused leaves the canvas as it was, unless it is an insertion without an
anchor: that one takes the node from its parent.** -/
theorem unchanged_of_refused (hc : c.IsBuilt) {x : Change} (h : (x.apply c).error = some e) :
    x.IsRefused c e ∧ ((x.apply c).state = c ↔ ∀ y, ¬ x.Orphans c y) ∧
      ∀ y, x.Orphans c y → ∀ z, (x.apply c).state.data? z = c.data? z ∧
        ((x.apply c).state.parent? z = if z = y then none else c.parent? z) ∧
        (x.apply c).state.children z = (c.children z).filter (· != y) := by
  have hforest := hc.isSound.forest
  refine ⟨(Change.error_iff hforest).1 h, ⟨fun hstate y hy => ?_, state_of_not_orphans hforest h⟩,
    fun y hy z => ?_⟩
  · have hparent : (c.unlink y).parent? y = c.parent? y := by rw [← hy.state hforest, hstate]
    obtain ⟨p, a, -, -, hne⟩ := hy
    rw [parent?_unlink, if_pos rfl] at hparent
    exact hne hparent.symm
  · rw [hy.state hforest]
    refine ⟨data?_unlink, parent?_unlink, ?_⟩
    rw [children_unlink]
    split_ifs with hz
    · rfl
    · refine (List.filter_eq_self.2 fun w hw => bne_iff_ne.2 ?_).symm
      rintro rfl
      exact hz (hforest.mem_children.1 hw)

/-- The item of a list is to go in front of a paragraph that is not in the list. -/
theorem unchanged_of_refused_item :
    let c := Canvas.ofNode (.ofTopLevel [.element "ul".toList .empty .empty
      [.element "li".toList .empty .empty []], .element "p".toList .empty .empty []])
    let x := Change.insertBefore 1 2 (some 3)
    c.IsBuilt ∧ (x.apply c).error = some (.notAChild 3 1) ∧ x.Orphans c 2 ∧
      (x.apply c).state.children 1 = (c.children 1).filter (· != 2) := by
  intro c x
  have hc : c.IsBuilt := IsBuilt.empty.mount _
  have herror : (x.apply c).error = some (.notAChild 3 1) := by decide
  obtain ⟨hrefused, -, horphans⟩ := unchanged_of_refused hc herror
  have hx : x.Orphans c 2 := ⟨1, 3, rfl, hrefused, by decide⟩
  exact ⟨hc, herror, hx, (horphans 2 hx 1).2.2⟩

/-- So the item is in the list before, and is nowhere afterwards. -/
theorem not_unchanged_of_refused :
    let c := Canvas.ofNode (.ofTopLevel [.element "ul".toList .empty .empty
      [.element "li".toList .empty .empty []], .element "p".toList .empty .empty []])
    let o := c.insertBefore 1 2 (some 3)
    c.IsBuilt ∧ o.error = some (.notAChild 3 1) ∧
      c.parent? 2 = some 1 ∧ c.children 1 = [2] ∧
      o.state.parent? 2 = none ∧ o.state.children 1 = [] ∧ o.state ≠ c := by
  intro c o
  have hbefore : c.parent? 2 = some 1 := by decide
  have hafter : o.state.parent? 2 = none := by decide
  refine ⟨IsBuilt.empty.mount _, by decide, hbefore, by decide, hafter, by decide, fun h => ?_⟩
  rw [h, hbefore] at hafter
  cases hafter

end MarkupSync.Canvas
