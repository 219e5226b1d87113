import MarkupSync.Proofs.Canvas.Create

/-!
# Canvases that can be built

* `Canvas.IsBuilt`: canvases that are made of the empty one by the changes that a host can make;
* `Canvas.insertBefore_cases`: what an insertion leaves, also if it is refused;
* `Canvas.emptied`: a canvas without what the container has;
* **`Canvas.IsBuilt.isSound`**: parents and children agree on such a canvas, and its container is an
  element;
* `Outcome.andThen_induction`, `Outcome.run_induction`: what every step keeps, also one that fails;
* `Canvas.IsBuilt.render`: a document is shown anew by changes that a host can make;
* `Display.isBuilt_apply`: an edit, carried out or refused, makes only such changes;
* **`Display.isBuilt_applyAll`**: so do edits one after another.
-/

namespace MarkupSync.Canvas

variable {c c' : Canvas} {p x y : NodeId} {before : Option NodeId}

/-- A canvas that is made of the empty one by the changes that a host can make. -/
inductive IsBuilt : Canvas → Prop
  | empty : IsBuilt .empty
  | append {c : Canvas} {p : NodeId} (h : IsBuilt c) (hp : p < c.nodes.length) (data : LiveData) :
    IsBuilt (c.append p data).1
  | create {c : Canvas} (h : IsBuilt c) (n : Node) : IsBuilt (c.create n).1
  | mount {c : Canvas} (h : IsBuilt c) (n : Node) : IsBuilt (c.mount n)
  | insertBefore {c : Canvas} (h : IsBuilt c) (p x : NodeId) (before : Option NodeId) :
    IsBuilt (c.insertBefore p x before).state
  | detach {c c' : Canvas} {x : NodeId} (h : IsBuilt c) (hx : c.detach x = .ok c') : IsBuilt c'
  | updateAttributes {c c' : Canvas} {x : NodeId} {f : Attrs → Attrs} (h : IsBuilt c)
    (hx : c.updateAttributes x f = .ok c') : IsBuilt c'
  | setText {c c' : Canvas} {x : NodeId} {content : Text} (h : IsBuilt c)
    (hx : c.setText x content = .ok c') : IsBuilt c'

/-! ## One change -/

/-- What an insertion leaves, also if it is refused. -/
theorem insertBefore_cases (hc : c.IsForest) (p x : NodeId) (before : Option NodeId) :
    (c.insertBefore p x before).state = c ∨
      (c.insertBefore p x before).state = c.unlink x ∨
      ∃ k, (c.insertBefore p x before).state = (c.unlink x).link p x k ∧ p < c.nodes.length ∧
        x < c.nodes.length ∧ ¬ c.Below x p ∧
        ∀ i, k = some i → i ≤ ((c.unlink x).children p).length := by
  rw [Canvas.insertBefore]
  by_cases hp : p < c.nodes.length
  · by_cases hx : x < c.nodes.length
    · rw [known_of_lt hp, known_of_lt hx]
      simp only
      split_ifs with hanc
      · exact .inl rfl
      rw [hc.isAncestor_iff] at hanc
      cases before with
      | none => exact .inr (.inr ⟨none, rfl, hp, hx, hanc, by rintro _ ⟨⟩⟩)
      | some anchor =>
        simp only
        cases hi : ((c.unlink x).children p).idxOf? anchor with
        | none => exact .inr (.inl rfl)
        | some i =>
          refine .inr (.inr ⟨some i, rfl, hp, hx, hanc, ?_⟩)
          rintro _ ⟨⟩
          obtain ⟨hlt, -⟩ := List.idxOf?_eq_some_iff.1 hi
          exact Nat.le_of_lt hlt
    · rw [known_of_lt hp, known_of_le (Nat.le_of_not_lt hx)]
      exact .inl rfl
  · rw [known_of_le (Nat.le_of_not_lt hp)]
    exact .inl rfl

theorem IsForest.insertBefore (hc : c.IsForest) :
    (c.insertBefore p x before).state.IsForest := by
  obtain h | h | ⟨k, h, hp, hx, hbelow, hk⟩ := insertBefore_cases hc p x before
  · rwa [h]
  · rw [h]
    exact hc.unlink x
  · rw [h]
    refine (hc.unlink x).link (by simpa using hp) (by simpa using hx) ?_ (fun hb => hbelow ?_) hk
    · rw [parent?_unlink, if_pos rfl]
    · refine Relation.ReflTransGen.mono (fun q y hy => ?_) x p hb
      rw [parent?_unlink] at hy
      split_ifs at hy
      exact hy

theorem data?_insertBefore (hc : c.IsForest) :
    (c.insertBefore p x before).state.data? y = c.data? y := by
  obtain h | h | ⟨k, h, -⟩ := insertBefore_cases hc p x before
  · rw [h]
  · rw [h, data?_unlink]
  · rw [h, data?_link, data?_unlink]

theorem IsForest.append (hc : c.IsForest) (hp : p < c.nodes.length) (data : LiveData) :
    (c.append p data).1.IsForest := by
  have hnew : ∀ y < c.nodes.length, (c.alloc data).1.get? y = c.get? y := fun y hy =>
    get?_alloc_of_lt data hy
  have hlt : c.nodes.length < (c.alloc data).1.nodes.length := by simp
  refine (hc.alloc data).link_none (hp.trans hlt) hlt ?_ (not_below_new hnew hc hp)
  exact (parent?_alloc c data).trans (parent?_of_le (Nat.le_refl _))

theorem data?_append (hx : x < c.nodes.length) (data : LiveData) :
    (c.append p data).1.data? x = c.data? x :=
  data?_link.trans (data?_congr (get?_alloc_of_lt data hx))

/-! ## Another document in the container -/

theorem foldl_orphan (ys : List NodeId) :
    let c' := ys.foldl (fun c y => c.modify y fun n => { n with parent := none }) c
    (∀ x, c'.data? x = c.data? x) ∧ (∀ x, c'.children x = c.children x) ∧
      (∀ x, c'.parent? x = if x ∈ ys then none else c.parent? x) ∧
      c'.nodes.length = c.nodes.length := by
  induction ys generalizing c with
  | nil => simp
  | cons y ys ih =>
    obtain ⟨hdata, hchildren, hparent, hlen⟩ := @ih (c.modify y fun n => { n with parent := none })
    refine ⟨fun x => (hdata x).trans (data?_modify _ _ _ fun _ => rfl),
      fun x => (hchildren x).trans (children_modify _ _ _ fun _ => rfl), fun x => ?_,
      hlen.trans (length_modify ..)⟩
    refine (hparent x).trans ?_
    rw [Canvas.parent?, get?_modify]
    by_cases hx : x = y
    · cases c.get? y <;> simp [hx]
    · simp [hx, Canvas.parent?]

/-- The canvas without what the container has. -/
def emptied (c : Canvas) : Canvas :=
  ((c.children container).foldl (fun c y => c.modify y fun n => { n with parent := none }) c).modify
    container fun n => { n with children := [] }

theorem length_emptied : c.emptied.nodes.length = c.nodes.length :=
  (length_modify ..).trans (foldl_orphan (c.children container)).2.2.2

theorem data?_emptied : c.emptied.data? x = c.data? x := by
  rw [emptied, data?_modify]
  · exact (foldl_orphan (c.children container)).1 x
  · exact fun _ => rfl

theorem parent?_emptied :
    c.emptied.parent? x = if x ∈ c.children container then none else c.parent? x := by
  rw [emptied, parent?_modify]
  · exact (foldl_orphan (c.children container)).2.2.1 x
  · exact fun _ => rfl

theorem children_emptied : c.emptied.children x = if x = container then [] else c.children x := by
  rw [emptied, Canvas.children, get?_modify]
  split_ifs with hx
  · cases Canvas.get? _ container <;> rfl
  · exact (foldl_orphan (c.children container)).2.1 x

theorem IsForest.emptied (hc : c.IsForest) : c.emptied.IsForest where
  mem_children {p x} := by
    simp only [children_emptied, parent?_emptied, hc.mem_children]
    by_cases hx : c.parent? x = some container
    · by_cases hp : p = container
      · simp [hp, hx]
      · simp [hp, hx, hc.mem_children, Ne.symm hp]
    · by_cases hp : p = container <;> simp [hp, hx, hc.mem_children]
  nodup p := by
    rw [children_emptied]
    split_ifs
    · exact .nil
    · exact hc.nodup p
  acyclic := by
    obtain ⟨depth, hd⟩ := hc.acyclic
    refine ⟨depth, fun p x hx => hd p x ?_⟩
    rw [parent?_emptied] at hx
    split_ifs at hx
    exact hx

/-! ## Other content -/

theorem exists_of_updateAttributes {f : Attrs → Attrs} (h : c.updateAttributes x f = .ok c') :
    ∃ tag as, c.data? x = some (.element tag as) ∧ c' = c.setData x (.element tag (f as)) := by
  cases hd : c.data? x with
  | none =>
    rw [Canvas.updateAttributes, get?_eq_none_iff.2 (data?_eq_none_iff.1 hd)] at h
    cases h
  | some data =>
    cases data with
    | element tag as =>
      rw [updateAttributes_eq hd] at h
      cases h
      exact ⟨tag, as, rfl, rfl⟩
    | text | comment =>
      obtain ⟨q, cs, hget⟩ := exists_get? hd
      rw [Canvas.updateAttributes, hget] at h
      cases h

theorem exists_of_setText {content : Text} (h : c.setText x content = .ok c') :
    ∃ data, x < c.nodes.length ∧ c.isElement x = false ∧ c' = c.setData x data := by
  rw [Canvas.setText] at h
  split at h
  next hget =>
    cases h
    exact ⟨_, (List.getElem?_eq_some_iff.1 hget).1, by rw [isElement, hget], rfl⟩
  next hget =>
    cases h
    exact ⟨_, (List.getElem?_eq_some_iff.1 hget).1, by rw [isElement, hget], rfl⟩
  next => cases h

theorem IsForest.setData (hc : c.IsForest) (data : LiveData) : (c.setData x data).IsForest :=
  hc.of_eq (fun _ => parent?_setData data) fun _ => children_setData data

/-! ## Any changes -/

/-- Parents and children agree, and the container is an element. -/
structure IsSound (c : Canvas) : Prop where
  forest : c.IsForest
  container : ∃ name live, c.data? Canvas.container = some (.element name live)

theorem isForest_empty : Canvas.empty.IsForest := by
  have hparent : ∀ x, Canvas.empty.parent? x = none := fun x => by cases x <;> rfl
  have hchildren : ∀ x, Canvas.empty.children x = [] := fun x => by cases x <;> rfl
  exact ⟨by simp [hparent, hchildren], by simp [hchildren], fun _ => 0, by simp [hparent]⟩

/-- **On a canvas that can be built parents and children agree, and the container is an element.** -/
theorem IsBuilt.isSound (h : c.IsBuilt) : c.IsSound := by
  induction h with
  | empty => exact ⟨isForest_empty, _, _, rfl⟩
  | append _ hp data ih =>
    obtain ⟨hc, name, live, hx⟩ := ih
    exact ⟨hc.append hp data, name, live, (data?_append (lt_of_data? hx) data).trans hx⟩
  | create _ n ih =>
    obtain ⟨hc, name, live, hx⟩ := ih
    obtain ⟨hforest, -, hget, -⟩ := create_spec hc n
    exact ⟨hforest, name, live, (data?_congr (hget _ (lt_of_data? hx))).trans hx⟩
  | mount _ n ih =>
    obtain ⟨hc, name, live, hx⟩ := ih
    obtain ⟨hforest, hgrows⟩ := createAll_spec hc.emptied (p := Canvas.container)
      (by rw [length_emptied]; exact lt_of_data? hx) n.topLevel
    exact ⟨hforest, name, live, hgrows.data?.trans (data?_emptied.trans hx)⟩
  | insertBefore _ p x before ih =>
    obtain ⟨hc, name, live, hx⟩ := ih
    exact ⟨hc.insertBefore, name, live, (data?_insertBefore hc).trans hx⟩
  | @detach c c' x _ hx' ih =>
    obtain ⟨hc, name, live, hx⟩ := ih
    rw [Canvas.detach] at hx'
    split at hx' <;> cases hx'
    exact ⟨hc.unlink x, name, live, data?_unlink.trans hx⟩
  | @updateAttributes c c' x f _ hx' ih =>
    obtain ⟨hc, name, live, hx⟩ := ih
    obtain ⟨tag, as, hy, rfl⟩ := exists_of_updateAttributes hx'
    refine ⟨hc.setData _, ?_⟩
    rw [data?_setData (lt_of_data? hy)]
    split_ifs
    · exact ⟨_, _, rfl⟩
    · exact ⟨_, _, hx⟩
  | @setText c c' x content _ hx' ih =>
    obtain ⟨hc, name, live, hx⟩ := ih
    obtain ⟨data, hlt, hy, rfl⟩ := exists_of_setText hx'
    refine ⟨hc.setData _, name, live, ?_⟩
    rw [data?_setData hlt, if_neg]
    · exact hx
    · rintro rfl
      rw [isElement_of_data? hx] at hy
      cases hy

end MarkupSync.Canvas

namespace MarkupSync

/-! ## Steps that may fail -/

namespace Outcome

variable {σ ε : Type} {P : σ → Prop}

theorem andThen_induction {o : Outcome σ ε} {f : σ → Outcome σ ε} (ho : P o.state)
    (hf : ∀ s, P s → P (f s).state) : P (o.andThen f).state := by
  rw [andThen]
  split
  · exact hf o.state ho
  · exact ho

theorem run_induction {α : Type} {step : σ → α → Outcome σ ε} {s : σ} (hs : P s)
    (hstep : ∀ s a, P s → P (step s a).state) (as : List α) : P (run step s as).state := by
  induction as generalizing s with
  | nil => exact hs
  | cons a as ih => exact andThen_induction (hstep s a hs) fun t ht => ih ht

theorem ofExcept_induction {s : σ} {r : Except ε σ} (hs : P s) (hr : ∀ t, r = .ok t → P t) :
    P (ofExcept s r).state := by
  cases r with
  | ok t => exact hr t rfl
  | error e => exact hs

end Outcome

/-! ## Changes of the canvas -/

namespace Canvas

variable {c : Canvas} {d : Decoration}

namespace IsBuilt

theorem unlink (h : c.IsBuilt) (x : NodeId) : (c.unlink x).IsBuilt := by
  by_cases hx : x < c.nodes.length
  · exact h.detach (by rw [Canvas.detach, known_of_lt hx])
  · rw [Canvas.unlink, Canvas.parent?, get?_eq_none_iff.2 (Nat.le_of_not_lt hx)]
    exact h

theorem place (h : c.IsBuilt) (p : NodeId) (before : Option NodeId) (n : Node) :
    (c.place p before n).state.IsBuilt :=
  (h.create n).insertBefore p _ before

theorem clear (h : c.IsBuilt) (d : Decoration) : (c.clear d).IsBuilt := by
  rw [Canvas.clear]
  refine List.foldlRecOn (motive := IsBuilt) _ _ h fun c hc x _ => ?_
  split
  · exact hc
  · exact hc.unlink x

/-- A document is shown anew by changes that a host can make. -/
theorem render (h : c.IsBuilt) (d : Decoration) (n : Node) : (c.render d n).state.IsBuilt :=
  Outcome.run_induction (h.clear d) (fun _ n hc => hc.place container none n) _

end IsBuilt

end Canvas

/-! ## Edits -/

namespace Display

variable {s : Display} {d : Decoration}

/-- The canvas of a display is one that can be built. -/
def IsBuilt (s : Display) : Prop := s.canvas.IsBuilt

theorem isBuilt_changed {o : Outcome Canvas CanvasError} (ho : o.state.IsBuilt) :
    (s.changed o).state.IsBuilt := ho

theorem isBuilt_changedTo {r : Except CanvasError Canvas} (hs : s.IsBuilt)
    (hr : ∀ c, r = .ok c → c.IsBuilt) : (s.changedTo r).state.IsBuilt :=
  isBuilt_changed (Outcome.ofExcept_induction hs hr)

variable (h : s.IsBuilt)
include h

theorem isBuilt_setClasses (x : NodeId) (classes : List Text) :
    (s.setClasses d x classes).state.IsBuilt := by
  rw [setClasses]
  split_ifs
  · exact isBuilt_changedTo h fun _ hc => h.updateAttributes hc
  · exact isBuilt_changedTo h fun _ hc => h.updateAttributes hc

theorem isBuilt_assign (x : NodeId) (e : Entry) : (assign d x s e).state.IsBuilt := by
  rw [assign]
  split_ifs
  · exact isBuilt_setClasses h x _
  · exact isBuilt_changedTo h fun _ hc => h.updateAttributes hc

theorem isBuilt_drop (x : NodeId) (name : Text) : (drop d x s name).state.IsBuilt := by
  rw [drop]
  split_ifs
  · exact isBuilt_setClasses h x _
  · exact isBuilt_changedTo h fun _ hc => h.updateAttributes hc

theorem isBuilt_setStyle (x : NodeId) (delta : Delta) :
    (s.setStyle x delta).state.IsBuilt := by
  rw [setStyle]
  extract_lets _
  split_ifs
  · exact h
  · exact isBuilt_changedTo h fun _ hc => h.updateAttributes hc
  · exact isBuilt_changedTo h fun _ hc => h.updateAttributes hc

theorem isBuilt_updateAttributes (x : NodeId) (attributes style : Delta) :
    (s.updateAttributes d x attributes style).state.IsBuilt := by
  have hdrop : ∀ names, (Outcome.run (drop d x) s names).state.IsBuilt :=
    Outcome.run_induction (P := IsBuilt) h fun _ name hs => isBuilt_drop hs x name
  have hassign : ∀ s : Display, s.IsBuilt →
      ∀ es, (Outcome.run (assign d x) s es).state.IsBuilt := fun s hs =>
    Outcome.run_induction (P := IsBuilt) hs fun _ e hs => isBuilt_assign hs x e
  refine Outcome.andThen_induction (P := IsBuilt) (Outcome.andThen_induction (P := IsBuilt)
    (hdrop _) fun s hs => hassign s hs _) fun s hs => isBuilt_setStyle hs x style

theorem isBuilt_replace (path : NodePath) (n : Node) :
    (s.replace d path n).state.IsBuilt := by
  rw [replace]
  split
  · exact Outcome.andThen_induction (P := IsBuilt)
      (isBuilt_changed (h.render d n)) fun _ hs => hs
  · split
    · exact h
    · exact h
    · exact Outcome.andThen_induction (P := IsBuilt)
        (isBuilt_changed (h.place _ _ n)) fun s hs => isBuilt_changedTo hs fun _ hc => hs.detach hc

/-- **An edit makes only changes that a host can make**, also if it is refused on its way. -/
theorem isBuilt_apply (e : Edit) : (s.apply d e).state.IsBuilt := by
  cases e with
  | insert parent index n =>
    rw [apply]
    split
    · exact h
    · exact isBuilt_changed (h.place _ _ n)
  | remove path =>
    rw [apply]
    split_ifs
    · exact h
    · split
      · exact h
      · exact isBuilt_changedTo h fun _ hc => h.detach hc
  | replace path n => exact isBuilt_replace h path n
  | updateAttributes path attributes style =>
    rw [apply]
    split
    · exact h
    · split_ifs
      · exact isBuilt_updateAttributes h _ _ _
      · exact h
  | updateText path content =>
    rw [apply]
    split
    · exact h
    · exact isBuilt_changedTo h fun _ hc => h.setText hc
  | move source parent index =>
    rw [apply]
    split
    · exact h
    · refine Outcome.andThen_induction (P := IsBuilt)
        (isBuilt_changedTo h fun _ hc => h.detach hc) fun s hs => ?_
      split
      · exact hs
      · exact isBuilt_changed (hs.insertBefore _ _ _)

/-- **So do edits one after another.** -/
theorem isBuilt_applyAll (es : List Edit) : (s.applyAll d es).state.IsBuilt :=
  Outcome.run_induction (P := IsBuilt) h
    (fun _ e hs => isBuilt_apply hs e) es

end Display

end MarkupSync
