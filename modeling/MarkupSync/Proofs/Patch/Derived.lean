import Mathlib.Data.List.Forall2
import Mathlib.Data.List.Perm.Basic
import MarkupSync.Patch.Splices
import MarkupSync.Proofs.Diff.Reach
import MarkupSync.Proofs.Tree.Everywhere

/-!
# What edits make of a source document

* `Node.HasFlatTexts`, `Edit.IsFlat`: new nodes whose kept texts have no line breaks;
* `Derived`: a node of the source whose attributes, text and children may have changed; each of its
  children is new or derived from a child of the source of its own;
* **`Derived.steps`**: flat edits make of a derived document a derived or a new one;
* `Fits`, `Fits.derived`: a document whose places fit it is derived from itself.
-/

namespace MarkupSync

/-- The texts of a new node that are kept as they are written have no line breaks; other texts of a
normal node never have any. -/
def Node.HasFlatTexts : Node → Prop
  | .text t => '\n' ∉ t
  | .element tag attributes style children =>
    (element tag attributes style children).Everywhere fun tag _ _ cs =>
      isRaw tag = true → ∀ t, .text t ∈ cs → '\n' ∉ t

/-- What an edit puts into a document has flat texts. -/
def Edit.IsFlat : Edit → Prop
  | .insert _ _ n => n.HasFlatTexts
  | .replace _ n => n.HasFlatTexts
  | .remove _ | .updateAttributes .. | .updateText .. | .move .. => True

theorem Edit.isFlat_under {path : NodePath} {e : Edit} : (e.under path).IsFlat ↔ e.IsFlat := by
  cases e <;> rfl

namespace Shadow

/-- A node that edits have put into the document. -/
def IsNew (s : Shadow) : Prop := ∃ m : Node, m.HasFlatTexts ∧ s = fresh m

theorem IsNew.origin {s : Shadow} (h : s.IsNew) : s.origin = none := by
  obtain ⟨m, -, rfl⟩ := h
  exact origin_fresh m

end Shadow

open Shadow

/-- `s` has become of the node and the place `x` at a path of the source. -/
inductive Derived : NodePath → Node × Place → Shadow → Prop
  | text {path : NodePath} {a b : Text} {span : Span} :
    Derived path (.text a, .text span) (.text (some ⟨path, .text a, .text span⟩) b)
  | element {path : NodePath} {tag : Text} {as st bs rt : Attrs} {place : ElementPlace}
    {l : List (Node × Place)} {cs : List Shadow}
    (hnew : ∀ c ∈ cs, c.origin = none → c.IsNew)
    (hkept : ∀ c ∈ cs, ∀ o, c.origin = some o → Derived o.path (o.node, o.place) c)
    (hplace : ∀ c ∈ cs, ∀ o, c.origin = some o →
      ∃ i x, l[i]? = some x ∧ o = ⟨path.child i, x.1, x.2⟩)
    (hnodup : ((cs.filterMap origin).map Origin.path).Nodup) :
    Derived path (.element tag as st (l.map Prod.fst), .element place (l.map Prod.snd))
      (.element (some ⟨path, .element tag as st (l.map Prod.fst), .element place (l.map Prod.snd)⟩)
        tag bs rt cs)

/-- `cs` have become of the children `l` of the node at a path of the source. -/
structure AreDerived (path : NodePath) (l : List (Node × Place)) (cs : List Shadow) : Prop where
  isNew : ∀ c ∈ cs, c.origin = none → c.IsNew
  derived : ∀ c ∈ cs, ∀ o, c.origin = some o → Derived o.path (o.node, o.place) c
  /-- A child with an origin comes from one of the children. -/
  place : ∀ c ∈ cs, ∀ o, c.origin = some o → ∃ i x, l[i]? = some x ∧ o = ⟨path.child i, x.1, x.2⟩
  /-- No two come from the same one. -/
  nodup : ((cs.filterMap origin).map Origin.path).Nodup

theorem Derived.origin {path : NodePath} {x : Node × Place} {s : Shadow} (h : Derived path x s) :
    s.origin = some ⟨path, x.1, x.2⟩ := by
  cases h <;> rfl

namespace AreDerived

variable {path : NodePath} {l : List (Node × Place)} {cs ds : List Shadow} {c c' : Shadow}

/-- The order of the children does not matter, and there may be fewer of them. -/
theorem subperm (h : AreDerived path l cs) (hs : ds.Subperm cs) : AreDerived path l ds := by
  have hmem : ∀ c ∈ ds, c ∈ cs := fun c hc => hs.subset hc
  refine ⟨fun c hc => h.isNew c (hmem c hc), fun c hc => h.derived c (hmem c hc),
    fun c hc => h.place c (hmem c hc), ?_⟩
  obtain ⟨ks, hperm, hsub⟩ := hs
  exact ((hperm.filterMap _).map _).nodup_iff.1 (h.nodup.sublist ((hsub.filterMap _).map _))

/-- A new child is put in front. -/
theorem cons_new (h : AreDerived path l cs) (hc : c.IsNew) : AreDerived path l (c :: cs) := by
  refine ⟨List.forall_mem_cons.2 ⟨fun _ => hc, h.isNew⟩,
    List.forall_mem_cons.2 ⟨fun o ho => ?_, h.derived⟩,
    List.forall_mem_cons.2 ⟨fun o ho => ?_, h.place⟩, ?_⟩
  · rw [hc.origin] at ho
    cases ho
  · rw [hc.origin] at ho
    cases ho
  · rw [List.filterMap_cons_none hc.origin]
    exact h.nodup

/-- The first child changes and keeps its origin. -/
theorem cons_derived (h : AreDerived path l (c :: cs)) {o : Origin} (hc : c.origin = some o)
    (hc' : Derived o.path (o.node, o.place) c') : AreDerived path l (c' :: cs) := by
  have horigin : c'.origin = some o := hc'.origin
  obtain ⟨-, hnew⟩ := List.forall_mem_cons.1 h.isNew
  obtain ⟨-, hkept⟩ := List.forall_mem_cons.1 h.derived
  obtain ⟨hplace, hplaces⟩ := List.forall_mem_cons.1 h.place
  refine ⟨List.forall_mem_cons.2 ⟨fun hn => ?_, hnew⟩,
    List.forall_mem_cons.2 ⟨fun o' ho' => ?_, hkept⟩,
    List.forall_mem_cons.2 ⟨fun o' ho' => ?_, hplaces⟩, ?_⟩
  · rw [horigin] at hn
    cases hn
  · rw [horigin] at ho'
    cases ho'
    exact hc'
  · rw [horigin] at ho'
    cases ho'
    exact hplace _ hc
  · have := h.nodup
    rw [List.filterMap_cons_some hc] at this
    rwa [List.filterMap_cons_some horigin]

theorem insertIdx (h : AreDerived path l cs) (hc : c.IsNew) {k : Nat} (hk : k ≤ cs.length) :
    AreDerived path l (cs.insertIdx k c) :=
  (h.cons_new hc).subperm (List.perm_insertIdx c cs hk).subperm

theorem eraseIdx (h : AreDerived path l cs) (k : Nat) : AreDerived path l (cs.eraseIdx k) :=
  h.subperm (List.eraseIdx_sublist cs k).subperm

theorem move (h : AreDerived path l cs) {i k : Nat} (hc : cs[i]? = some c)
    (hk : k ≤ (cs.eraseIdx i).length) : AreDerived path l ((cs.eraseIdx i).insertIdx k c) := by
  obtain ⟨hi, rfl⟩ := List.getElem?_eq_some_iff.1 hc
  exact h.subperm ((List.perm_insertIdx _ _ hk).trans (List.getElem_cons_eraseIdx_perm hi)).subperm

/-- A child changes: it becomes new, or it keeps its origin. -/
theorem set (h : AreDerived path l cs) {i : Nat} (hc : cs[i]? = some c)
    (hc' : c'.IsNew ∨ ∃ o, c.origin = some o ∧ Derived o.path (o.node, o.place) c') :
    AreDerived path l (cs.set i c') := by
  obtain ⟨hi, rfl⟩ := List.getElem?_eq_some_iff.1 hc
  have hcons := h.subperm (List.getElem_cons_eraseIdx_perm hi).subperm
  have hset := List.set_perm_cons_eraseIdx hi c'
  obtain hc' | ⟨o, ho, hc'⟩ := hc'
  · exact ((h.eraseIdx i).cons_new hc').subperm hset.subperm
  · exact (hcons.cons_derived ho hc').subperm hset.subperm

end AreDerived

theorem NodePath.child_injective (path : NodePath) : Function.Injective path.child := by
  intro i j h
  simpa [NodePath.child] using h

/-- Children that are kept in their order come from the children one by one. -/
theorem AreDerived.forall₂ {path : NodePath} {l : List (Node × Place)} {cs : List Shadow}
    (h : AreDerived path l cs) (hk : Patcher.keepsChildren path l.length cs = true) :
    List.Forall₂ (fun x c => ∃ path, Derived path x c) l cs := by
  rw [Patcher.keepsChildren, beq_iff_eq] at hk
  have hlen : cs.length = l.length := by simpa using congrArg List.length hk
  refine List.forall₂_iff_get.2 ⟨hlen.symm, fun i hi hi' => ?_⟩
  have hpath : cs[i].origin.map Origin.path = some (path.child i) := by
    simpa [hi, hi'] using congrArg (fun ps => ps[i]?) hk
  obtain ⟨o, ho, hopath⟩ := Option.map_eq_some_iff.1 hpath
  have hmem : cs[i] ∈ cs := List.getElem_mem hi'
  have hd := h.derived _ hmem o ho
  obtain ⟨j, x, hx, rfl⟩ := h.place _ hmem o ho
  have hji : j = i := path.child_injective hopath
  have hxi : l[i] = x := by
    rw [hji, List.getElem?_eq_getElem hi] at hx
    exact Option.some.inj hx
  exact ⟨_, hxi ▸ hd⟩

namespace Derived

variable {path : NodePath} {x : Node × Place} {s t : Shadow} {e : Edit}

theorem of_children {tag : Text} {as st bs rt : Attrs} {place : ElementPlace}
    {l : List (Node × Place)} {cs : List Shadow} (h : AreDerived path l cs) :
    Derived path (.element tag as st (l.map Prod.fst), .element place (l.map Prod.snd))
      (.element (some ⟨path, .element tag as st (l.map Prod.fst), .element place (l.map Prod.snd)⟩)
        tag bs rt cs) :=
  .element h.isNew h.derived h.place h.nodup

/-- A derived element comes from an element with its tag, and its children from the children. -/
theorem exists_children {o : Option Origin} {tag : Text} {bs rt : Attrs} {cs : List Shadow}
    (h : Derived path x (.element o tag bs rt cs)) :
    ∃ as st place l, x = (.element tag as st (l.map Prod.fst), .element place (l.map Prod.snd)) ∧
      o = some ⟨path, x.1, x.2⟩ ∧ AreDerived path l cs := by
  cases h with
  | element hnew hkept hplace hnodup => exact ⟨_, _, _, _, rfl, rfl, hnew, hkept, hplace, hnodup⟩

variable {P : Bool → Node → Prop} {raw : Bool}

/-- In a new node nothing is changed: it can only be replaced. -/
theorem isNew_of_step (h : Step P raw s e t) (he : e.IsFlat) (hs : s.IsNew) : t.IsNew := by
  have hnone := hs.origin
  cases h with
  | replace => exact ⟨_, he, rfl⟩
  | _ => cases hnone

/-- A flat edit makes of a derived node a derived or a new one. -/
theorem step (h : Step P raw s e t) (he : e.IsFlat) (hs : Derived path x s) :
    t.IsNew ∨ Derived path x t := by
  induction h generalizing path x with
  | text => cases hs; exact .inr .text
  | replace => exact .inl ⟨_, he, rfl⟩
  | attributes =>
    obtain ⟨as, st, place, l, rfl, ho, hcs⟩ := hs.exists_children
    cases ho
    exact .inr (of_children hcs)
  | insert hk =>
    obtain ⟨as, st, place, l, rfl, ho, hcs⟩ := hs.exists_children
    cases ho
    exact .inr (of_children (hcs.insertIdx ⟨_, he, rfl⟩ hk))
  | remove =>
    obtain ⟨as, st, place, l, rfl, ho, hcs⟩ := hs.exists_children
    cases ho
    exact .inr (of_children (hcs.eraseIdx _))
  | move hc hk =>
    obtain ⟨as, st, place, l, rfl, ho, hcs⟩ := hs.exists_children
    cases ho
    exact .inr (of_children (hcs.move hc hk))
  | @inside _ _ _ _ _ _ _ c _ _ hc hstep ih =>
    obtain ⟨as, st, place, l, rfl, ho, hcs⟩ := hs.exists_children
    cases ho
    rw [Edit.isFlat_under] at he
    refine .inr (of_children (hcs.set hc ?_))
    have hmem := List.mem_of_getElem? hc
    cases horigin : c.origin with
    | none => exact .inl (isNew_of_step hstep he (hcs.isNew c hmem horigin))
    | some o => exact (ih he (hcs.derived c hmem o horigin)).imp_right fun h => ⟨o, rfl, h⟩

/-- **Flat edits make of a derived document a derived or a new one.** -/
theorem steps {es : List Edit} (h : Steps P raw s es t) (he : ∀ e ∈ es, e.IsFlat)
    (hs : s.IsNew ∨ Derived path x s) : t.IsNew ∨ Derived path x t := by
  induction h with
  | nil => exact hs
  | cons h _ ih =>
    obtain ⟨he, hes⟩ := List.forall_mem_cons.1 he
    exact ih hes (hs.elim (fun hs => .inl (isNew_of_step h he hs)) (step h he))

end Derived

/-! ## The document itself -/

/-- The places have the shape of the node. -/
inductive Fits : Node × Place → Prop
  | text {a : Text} {span : Span} : Fits (.text a, .text span)
  | element {tag : Text} {as st : Attrs} {place : ElementPlace} {l : List (Node × Place)}
    (h : ∀ x ∈ l, Fits x) :
    Fits (.element tag as st (l.map Prod.fst), .element place (l.map Prod.snd))

namespace Fits

variable {x : Node × Place}

theorem ofSources_eq (path : NodePath) (index : Nat) (l : List (Node × Place)) :
    ofSources path index (l.map Prod.snd) (l.map Prod.fst) =
      (l.zipIdx index).map fun (x, i) => ofSource (path.child i) x.2 x.1 := by
  induction l generalizing index with
  | nil => rfl
  | cons x l ih => rw [List.map_cons, List.map_cons, ofSources, ih, List.zipIdx_cons, List.map_cons]

theorem getElem?_ofSources (path : NodePath) (l : List (Node × Place)) (i : Nat) :
    (ofSources path 0 (l.map Prod.snd) (l.map Prod.fst))[i]? =
      l[i]?.map fun x => ofSource (path.child i) x.2 x.1 := by
  rw [ofSources_eq, List.getElem?_map, List.getElem?_zipIdx, Nat.zero_add, Option.map_map]
  rfl

theorem exists_of_mem_ofSources {path : NodePath} {l : List (Node × Place)} {c : Shadow}
    (h : c ∈ ofSources path 0 (l.map Prod.snd) (l.map Prod.fst)) :
    ∃ i x, l[i]? = some x ∧ c = ofSource (path.child i) x.2 x.1 := by
  obtain ⟨i, hi⟩ := List.mem_iff_getElem?.1 h
  rw [getElem?_ofSources] at hi
  obtain ⟨x, hx, rfl⟩ := Option.map_eq_some_iff.1 hi
  exact ⟨i, x, hx, rfl⟩

theorem origin_ofSource (path : NodePath) (place : Place) (n : Node) :
    (ofSource path place n).origin = some ⟨path, n, place⟩ := by
  cases n <;> rfl

theorem nodup_ofSources (path : NodePath) (l : List (Node × Place)) :
    (((ofSources path 0 (l.map Prod.snd) (l.map Prod.fst)).filterMap origin).map
      Origin.path).Nodup := by
  have : ((l.zipIdx.map fun (x, i) => ofSource (path.child i) x.2 x.1).filterMap origin).map
      Origin.path = (l.zipIdx.map Prod.snd).map path.child := by
    rw [List.filterMap_map, List.map_filterMap, List.map_map, ← List.filterMap_eq_map]
    refine List.filterMap_congr fun y _ => ?_
    rw [Function.comp_apply, origin_ofSource]
    rfl
  rw [ofSources_eq, this, List.zipIdx_map_snd]
  exact (List.nodup_range' ..).map path.child_injective

/-- **A document whose places fit it is derived from itself.** -/
theorem derived (h : Fits x) (path : NodePath) : Derived path x (ofSource path x.2 x.1) := by
  induction h generalizing path with
  | text => exact .text
  | @element tag as st place l _ ih =>
    rw [ofSource, Place.children]
    refine .of_children ⟨fun c hc hnone => ?_, fun c hc o ho => ?_, fun c hc o ho => ?_,
      nodup_ofSources path l⟩
    all_goals obtain ⟨i, x, hx, rfl⟩ := exists_of_mem_ofSources hc
    · rw [origin_ofSource] at hnone
      cases hnone
    · rw [origin_ofSource] at ho
      cases ho
      exact ih x (List.mem_of_getElem? hx) _
    · rw [origin_ofSource] at ho
      cases ho
      exact ⟨i, x, hx, rfl⟩

theorem areSourced_iff {ss : List Shadow} : AreSourced ss ↔ ∀ s ∈ ss, s.IsSourced := by
  induction ss with
  | nil => simp [AreSourced]
  | cons s ss ih => simp [AreSourced, ih]

/-- All its nodes have origins, and it stands for the document. -/
theorem isSourced (h : Fits x) (path : NodePath) :
    (ofSource path x.2 x.1).IsSourced ∧ (ofSource path x.2 x.1).toNode = x.1 := by
  induction h generalizing path with
  | text => exact ⟨rfl, rfl⟩
  | @element tag as st place l _ ih =>
    rw [ofSource, Place.children, toNode, toNodes_eq_map]
    refine ⟨⟨rfl, areSourced_iff.2 fun c hc => ?_⟩, congrArg _ (List.ext_getElem? fun i => ?_)⟩
    · obtain ⟨i, y, hy, rfl⟩ := exists_of_mem_ofSources hc
      exact (ih y (List.mem_of_getElem? hy) _).1
    · rw [List.getElem?_map, getElem?_ofSources, List.getElem?_map]
      cases hi : l[i]? with
      | none => rfl
      | some y => exact congrArg some (ih y (List.mem_of_getElem? hi) _).2

end Fits

end MarkupSync
