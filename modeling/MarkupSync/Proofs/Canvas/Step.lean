import MarkupSync.Proofs.Canvas.Resolve
import MarkupSync.Proofs.Diff.Step

/-!
# Steps of a document on the canvas

* `Display.updateAttributes_eq`: a change of attributes on the canvas;
* `Display.Performs`: an edit that is carried out below a node, and the canvas it leads to;
* `Display.exists_insert`, `exists_remove`, `exists_move`, `exists_replace`: changes of the children
  of a node;
* **`Display.exists_step`**: a step of a document is carried out by the canvas.
-/

namespace MarkupSync

theorem eraseIdx_insertIdx_succ {α : Type} {l : List α} {i : Nat} {a : α} (hi : i < l.length) :
    (l.insertIdx i a).eraseIdx (i + 1) = l.set i a := by
  induction l generalizing i with
  | nil => cases hi
  | cons b l ih =>
    cases i with
    | zero => rfl
    | succ i => exact congrArg (b :: ·) (ih (Nat.lt_of_succ_lt_succ hi))

namespace Canvas

variable {c : Canvas} {x y : NodeId} {data data' : LiveData}

theorem setData_setData : (c.setData x data).setData x data' = c.setData x data' := by
  simp only [setData, modify, List.modify_modify_eq]
  rfl

theorem setData_self (h : c.data? x = some data) : c.setData x data = c := by
  obtain ⟨p, cs, h⟩ := exists_get? h
  obtain ⟨hlt, h⟩ := List.getElem?_eq_some_iff.1 h
  refine congrArg Canvas.mk (List.ext_getElem (List.length_modify ..) fun i hi hi' => ?_)
  rw [List.getElem_modify]
  split_ifs with hxi
  · subst hxi
    rw [h]
  · rfl

end Canvas

namespace Display

open Canvas

variable {s : Display} {d : Decoration} {raw : Bool} {path : NodePath} {x y : NodeId}
  {tag : Text} {live : Attrs}

/-! ## Attributes -/

/-- The display with other attributes for an element. -/
def withElement (s : Display) (x : NodeId) (tag : Text) (live : Attrs) : Display :=
  { s with canvas := s.canvas.setData x (.element tag live) }

theorem data?_withElement (hx : s.canvas.data? x = some (.element tag live)) (other : Attrs) :
    (s.withElement x tag other).canvas.data? x = some (.element tag other) := by
  rw [withElement, data?_setData (lt_of_data? hx), if_pos rfl]

theorem withElement_withElement (one other : Attrs) :
    (s.withElement x tag one).withElement x tag other = s.withElement x tag other := by
  rw [withElement, withElement, setData_setData]
  rfl

theorem withElement_self (hx : s.canvas.data? x = some (.element tag live)) :
    s.withElement x tag live = s := by
  rw [withElement, setData_self hx]

theorem changedTo_removeAttribute (hx : s.canvas.data? x = some (.element tag live)) (name : Text) :
    s.changedTo (s.canvas.removeAttribute x name) =
      ⟨s.withElement x tag (live.erase name), none⟩ := by
  rw [removeAttribute, Canvas.updateAttributes_eq hx]
  rfl

theorem changedTo_setAttribute (hx : s.canvas.data? x = some (.element tag live))
    (name value : Text) : s.changedTo (s.canvas.setAttribute x name value) =
      ⟨s.withElement x tag (live.insert name value), none⟩ := by
  rw [setAttribute, Canvas.updateAttributes_eq hx]
  rfl

theorem setClasses_eq (hx : s.canvas.data? x = some (.element tag live)) (classes : List Text) :
    s.setClasses d x classes = ⟨s.withElement x tag (d.withClasses live classes), none⟩ := by
  simp only [setClasses, attributes_of_data? hx, Decoration.withClasses]
  rw [← Decoration.withEditorClasses]
  by_cases hall : (d.withEditorClasses classes ((live.find? className).getD [])).isEmpty = true
  · simp only [hall, if_true]
    exact changedTo_removeAttribute hx _
  · simp only [hall]
    exact changedTo_setAttribute hx _ _

theorem drop_eq (hx : s.canvas.data? x = some (.element tag live)) (name : Text) :
    drop d x s name = ⟨s.withElement x tag (d.dropped live name), none⟩ := by
  rw [drop, Decoration.dropped]
  split_ifs
  · exact setClasses_eq hx []
  · exact changedTo_removeAttribute hx name

theorem assign_eq (hx : s.canvas.data? x = some (.element tag live)) (e : Entry) :
    assign d x s e = ⟨s.withElement x tag (d.assigned live e), none⟩ := by
  rw [assign, Decoration.assigned]
  split_ifs
  · exact setClasses_eq hx _
  · exact changedTo_setAttribute hx _ _

/-- Steps that change the attributes of an element, one after another. -/
theorem run_eq {α : Type} {step : Display → α → Outcome Display PatchError} {f : Attrs → α → Attrs}
    (hstep : ∀ {s : Display} {live : Attrs}, s.canvas.data? x = some (.element tag live) →
      ∀ a, step s a = ⟨s.withElement x tag (f live a), none⟩)
    (hx : s.canvas.data? x = some (.element tag live)) (as : List α) :
    Outcome.run step s as = ⟨s.withElement x tag (as.foldl f live), none⟩ := by
  induction as generalizing s live with
  | nil => rw [Outcome.run, List.foldl_nil, withElement_self hx]
  | cons a as ih =>
    rw [Outcome.run, hstep hx, Outcome.andThen]
    simp only
    rw [ih (data?_withElement hx _), withElement_withElement]
    rfl

theorem setStyle_eq (hx : s.canvas.data? x = some (.element tag live)) (delta : Delta) :
    s.setStyle x delta = ⟨s.withElement x tag (Decoration.restyled live delta), none⟩ := by
  simp only [setStyle, attributes_of_data? hx, Decoration.restyled]
  generalize (live.find? styleName).getD [] = current
  by_cases hkeep : (delta.isEmpty || isExpression current) = true
  · simp only [hkeep, if_true, withElement_self hx]
  · simp only [hkeep]
    by_cases hnone : (delta.apply (Style.readDeclarations current)).isEmpty = true
    · simp only [hnone, if_true]
      exact changedTo_removeAttribute hx _
    · simp only [hnone]
      exact changedTo_setAttribute hx _ _

/-- A change of the attributes of an element on the canvas. -/
theorem updateAttributes_eq (hx : s.canvas.data? x = some (.element tag live))
    (attributes style : Delta) : s.updateAttributes d x attributes style =
      ⟨s.withElement x tag (d.updated live attributes style), none⟩ := by
  have hdropped := data?_withElement hx (attributes.removed.foldl d.dropped live)
  have hassigned := data?_withElement hx
    (attributes.assignments.foldl d.assigned (attributes.removed.foldl d.dropped live))
  simp only [updateAttributes, run_eq drop_eq hx, Outcome.andThen, run_eq assign_eq hdropped,
    withElement_withElement, setStyle_eq hassigned, Decoration.updated]

/-! ## Edits below a node -/

/-- The edit `e` is carried out at a node below `x`, and leads to the canvas `c'`. -/
structure Performs (d : Decoration) (s : Display) (e : Edit) (x : NodeId) (c' : Canvas) : Prop where
  apply : s.apply d e = ⟨{ s with canvas := c' }, none⟩
  forest : c'.IsForest
  changes : ∃ y, s.canvas.Below x y ∧ s.canvas.Shown d y ∧
    s.canvas.Changes c' d y (s.removed d e)

section Children

variable {cs : List Node} {n : Node} {i k : Nat}
  (hc : s.canvas.IsForest) (hx : s.resolve d path = .ok x) (h : s.canvas.Hosts d raw x cs)
include hc hx h

omit hc in
theorem target_eq (hk : k ≤ cs.length) :
    s.target d path k = .ok (x, (s.canvas.significant d x)[k]?) := by
  rw [← h.2.length_eq] at hk
  rw [target, hx]
  simp only [anchor, Nat.not_lt.2 hk, if_false]
  rfl

theorem exists_child (hi : i < cs.length) :
    ∃ y, (s.canvas.significant d x)[i]? = some y ∧ s.canvas.parent? y = some x ∧
      s.resolve d (path ++ [i]) = .ok y ∧ s.canvas.isSignificant d y = true ∧
      s.canvas.Stands d raw y cs[i] := by
  have hi' := hi
  rw [← h.2.length_eq] at hi'
  have hy : (s.canvas.significant d x)[i]? = some (s.canvas.significant d x)[i] :=
    List.getElem?_eq_getElem hi'
  have hmem := mem_significant.1 (List.getElem_mem hi')
  exact ⟨_, hy, hc.mem_children.1 hmem.1, resolve_child hx hy, hmem.2,
    (List.forall₂_iff_get.1 h.2).2 i hi' hi⟩

/-- A tree is put among the children of a node. -/
theorem exists_insert (hlt : x < s.canvas.nodes.length) (hk : k ≤ cs.length)
    (hn : d.IsShowable raw n) :
    ∃ c', Performs d s ((Edit.insert [] k n).under path) x c' ∧ c'.data? x = s.canvas.data? x ∧
      c'.Hosts d raw x (cs.insertIdx k n) := by
  obtain ⟨c', hplace, hforest, hgrows, hhosts, -⟩ := exists_place hc hlt h hn hk
  refine ⟨c', ⟨?_, hforest, x, .refl _ x, shown_of_resolve hx, hgrows.changes⟩, hgrows.data?,
    hhosts⟩
  rw [Edit.under, List.append_nil, apply, target_eq hx h hk]
  simp only [hplace, changed, Option.map_none]

/-- A child is removed. -/
theorem exists_remove (hi : i < cs.length) :
    ∃ c', Performs d s ((Edit.remove [i]).under path) x c' ∧ c'.data? x = s.canvas.data? x ∧
      c'.Hosts d raw x (cs.eraseIdx i) := by
  obtain ⟨y, hy, hparent, hresolve, hsig, -⟩ := exists_child hc hx h hi
  have hne : path ++ [i] ≠ [] := by simp
  have hremoved : s.removed d ((Edit.remove [i]).under path) = [y] := by
    rw [Edit.under, removed, hresolve]
    rfl
  refine ⟨s.canvas.unlink y, ⟨?_, hc.unlink y, x, .refl _ x, shown_of_resolve hx, ?_⟩,
    data?_unlink, h.unlink hc hy⟩
  · rw [Edit.under, apply, if_neg hne, hresolve]
    simp only [detach, known_of_lt (lt_of_parent? hparent)]
    rfl
  · rw [hremoved]
    exact changes_unlink hparent hsig

/-- A child is moved. -/
theorem exists_move {m : Node} (hm : cs[i]? = some m) (hk : k ≤ (cs.eraseIdx i).length) :
    ∃ c', Performs d s ((Edit.move [i] [] k).under path) x c' ∧ c'.data? x = s.canvas.data? x ∧
      c'.Hosts d raw x ((cs.eraseIdx i).insertIdx k m) := by
  obtain ⟨hi, rfl⟩ := List.getElem?_eq_some_iff.1 hm
  obtain ⟨y, hy, hparent, hresolve, hsig, hstands⟩ := exists_child hc hx h hi
  have hlt := lt_of_parent? hparent
  have hnot := hc.not_below_parent hparent
  -- the canvas without the child
  have hc₁ := hc.unlink y
  have h₁ := h.unlink hc hy
  have hparent₁ : (s.canvas.unlink y).parent? y = none := by rw [parent?_unlink, if_pos rfl]
  have hnot₁ : ¬ (s.canvas.unlink y).Below y x := fun hb =>
    hnot (hb.congr fun z _ _ hz => by rw [parent?_unlink, if_neg hz])
  have hx₁ : ({ s with canvas := s.canvas.unlink y } : Display).resolve d path = .ok x := by
    refine resolve_congr hc (fun _ => data?_unlink) (fun z hz => ?_) hx
    rw [children_unlink, hparent, if_neg fun h => hz (Option.some.inj h).symm]
  obtain ⟨place, hplace, hinsert⟩ := exists_insertBefore (d := d) hc₁ (p := x) (y := y) (j := k)
    (by simpa using hc.lt_of_parent hparent) (by simpa using hlt)
    ((isSignificant_congr data?_unlink).trans hsig) hnot₁ hparent₁ (by rwa [h₁.2.length_eq])
  refine ⟨(s.canvas.unlink y).link x y place, ⟨?_, ?_, x, .refl _ x, shown_of_resolve hx, ?_⟩, ?_, ?_⟩
  · have hdetach : s.changedTo (s.canvas.detach y) =
        ⟨{ s with canvas := s.canvas.unlink y }, none⟩ := by
      rw [detach, known_of_lt hlt]
      rfl
    rw [Edit.under, List.append_nil, apply, hresolve]
    simp only [hdetach, Outcome.andThen, target_eq hx₁ h₁ hk, hinsert, changed, Option.map_none]
  · exact hc₁.link (by simpa using hc.lt_of_parent hparent) (by simpa using hlt) hparent₁ hnot₁
      hplace.le
  · refine ⟨by simp, fun z _ _ => by simp, fun z _ hz => ?_, fun z _ _ => ?_, List.forall_mem_nil _⟩
    · rw [children_link (by simpa using hc.lt_of_parent hparent), if_neg hz, children_unlink,
        hparent, if_neg fun h => hz (Option.some.inj h).symm]
    · rw [parent?_link (by simpa using hlt), parent?_unlink]
      split_ifs with hzy
      · rw [hzy, hparent]
      · rfl
  · simp
  · exact h₁.link hc₁ (by simpa using hc.lt_of_parent hparent) (hstands.unlink hc hparent hnot)
      hnot₁ hplace

/-- A child is replaced. -/
theorem exists_replace (hi : i < cs.length) (hn : d.IsShowable raw n) :
    ∃ c', Performs d s ((Edit.replace [i] n).under path) x c' ∧ c'.data? x = s.canvas.data? x ∧
      c'.Hosts d raw x (cs.set i n) := by
  obtain ⟨y, hy, hparent, hresolve, hsig, -⟩ := exists_child hc hx h hi
  have hlt := lt_of_parent? hparent
  have hne : y ≠ x := hc.ne_parent hparent
  have hpath : path ++ [i] ≠ [] := by simp
  have hsplit : (path ++ [i]).split? = some (path, i) := by simp [NodePath.split?]
  obtain ⟨c₁, hplace, hc₁, hgrows, h₁, hsig₁⟩ := exists_place hc (hc.lt_of_parent hparent) h hn hi.le
  rw [hy] at hplace
  have hparent₁ : c₁.parent? y = some x := by rw [parent?_congr (hgrows.get? y hlt hne), hparent]
  have hy₁ : (c₁.significant d x)[i + 1]? = some y := by
    rw [hsig₁, List.getElem?_insertIdx_of_gt (Nat.lt_succ_self i)]
    exact hy
  have hremoved : s.removed d ((Edit.replace [i] n).under path) = [y] := by
    rw [Edit.under, removed, if_neg hpath, hresolve]
    rfl
  refine ⟨c₁.unlink y, ⟨?_, hc₁.unlink y, x, .refl _ x, shown_of_resolve hx, ?_⟩, ?_, ?_⟩
  · rw [Edit.under, apply, replace, hsplit]
    simp only [hresolve, hx, hplace, changed, Option.map_none, Outcome.andThen, changedTo, detach,
      known_of_lt (hlt.trans_le hgrows.le), Outcome.ofExcept]
  · rw [hremoved]
    have hchanges := hgrows.changes (d := d)
    refine ⟨by simpa using hgrows.le, fun z hz hzx => ?_, fun z hz hzx => ?_, fun z hz hzy => ?_, ?_⟩
    · rw [data?_unlink, hchanges.data? z hz hzx]
    · rw [children_unlink, hparent₁, if_neg fun h => hzx (Option.some.inj h).symm,
        hchanges.children z hz hzx]
    · rw [parent?_unlink, if_neg fun h => hzy (List.mem_singleton.2 h),
        hchanges.parent? z hz List.not_mem_nil]
    · exact (changes_unlink hparent hsig).gone
  · rw [data?_unlink, hgrows.data?]
  · have := h₁.unlink hc₁ hy₁
    rwa [eraseIdx_insertIdx_succ hi] at this

end Children

/-! ## Steps -/

/-- What is carried out below a child is carried out below its parent. -/
theorem Performs.parent {e : Edit} {c' : Canvas} (h : Performs d s e y c')
    (hy : s.canvas.parent? y = some x) : Performs d s e x c' := by
  obtain ⟨z, hyz, hz⟩ := h.changes
  exact ⟨h.apply, h.forest, z, ((Below.refl _ x).child hy).trans hyz, hz⟩

theorem performs_setData (hc : s.canvas.IsForest) (hx : s.resolve d path = .ok x)
    {data old : LiveData} {e : Edit} (hold : s.canvas.data? x = some old)
    (happly : s.apply d e = ⟨{ s with canvas := s.canvas.setData x data }, none⟩)
    (hremoved : s.removed d e = []) : Performs d s e x (s.canvas.setData x data) where
  apply := happly
  forest := hc.of_eq (fun _ => parent?_setData data) fun _ => children_setData data
  changes := by
    rw [hremoved]
    refine ⟨x, .refl _ x, shown_of_resolve hx, by simp, fun y _ hne => ?_, fun y _ _ => by simp,
      fun y _ _ => by simp, List.forall_mem_nil _⟩
    rw [data?_setData (lt_of_data? hold), if_neg hne]

theorem hosts_setData {c : Canvas} {data : LiveData} {cs : List Node} (hc : c.IsForest)
    (h : c.Hosts d raw x cs) (hlt : x < c.nodes.length) : (c.setData x data).Hosts d raw x cs := by
  refine h.congr hc (children_setData data) fun y hy z hz => ⟨?_, children_setData data⟩
  rw [data?_setData hlt, if_neg]
  rintro rfl
  exact hc.not_below_parent (hc.mem_children.1 hy) hz

/-- The replacement of a whole tree. -/
theorem eq_of_step_replace {P : Bool → Node → Prop} {n m k : Node}
    (h : Node.Step P raw n (.replace [] k) m) : m = k ∧ P raw k := by
  generalize he : Edit.replace [] k = e at h
  cases h with
  | replace h =>
    cases he
    exact ⟨rfl, h⟩
  | @inside _ _ _ _ _ _ _ _ e _ _ => cases e <;> cases he
  | _ => cases he

/-- A step in a child is carried out if the canvas carries out the steps of the child that do not
replace it. -/
theorem exists_inside {cs : List Node} {i : Nat} {k k' : Node} {e : Edit}
    (hc : s.canvas.IsForest) (hx : s.resolve d path = .ok x) (h : s.canvas.Hosts d raw x cs)
    (hi : cs[i]? = some k) (hstep : Node.Step d.IsShowable raw k e k')
    (hchild : (∀ n, e ≠ .replace [] n) → ∀ q y, s.resolve d q = .ok y →
      s.canvas.Stands d raw y k → ∃ c', Performs d s (e.under q) y c' ∧ c'.Stands d raw y k') :
    ∃ c', Performs d s ((e.under [i]).under path) x c' ∧ c'.data? x = s.canvas.data? x ∧
      c'.Hosts d raw x (cs.set i k') := by
  obtain ⟨hlt, rfl⟩ := List.getElem?_eq_some_iff.1 hi
  by_cases hrep : ∃ n, e = .replace [] n
  · obtain ⟨n, rfl⟩ := hrep
    obtain ⟨rfl, hn⟩ := eq_of_step_replace hstep
    exact exists_replace hc hx h hlt hn
  · obtain ⟨y, hy, hparent, hresolve, -, hstands⟩ := exists_child hc hx h hlt
    obtain ⟨c', hp, hs⟩ := hchild (fun n hn => hrep ⟨n, hn⟩) _ y hresolve hstands
    obtain ⟨z, hyz, -, hchanges⟩ := hp.changes
    have hxz : x ≠ z := by
      rintro rfl
      exact hc.not_below_parent hparent hyz
    rw [Edit.under_under]
    exact ⟨c', hp.parent hparent, hchanges.data? x (hc.lt_of_parent hparent) hxz,
      h.set hc hy hyz hchanges hs⟩

/-- **A step of a document is carried out by the canvas**, unless it replaces the whole document. -/
theorem exists_step {n m : Node} {e : Edit}
    (h : Node.Step d.IsShowable raw n e m) (he : ∀ k, e ≠ .replace [] k)
    (hc : s.canvas.IsForest) (hx : s.resolve d path = .ok x) (hn : s.canvas.Stands d raw x n) :
    ∃ c', Performs d s (e.under path) x c' ∧ c'.Stands d raw x m := by
  induction h generalizing path x with
  | replace => exact absurd rfl (he _)
  | @text raw a b hb =>
    obtain ⟨t, ht, -⟩ := stands_text.1 hn
    refine ⟨s.canvas.setData x (.text b), performs_setData hc hx ht ?_ rfl, stands_text.2 ⟨b, ?_, hb⟩⟩
    · rw [Edit.under, List.append_nil, apply, hx]
      simp only [setText_eq ht]
      rfl
    · rw [data?_setData (lt_of_data? ht), if_pos rfl]
  | @attributes raw tag as bs st rt cs ds hbs =>
    obtain ⟨⟨live, hlive, hreads⟩, hcs⟩ := stands_element.1 hn
    obtain ⟨-, hfree, hattrs, hdecl, -⟩ := hbs
    have hlt := lt_of_data? hlive
    refine ⟨s.canvas.setData x (.element tag (d.updated live (.between as bs) (.between st rt))),
      performs_setData hc hx hlive ?_ rfl,
      stands_element.2 ⟨⟨_, ?_, hreads.update hfree hattrs hdecl⟩, hosts_setData hc hcs hlt⟩⟩
    · rw [Edit.under, List.append_nil, apply, hx]
      simp only [isElement_of_data? hlive, if_true, updateAttributes_eq hlive]
      rfl
    · rw [data?_setData hlt, if_pos rfl]
  | insert hk hk' =>
    obtain ⟨htag, hcs⟩ := stands_element.1 hn
    obtain ⟨c', hp, hdata, hcs'⟩ := exists_insert hc hx hcs hn.lt_length hk hk'
    exact ⟨c', hp, stands_element.2 ⟨htag.congr hdata, hcs'⟩⟩
  | remove hk =>
    obtain ⟨htag, hcs⟩ := stands_element.1 hn
    obtain ⟨c', hp, hdata, hcs'⟩ := exists_remove hc hx hcs hk
    exact ⟨c', hp, stands_element.2 ⟨htag.congr hdata, hcs'⟩⟩
  | move hi hk =>
    obtain ⟨htag, hcs⟩ := stands_element.1 hn
    obtain ⟨c', hp, hdata, hcs'⟩ := exists_move hc hx hcs hi hk
    exact ⟨c', hp, stands_element.2 ⟨htag.congr hdata, hcs'⟩⟩
  | inside hi h ih =>
    obtain ⟨htag, hcs⟩ := stands_element.1 hn
    obtain ⟨c', hp, hdata, hcs'⟩ := exists_inside hc hx hcs hi h fun he _ _ hy hs => ih he hy hs
    exact ⟨c', hp, stands_element.2 ⟨htag.congr hdata, hcs'⟩⟩

end Display

end MarkupSync
