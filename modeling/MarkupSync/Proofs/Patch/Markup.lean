import MarkupSync.Patch.Markup
import MarkupSync.Proofs.Diff.Reach
import MarkupSync.Proofs.Tree.Everywhere
import MarkupSync.Proofs.Tree.Map

/-!
# Markup stands for documents

Edits of the syntax tree of markup do to the document it stands for what they do to documents.

* `Node.IsMarkup`: documents that markup can stand for. `Node.IsWritable`: those that it can be
  written for;
* `Markup.IsTidy`: markup in which no attribute stands twice and only fragments are roots;
* `Markup.ofNode_spec`: the markup of a document stands for the document;
* `Markup.Spells`: attributes that give names the values of a map;
* `Markup.isMap_toNode`: the document has the children of the markup;
* **`Markup.toNode_apply`**, `Markup.apply_toNode`: an edit of markup is an edit of the document;
* **`Markup.toNode_of_steps`**: the edits of a chain of steps lead the document to its end.
-/

namespace MarkupSync

/-! ## Documents that markup stands for -/

/-- Spread properties have no value, and the value of a `style` attribute, if there is any, is an
expression. -/
structure IsWritableEntry (e : Entry) : Prop where
  spread : Text.startsWith MarkupAttr.spreadSign e.1 = true → e.2 = []
  style : e.1 = styleName → e.2 = [] ∨ isExpression e.2 = true

/-- A tag is not empty, roots have neither attributes nor declarations, and the attributes can be
written. -/
def Node.IsWritableTag (tag : Text) (as st : Attrs) (_ : List Node) : Prop :=
  tag ≠ [] ∧ (tag = rootTag → as = .empty ∧ st = .empty) ∧ ∀ e ∈ as.entries, IsWritableEntry e

/-- All elements can be written. -/
def Node.IsWritable (n : Node) : Prop := n.Everywhere IsWritableTag

/-- The new nodes of an edit of the document `n` can be written, what it assigns becomes no style,
and roots keep their attributes. -/
def Edit.IsWritable (n : Node) : Edit → Prop
  | .insert _ _ node | .replace _ node => node.IsWritable
  | .updateAttributes path attributes style =>
    (∀ e ∈ attributes.assignments, e.1 = styleName → isExpression e.2 = true) ∧
      ∀ as st cs, Tree.descend n path = some (.element Node.rootTag as st cs) →
        attributes.isEmpty = true ∧ style.isEmpty = true
  | .remove _ | .updateText .. | .move .. => True

/-- A tag is not empty, roots have neither attributes nor declarations, and spread properties have
no value. -/
def Node.IsMarkupTag (tag : Text) (as st : Attrs) (_ : List Node) : Prop :=
  tag ≠ [] ∧ (tag = rootTag → as = .empty ∧ st = .empty) ∧
    ∀ e ∈ as.entries, Text.startsWith MarkupAttr.spreadSign e.1 = true → e.2 = []

/-- Markup stands for all elements, whatever their `style` attributes say. -/
def Node.IsMarkup (n : Node) : Prop := n.Everywhere IsMarkupTag

theorem Node.IsWritable.isMarkup {n : Node} (h : n.IsWritable) : n.IsMarkup :=
  Everywhere.mono (fun h => ⟨h.1, h.2.1, fun e he => (h.2.2 e he).spread⟩) h

/-- Markup stands for the new nodes of an edit of the document `n`, what the edit assigns becomes no
style, and roots keep their attributes. -/
def Edit.IsMarkup (n : Node) : Edit → Prop
  | .insert _ _ node | .replace _ node => node.IsMarkup
  | .updateAttributes path attributes style =>
    (∀ e ∈ attributes.assignments, e.1 = styleName → isExpression e.2 = true) ∧
      ∀ as st cs, Tree.descend n path = some (.element Node.rootTag as st cs) →
        attributes.isEmpty = true ∧ style.isEmpty = true
  | .remove _ | .updateText .. | .move .. => True

theorem Edit.IsWritable.isMarkup {n : Node} {e : Edit} (h : e.IsWritable n) : e.IsMarkup n := by
  cases e with
  | insert | replace => exact Node.IsWritable.isMarkup h
  | updateAttributes => exact h
  | remove | updateText | move => trivial

namespace Markup

mutual

/-- No attribute stands twice, and no name is that of the root. -/
def IsTidy : Markup → Prop
  | .text _ | .expression _ => True
  | .element name as _ children =>
    name ≠ Node.rootTag ∧ (names (as.map MarkupAttr.entry)).Nodup ∧ AreTidy children

/-- All markup of a list is tidy. -/
def AreTidy : List Markup → Prop
  | [] => True
  | m :: ms => m.IsTidy ∧ AreTidy ms

end

theorem areTidy_iff {ms : List Markup} : AreTidy ms ↔ ∀ m ∈ ms, m.IsTidy := by
  induction ms with
  | nil => simp [AreTidy]
  | cons m ms ih => simp [AreTidy, ih]

theorem toNodes_eq_map (ms : List Markup) : toNodes ms = ms.map toNode := by
  induction ms with
  | nil => rfl
  | cons m ms ih => rw [toNodes, ih, List.map_cons]

/-- The document has the children of the markup. -/
theorem isMap_toNode : Tree.IsMap toNode where
  children? m := by
    cases m with
    | text => rfl
    | expression => rfl
    | element name as st cs =>
      rw [toNode]
      split <;> exact congrArg some (toNodes_eq_map cs)
  withChildren ms m := by
    cases m with
    | text => rfl
    | expression => rfl
    | element name as st cs =>
      simp only [Tree.withChildren, toNode, toNodes_eq_map]
      split <;> rfl

@[simp] theorem toNode_ofText (content : Text) : (ofText content).toNode = .text content := by
  rw [ofText]
  split <;> rfl

theorem isTidy_ofText (content : Text) : (ofText content).IsTidy := by
  rw [ofText]
  split <;> trivial

theorem entry_ofEntry {e : Entry}
    (h : Text.startsWith MarkupAttr.spreadSign e.1 = true → e.2 = []) :
    (MarkupAttr.ofEntry e).entry = e := by
  rw [MarkupAttr.ofEntry]
  split
  next hs => exact Prod.ext rfl (h hs).symm
  next => rfl

mutual

/-- The markup of a document stands for the document. -/
theorem ofNode_spec {n : Node} (h : n.IsMarkup) : (ofNode n).toNode = n ∧ (ofNode n).IsTidy := by
  cases n with
  | text content => exact ⟨toNode_ofText content, isTidy_ofText content⟩
  | element tag as st cs =>
    obtain ⟨⟨hne, hroot, hentries⟩, hcs⟩ := h
    obtain ⟨hnodes, htidy⟩ := ofNodes_spec hcs
    rw [ofNode]
    split
    next htag =>
      obtain ⟨rfl, rfl⟩ := hroot htag
      subst htag
      refine ⟨?_, by decide, List.nodup_nil, htidy⟩
      rw [toNode, if_pos rfl, hnodes, Node.root]
    next htag =>
      have hmap : (as.entries.map MarkupAttr.ofEntry).map MarkupAttr.entry = as.entries := by
        rw [List.map_map]
        exact (List.map_congr_left fun e he => entry_ofEntry (hentries e he)).trans
          (List.map_id _)
      refine ⟨?_, htag, ?_, htidy⟩
      · rw [toNode, if_neg hne, hmap, hnodes]
        congr 1
        exact Attrs.ext (Attrs.entries_ofList as.nodup)
      · rw [hmap]
        exact as.nodup

theorem ofNodes_spec {ns : List Node} (h : Node.AllEverywhere Node.IsMarkupTag ns) :
    toNodes (ofNodes ns) = ns ∧ AreTidy (ofNodes ns) := by
  cases ns with
  | nil => exact ⟨rfl, trivial⟩
  | cons n ns =>
    obtain ⟨hn, ht⟩ := ofNode_spec h.1
    obtain ⟨hns, hts⟩ := ofNodes_spec h.2
    exact ⟨by rw [ofNodes, toNodes, hn, hns], ht, hts⟩

end

theorem ofRoot_eq {n : Node} (hn : n.isText = false) : ofRoot n = ofNode n := by
  cases n with
  | text => cases hn
  | element => rfl

theorem ofRoot_spec {n : Node} (h : n.IsMarkup) (hn : n.isText = false) :
    (ofRoot n).toNode = n ∧ (ofRoot n).IsTidy := by
  rw [ofRoot_eq hn]
  exact ofNode_spec h

/-! ## Attributes -/

/-- Attributes that give names the values of a map, in the same order, and spread nothing. -/
def Spells (as : List MarkupAttr) (m : Attrs) : Prop :=
  as.map MarkupAttr.entry = m.entries ∧ as.any MarkupAttr.isSpread = false

theorem spells_ofList {as : List MarkupAttr} (hd : (names (as.map MarkupAttr.entry)).Nodup)
    (h : as.any MarkupAttr.isSpread = false) : Spells as (.ofList (as.map MarkupAttr.entry)) :=
  ⟨(Attrs.entries_ofList hd).symm, h⟩

theorem Spells.eq_ofList {as : List MarkupAttr} {m : Attrs} (h : Spells as m) :
    m = .ofList (as.map MarkupAttr.entry) := by
  refine Attrs.ext ?_
  rw [h.1]
  exact (Attrs.entries_ofList m.nodup).symm

theorem isNamed_of_not_isSpread {a : MarkupAttr} (h : a.isSpread = false) (name : Text) :
    a.isNamed name = (a.entry.1 == name) := by
  cases a with
  | named => rfl
  | spread => cases h

theorem Spells.set {as : List MarkupAttr} {m : Attrs} (h : Spells as m) (name value : Text) :
    Spells (MarkupAttr.set name value as) (m.insert name value) := by
  obtain ⟨es, hd⟩ := m
  obtain ⟨rfl, hspread⟩ := h
  have hset : (MarkupAttr.set name value as).map MarkupAttr.entry =
        Entries.insert name value (as.map MarkupAttr.entry) ∧
      (MarkupAttr.set name value as).any MarkupAttr.isSpread = false := by
    clear hd
    induction as with
    | nil => exact ⟨rfl, rfl⟩
    | cons a as ih =>
      rw [List.any_cons, Bool.or_eq_false_iff] at hspread
      obtain ⟨hmap, hany⟩ := ih hspread.2
      rw [MarkupAttr.set, isNamed_of_not_isSpread hspread.1, List.map_cons, Entries.insert]
      by_cases hname : a.entry.1 = name
      · rw [if_pos (beq_iff_eq.2 hname), if_pos hname]
        exact ⟨rfl, hspread.2⟩
      · rw [if_neg (mt beq_iff_eq.1 hname), if_neg hname, List.map_cons, hmap, List.any_cons,
          hspread.1, hany]
        exact ⟨rfl, rfl⟩
  exact hset

theorem Spells.erase {as : List MarkupAttr} {m : Attrs} (h : Spells as m) (name : Text) :
    Spells (MarkupAttr.erase name as) (m.erase name) := by
  obtain ⟨es, hd⟩ := m
  obtain ⟨rfl, hspread⟩ := h
  have hnamed : ∀ a ∈ as, (!a.isNamed name) = (a.entry.1 != name) := fun a ha => by
    rw [isNamed_of_not_isSpread (by simpa using List.any_eq_false.1 hspread a ha)]
    rfl
  refine ⟨?_, ?_⟩
  · rw [MarkupAttr.erase, List.filter_congr hnamed]
    exact (List.filter_map (p := fun e : Entry => e.1 != name) (f := MarkupAttr.entry)).symm
  · rw [List.any_eq_false] at hspread ⊢
    exact fun a ha => hspread a (List.mem_filter.1 ha).1

theorem Spells.eraseAll {as : List MarkupAttr} {m : Attrs} (h : Spells as m) (ns : List Text) :
    Spells (ns.foldl (fun as name => MarkupAttr.erase name as) as) (ns.foldl Attrs.erase m) := by
  induction ns generalizing as m with
  | nil => exact h
  | cons n ns ih => exact ih (h.erase n)

/-- Assigned values are those of the map, as long as no text becomes a style. -/
theorem Spells.assignAll {as : List MarkupAttr} {m : Attrs} (h : Spells as m) (st : Attrs)
    {es : List Entry} (hes : ∀ e ∈ es, e.1 = styleName → isExpression e.2 = true) :
    (es.foldl assign (as, st)).2 = st ∧
      Spells (es.foldl assign (as, st)).1 (es.foldl (fun m e => m.insert e.1 e.2) m) := by
  induction es generalizing as m with
  | nil => exact ⟨rfl, h⟩
  | cons e es ih =>
    have hassign : assign (as, st) e = (MarkupAttr.set e.1 e.2 as, st) := by
      rw [assign, if_neg]
      rintro ⟨hstyle, htext⟩
      rw [hes e List.mem_cons_self hstyle] at htext
      cases htext
    rw [List.foldl_cons, hassign]
    exact ih (h.set e.1 e.2) fun e he => hes e (List.mem_cons_of_mem _ he)

/-- An update of attributes is that of the document. -/
theorem withDeltas_toNode {path : NodePath} {a s : Delta} {old new : Markup} (hold : old.IsTidy)
    (h : withDeltas path a s old = .ok new)
    (ha : ∀ e ∈ a.assignments, e.1 = styleName → isExpression e.2 = true)
    (hroot : ∀ as st cs, old.toNode = .element Node.rootTag as st cs →
      a.isEmpty = true ∧ s.isEmpty = true) :
    Node.withDeltas a s old.toNode = .ok new.toNode ∧ new.IsTidy := by
  cases old with
  | text => cases h
  | expression => cases h
  | element name as st cs =>
    obtain ⟨hname, hd, hcs⟩ := hold
    simp only [withDeltas] at h
    split at h
    · cases h
    next hspread =>
      cases h
      obtain ⟨hst, hspells⟩ := ((spells_ofList hd (by simpa using hspread)).eraseAll
        a.removed).assignAll st ha
      refine ⟨?_, hname, ?_, hcs⟩
      · rw [hst, toNode, toNode]
        by_cases hn : name = []
        · subst hn
          obtain ⟨haempty, hsempty⟩ := hroot _ _ _ (by rw [toNode, if_pos rfl, Node.root])
          rw [if_pos rfl, if_pos rfl, Node.root, Node.withDeltas, Delta.apply_of_isEmpty haempty,
            Delta.apply_of_isEmpty hsempty]
        · rw [if_neg hn, if_neg hn, ← hspells.eq_ofList]
          rfl
      · rw [hspells.1]
        exact Attrs.nodup _

/-! ## Edits -/

/-- Tidiness passes to the children and is kept when they are exchanged. -/
theorem hereditary_isTidy : Tree.Hereditary IsTidy where
  children {m} hm c hc := by
    cases m with
    | text => cases hc
    | expression => cases hc
    | element name as st cs => exact areTidy_iff.1 hm.2.2 c hc
  withChildren {m} ms hm hms := by
    cases m with
    | text => trivial
    | expression => trivial
    | element name as st cs => exact ⟨hm.1, hm.2.1, areTidy_iff.2 hms⟩

theorem eq_of_result_patched {o : Outcome Markup EditError} {m : Markup}
    (h : (patched o).result = .ok m) : o = ⟨m, none⟩ := by
  obtain ⟨state, error⟩ := o
  cases error <;> cases h
  rfl

theorem eq_ok_of_ofExcept {α ε : Type} {s t : α} {r : Except ε α}
    (h : Outcome.ofExcept s r = ⟨t, none⟩) : r = .ok t := by
  cases r <;> cases h
  rfl

theorem toOption_updateElement (m : Markup) (path : NodePath)
    (f : Markup → Except PatchError Markup) :
    (updateElement m path f).toOption = (Tree.descend m path).bind fun old =>
      (f old).toOption.map fun new => Tree.modifyAt (fun _ => new) path m := by
  rw [updateElement]
  cases Tree.descend m path with
  | none => rfl
  | some old =>
    rw [Option.bind_some]
    cases h : f old <;> simp only [h] <;> rfl

/-- A node exchanged in the list of children that it is in; the root is in none. -/
theorem toOption_replaceIn (m : Markup) (path : NodePath) (f : Markup → Except PatchError Markup) :
    (replaceIn m path f).toOption = if path = [] then none else
      (Tree.descend m path).bind fun old =>
        (f old).toOption.map fun new => Tree.modifyAt (fun _ => new) path m := by
  rw [replaceIn]
  split_ifs with hpath
  · subst hpath
    rfl
  · cases hd : Tree.descend m path with
    | none =>
      split
      next => rfl
      next s hs =>
        obtain ⟨-, hnode⟩ := Tree.modifyAt_slot hs m
        rw [hd] at hnode
        cases hnode
    | some old =>
      obtain ⟨s, hs⟩ := Tree.exists_slot hpath hd
      obtain ⟨-, hnode⟩ := Tree.modifyAt_slot hs m
      obtain rfl : old = s.node := Option.some.inj (hd.symm.trans hnode)
      rw [hs, Option.bind_some]
      cases h : f s.node with
      | error e => simp only [h]; rfl
      | ok new => simp only [h, (Tree.modifyAt_slot hs new).1]; rfl

theorem exists_of_bind {m m' : Markup} {path : NodePath} {f : Markup → Except PatchError Markup}
    (h : ((Tree.descend m path).bind fun old =>
      (f old).toOption.map fun new => Tree.modifyAt (fun _ => new) path m) = some m') :
    ∃ old new, Tree.descend m path = some old ∧ f old = .ok new ∧
      m' = Tree.modifyAt (fun _ => new) path m := by
  obtain ⟨old, hold, h⟩ := Option.bind_eq_some_iff.1 h
  obtain ⟨new, hnew, rfl⟩ := Option.map_eq_some_iff.1 h
  exact ⟨old, new, hold, eq_ok_of_toOption hnew, rfl⟩

theorem exists_of_updateElement {m m' : Markup} {path : NodePath}
    {f : Markup → Except PatchError Markup} (h : updateElement m path f = .ok m') :
    ∃ old new, Tree.descend m path = some old ∧ f old = .ok new ∧
      m' = Tree.modifyAt (fun _ => new) path m := by
  refine exists_of_bind ?_
  rw [← toOption_updateElement, h]
  rfl

theorem exists_of_replaceIn {m m' : Markup} {path : NodePath}
    {f : Markup → Except PatchError Markup} (h : replaceIn m path f = .ok m') :
    ∃ old new, Tree.descend m path = some old ∧ f old = .ok new ∧
      m' = Tree.modifyAt (fun _ => new) path m := by
  have hsome := toOption_replaceIn m path f
  rw [h] at hsome
  split at hsome
  · cases hsome
  · exact exists_of_bind hsome.symm

/-- A change of a node of markup is a change of the node of the document. -/
theorem toOption_updateAt_toNode {m : Markup} {path : NodePath}
    {f : Markup → Except PatchError Markup} {g : Node → Except EditFault Node}
    (hg : ∀ old, Tree.descend m path = some old →
      (g old.toNode).toOption = (f old).toOption.map toNode) :
    (Tree.updateAt m.toNode path g).toOption = ((Tree.descend m path).bind fun old =>
      (f old).toOption.map fun new => Tree.modifyAt (fun _ => new) path m).map toNode := by
  rw [Tree.toOption_updateAt, isMap_toNode.descend]
  cases hd : Tree.descend m path with
  | none => rfl
  | some old =>
    rw [Option.map_some, Option.bind_some, Option.bind_some, hg old hd, Option.map_map,
      Option.map_map]
    congr 1
    funext new
    exact (isMap_toNode.modifyAt (fun _ => rfl) path m).symm

/-- Whether an element spreads properties. -/
def spreads : Markup → Bool
  | .element _ as _ _ => as.any MarkupAttr.isSpread
  | .text _ | .expression _ => false

theorem withDeltas_of_spreads {path : NodePath} {a s : Delta} {old : Markup}
    (h : old.spreads = true) :
    withDeltas path a s old = .error (.unsupported path .spreadUpdate) := by
  cases old with
  | element name as st cs =>
    rw [spreads] at h
    rw [withDeltas, if_pos h]
  | text | expression => cases h

/-- An update of attributes next to no spread properties is that of the document. -/
theorem toOption_withDeltas {path : NodePath} {a s : Delta} {old : Markup} (hold : old.IsTidy)
    (hspread : old.spreads = false)
    (ha : ∀ e ∈ a.assignments, e.1 = styleName → isExpression e.2 = true)
    (hroot : ∀ as st cs, old.toNode = .element Node.rootTag as st cs →
      a.isEmpty = true ∧ s.isEmpty = true) :
    (Node.withDeltas a s old.toNode).toOption = (withDeltas path a s old).toOption.map toNode := by
  cases hnew : withDeltas path a s old with
  | ok new =>
    rw [(withDeltas_toNode hold hnew ha hroot).1]
    rfl
  | error f =>
    cases old with
    | text | expression => rfl
    | element name as st cs =>
      rw [spreads] at hspread
      rw [withDeltas, hspread] at hnew
      cases hnew

theorem toOption_patched (o : Outcome Markup EditError) :
    (patched o).result.toOption = o.result.toOption := by
  obtain ⟨state, error⟩ := o
  cases error <;> rfl

theorem toOption_map {ε α β : Type} (x : Except ε α) (f : α → β) :
    (x.map f).toOption = x.toOption.map f := by
  cases x <;> rfl

/-- **An edit of markup is an edit of the document it stands for**, unless it changes attributes
next to spread properties, or the text that is the whole markup. -/
theorem toNode_apply {m : Markup} (hm : m.IsTidy) {e : Edit} (he : e.IsMarkup m.toNode)
    (hroot : ∀ n, e = .replace [] n → n.isText = false)
    (htext : ∀ content, e = .updateText [] content → m.toNode.isText = false)
    (hspread : ∀ path a s old, e = .updateAttributes path a s → Tree.descend m path = some old →
      old.spreads = false) :
    (m.toNode.apply e).result.toOption = (m.apply e).result.toOption.map toNode := by
  cases e with
  | insert p k n =>
    have := isMap_toNode.insertAt m p k (ofNode n)
    rw [(ofNode_spec he).1] at this
    rw [Node.apply, apply, toOption_patched, Outcome.result_ofExcept, Outcome.result_ofExcept, this,
      toOption_map]
  | remove p =>
    rw [Node.apply, apply, toOption_patched, Outcome.result_ofExcept, Outcome.result_ofExcept,
      isMap_toNode.detach]
    cases Tree.detach m p <;> rfl
  | replace p n =>
    rw [Node.apply, apply, Outcome.result_ofExcept]
    split
    next hp =>
      subst hp
      exact congrArg some (ofRoot_spec he (hroot n rfl)).1.symm
    next hp =>
      rw [Outcome.result_ofExcept, toOption_replaceIn, if_neg hp]
      exact toOption_updateAt_toNode fun _ _ => congrArg some (ofNode_spec he).1.symm
  | updateAttributes p a s =>
    rw [Node.apply, apply, Outcome.result_ofExcept, Outcome.result_ofExcept, toOption_updateElement]
    refine toOption_updateAt_toNode fun old hold => ?_
    exact toOption_withDeltas (hereditary_isTidy.descend hm hold) (hspread p a s old rfl hold) he.1
      fun as st cs hn => he.2 as st cs (by rw [isMap_toNode.descend, hold, Option.map_some, hn])
  | updateText p content =>
    rw [Node.apply, apply, Outcome.result_ofExcept, Outcome.result_ofExcept, toOption_replaceIn]
    split
    next hp =>
      subst hp
      have := htext content rfl
      cases m with
      | element name as st cs =>
        rw [toNode]
        split <;> rfl
      | text | expression => cases this
    next hp =>
      refine toOption_updateAt_toNode fun old _ => ?_
      cases old with
      | text | expression => exact congrArg some (toNode_ofText content).symm
      | element name as st cs =>
        rw [toNode]
        split <;> rfl
  | move p q k =>
    rw [Node.apply, apply, toOption_patched, isMap_toNode.move, Outcome.result, Outcome.result]
    cases (Tree.move m p q k).error <;> rfl

/-- An edit keeps a property that passes to the children, that the markup of documents and of texts
has and that an update of attributes keeps. -/
theorem hereditary_apply {P : Markup → Prop} (hP : Tree.Hereditary P)
    (hnode : ∀ n : Node, n.IsMarkup → P (ofNode n)) (htext : ∀ content, P (ofText content))
    (hdeltas : ∀ path a s old new, P old → withDeltas path a s old = .ok new →
      (∀ e ∈ a.assignments, e.1 = styleName → isExpression e.2 = true) →
      (∀ as st cs, old.toNode = .element Node.rootTag as st cs →
        a.isEmpty = true ∧ s.isEmpty = true) → P new)
    {m m' : Markup} (hm : P m) {e : Edit} (he : e.IsMarkup m.toNode)
    (hroot : ∀ n, e = .replace [] n → n.isText = false) (h : (m.apply e).result = .ok m') :
    P m' := by
  have happly := Outcome.eq_of_result h
  cases e with
  | insert p k n =>
    exact hP.insertAt hm (hnode n he) (eq_ok_of_ofExcept (eq_of_result_patched h))
  | remove p =>
    have hremove : (Tree.detach m p).map Prod.snd = .ok m' :=
      eq_ok_of_ofExcept (eq_of_result_patched h)
    obtain ⟨⟨n, rest⟩, hd, rfl⟩ := exists_of_map_eq_ok hremove
    exact (hP.detach hm hd).2
  | replace p n =>
    rw [apply] at happly
    split at happly
    next hp =>
      subst hp
      cases happly
      rw [ofRoot_eq (hroot n rfl)]
      exact hnode n he
    next =>
      obtain ⟨old, new, -, hnew, rfl⟩ := exists_of_replaceIn (eq_ok_of_ofExcept happly)
      cases hnew
      exact hP.modifyAt (fun _ _ => hnode n he) hm p
  | updateAttributes p a s =>
    obtain ⟨old, new, hold, hnew, rfl⟩ := exists_of_updateElement (eq_ok_of_ofExcept happly)
    have := hdeltas p a s old new (hP.descend hm hold) hnew he.1 fun as st cs hn =>
      he.2 as st cs (by rw [isMap_toNode.descend, hold, Option.map_some, hn])
    exact hP.modifyAt (fun _ _ => this) hm p
  | updateText p content =>
    obtain ⟨old, new, -, hnew, rfl⟩ := exists_of_replaceIn (eq_ok_of_ofExcept happly)
    refine hP.modifyAt (fun _ _ => ?_) hm p
    cases old with
    | element => cases hnew
    | text | expression =>
      cases hnew
      exact htext content
  | move p q k => exact hP.move hm (eq_of_result_patched h)

/-- An edit keeps markup tidy. -/
theorem isTidy_apply {m m' : Markup} (hm : m.IsTidy) {e : Edit} (he : e.IsMarkup m.toNode)
    (hroot : ∀ n, e = .replace [] n → n.isText = false) (h : (m.apply e).result = .ok m') :
    m'.IsTidy :=
  hereditary_apply hereditary_isTidy (fun _ hn => (ofNode_spec hn).2) isTidy_ofText
    (fun _ _ _ _ _ hold hnew ha hr => (withDeltas_toNode hold hnew ha hr).2) hm he hroot h

/-- An edit that markup takes is one of the document it stands for. -/
theorem apply_toNode {m m' : Markup} (hm : m.IsTidy) {e : Edit} (he : e.IsMarkup m.toNode)
    (hroot : ∀ n, e = .replace [] n → n.isText = false) (h : (m.apply e).result = .ok m') :
    m.toNode.apply e = ⟨m'.toNode, none⟩ ∧ m'.IsTidy := by
  have happly := Outcome.eq_of_result h
  refine ⟨?_, isTidy_apply hm he hroot h⟩
  have hrun := toNode_apply hm he hroot (fun content hc => ?_) fun path a s old hu hold => ?_
  · rw [h] at hrun
    exact Outcome.eq_of_result (eq_ok_of_toOption hrun)
  · subst hc
    cases happly
  · subst hu
    obtain ⟨old', new, hold', hnew, -⟩ := exists_of_updateElement (eq_ok_of_ofExcept happly)
    cases hold.symm.trans hold'
    cases hspread : old.spreads with
    | false => rfl
    | true =>
      rw [withDeltas_of_spreads hspread] at hnew
      cases hnew

/-! ## Chains of edits -/

/-- In the document that tidy markup stands for, roots have neither attributes nor declarations. -/
theorem eq_empty_of_descend {m : Markup} (hm : m.IsTidy) {p : NodePath} {as st : Attrs}
    {cs : List Node} (h : Tree.descend m.toNode p = some (.element Node.rootTag as st cs)) :
    as = .empty ∧ st = .empty := by
  rw [isMap_toNode.descend] at h
  obtain ⟨x, hx, hnode⟩ := Option.map_eq_some_iff.1 h
  have htidy := hereditary_isTidy.descend hm hx
  cases x with
  | text => cases hnode
  | expression => cases hnode
  | element name as st cs =>
    rw [toNode] at hnode
    split at hnode
    · cases hnode
      exact ⟨rfl, rfl⟩
    · injection hnode with hname
      exact absurd hname htidy.1

end Markup

/-- The document can be written, and no `style` attribute is without a value. -/
def Node.IsStyled (n : Node) : Prop :=
  n.IsWritable ∧ n.Everywhere fun _ as _ _ => (styleName, []) ∉ as.entries

theorem Node.IsStyled.inherited : Inherited fun _ n => n.IsStyled := by
  rintro raw tag as st cs ⟨⟨-, hw⟩, -, hs⟩ c hc
  exact ⟨allEverywhere_iff.1 hw c hc, allEverywhere_iff.1 hs c hc⟩

/-- An edit of a step to such documents can be written. -/
theorem Edit.isWritable_of_step {raw : Bool} {n n' : Node} {e : Edit}
    (h : Node.Step (fun _ n => n.IsStyled) raw n e n')
    (hroot : ∀ p as st cs, Tree.descend n p = some (.element Node.rootTag as st cs) →
      as = .empty ∧ st = .empty) : e.IsWritable n := by
  induction h with
  | text | remove | move => trivial
  | replace h | insert hk h => exact h.1
  | @attributes raw tag as bs st rt cs ds h =>
    obtain ⟨⟨⟨-, hrootTag, hentries⟩, -⟩, hstyle, -⟩ := h
    refine ⟨fun e he hname => ?_, fun as' st' cs' hd => ?_⟩
    · have hmem := Delta.mem_of_mem_assignments_between _ _ he
      obtain hempty | hexpr := (hentries e hmem).style hname
      · exact absurd (show (styleName, []) ∈ bs.entries by rwa [← hname, ← hempty]) hstyle
      · exact hexpr
    · cases hd
      obtain ⟨rfl, rfl⟩ := hroot [] as st cs rfl
      obtain ⟨rfl, rfl⟩ := hrootTag rfl
      exact ⟨rfl, rfl⟩
  | @inside raw tag as st cs i c c' e hc hstep ih =>
    have hdescend (p : NodePath) : Tree.descend (Node.element tag as st cs) (i :: p) =
        Tree.descend c p := Tree.descend_child hc
    have hchild := ih fun p as st cs hp => hroot (i :: p) as st cs (by rwa [hdescend])
    cases e with
    | insert | replace => exact hchild
    | updateAttributes p a s =>
      exact ⟨hchild.1, fun as st cs hd => hchild.2 as st cs (by rwa [← hdescend])⟩
    | remove | updateText | move => trivial

namespace Markup

/-- **Markup whose edits are a chain of steps stands for the end of the chain.** -/
theorem toNode_of_steps {raw : Bool} {n n' : Node} {es : List Edit}
    (h : Node.Steps (fun _ n => n.IsStyled) raw n es n') {m m' : Markup} (hm : m.IsTidy)
    (hn : m.toNode = n) (hroot : ∀ k, .replace [] k ∈ es → k.isText = false)
    (hrun : (Outcome.run apply m es).result = .ok m') : m'.toNode = n' := by
  induction h generalizing m with
  | nil =>
    cases hrun
    exact hn
  | @cons n k n' e es hstep hsteps ih =>
    subst hn
    have he := Edit.isWritable_of_step hstep fun p as st cs => eq_empty_of_descend hm
    rw [Outcome.run, Outcome.andThen] at hrun
    split at hrun
    next herror =>
      have hresult : (m.apply e).result = .ok (m.apply e).state := by
        rw [Outcome.result, herror]
      obtain ⟨happly, htidy⟩ := apply_toNode hm he.isMarkup
        (fun k hk => hroot k (hk ▸ List.mem_cons_self)) hresult
      have hk : (m.apply e).state.toNode = k := by
        rw [Node.apply_of_step hstep] at happly
        exact (congrArg Outcome.state happly).symm
      exact ih htidy hk (fun k hk => hroot k (List.mem_cons_of_mem _ hk)) hrun
    next f herror =>
      rw [Outcome.result, herror] at hrun
      cases hrun

end Markup

end MarkupSync
