import Mathlib.Data.List.Nodup
import MarkupSync.Json.Edit
import MarkupSync.Proofs.Diff.Delta
import MarkupSync.Proofs.Json.Render
import MarkupSync.Proofs.Tree.Everywhere

/-!
# Documents and edits are read back from JSON

What is empty is left out of an object, and what is not there is read as empty.

* `Json.Fields`: the fields of an object;
* `Json.Fields.record?_toJson`, `Json.Fields.variant?_tagged`: they are found again;
* `Node.ofLevels?_toJson`: a tree is read back from its value, however deep;
* `Delta.ofJson?_toJson`, `Edit.ofFields?_toJson`: an edit is read back from its value;
* `Json.ofText?_toJson`: a text of JSON is read if it is not nested too deep.
-/

namespace MarkupSync

namespace Json

/-! ## Values of fields -/

section Fields

variable {α β γ : Type}

theorem mapM_map_of_forall {as : List α} {f : α → β} {g : β → Option γ} {h : α → γ}
    (hg : ∀ a ∈ as, g (f a) = some (h a)) : (as.map f).mapM g = some (as.map h) := by
  induction as with
  | nil => rfl
  | cons a as ih =>
    have hrest := ih fun b hb => hg b (List.mem_cons_of_mem a hb)
    rw [List.map_cons, List.mapM_cons, hg a List.mem_cons_self, hrest]
    rfl

theorem text?_ofText (s : Text) : text? (ofText s) = some s := unquote?_quote s

theorem attrs?_ofAttrs (m : Attrs) : attrs? (ofAttrs m) = some m := by
  have hentries : entries? (ofAttrs m) = some (m.entries.map fun e => (e.1, ofText e.2)) :=
    mapM_map_of_forall fun e _ => by rw [unquote?_quote]; rfl
  have hvalues : (m.entries.map fun e => (e.1, ofText e.2)).mapM
      (fun e => (text? e.2).map fun value => (e.1, value)) = some (m.entries.map id) :=
    mapM_map_of_forall fun e _ => by rw [text?_ofText]; rfl
  rw [attrs?, hentries]
  simp only [hvalues, List.map_id, Option.map_some]
  exact congrArg some (Attrs.ext (Attrs.entries_ofList m.nodup))

end Fields

/-! ## Fields -/

/-- A value that is left out if it is empty. -/
def unlessEmpty (isEmpty : Bool) (j : Json) : Option Json := if isEmpty then none else some j

/-- The entries of fields; what has no value is left out. -/
def written (fs : List (String × Option Json)) : List (Text × Json) :=
  fs.filterMap fun f => f.2.map (entry f.1)

theorem written_nil : written [] = [] := rfl

theorem written_cons_some (name : String) (j : Json) (fs : List (String × Option Json)) :
    written ((name, some j) :: fs) = entry name j :: written fs := rfl

theorem written_cons_unlessEmpty (name : String) (isEmpty : Bool) (j : Json)
    (fs : List (String × Option Json)) :
    written ((name, unlessEmpty isEmpty j) :: fs) = entryUnless isEmpty name j ++ written fs := by
  cases isEmpty <;> rfl

/-- Fields of different names, some of which may have no value. -/
structure Fields where
  list : List (String × Option Json)
  nodup : (list.map Prod.fst).Nodup

end Json

namespace Json.Fields

variable {α : Type} (fs : Fields)

/-- The names of the fields. -/
def names : List String := fs.list.map Prod.fst

/-- The object of the fields. -/
def toJson : Json := object (written fs.list)

/-- The object of the fields of a variant. -/
def tagged (tag kind : String) : Json :=
  object (written ((tag, some (ofText kind.toList)) :: fs.list))

/-- The fields as they are given by name. -/
def given : List (String × Option Json) → List (Text × Json) :=
  List.filterMap fun f => f.2.map (f.1.toList, ·)

theorem entries?_toJson : fs.toJson.entries? = some (given fs.list) := by
  have hmap : written fs.list = (given fs.list).map fun e => (quote e.1, e.2) := by
    rw [given, List.map_filterMap]
    simp only [Option.map_map]
    rfl
  rw [toJson, hmap, entries?, mapM_map_of_forall (h := id) fun e _ => by rw [unquote?_quote]; rfl,
    List.map_id]

theorem map_fst_given_sublist (fs : List (String × Option Json)) :
    ((given fs).map Prod.fst).Sublist ((fs.map Prod.fst).map String.toList) := by
  induction fs with
  | nil => exact .slnil
  | cons f fs ih =>
    obtain ⟨name, j⟩ := f
    cases j with
    | none => exact ih.cons _
    | some j => exact ih.cons_cons _

/-- **The record of an object has the fields that were written.** -/
theorem record?_toJson : record? fs.names fs.toJson = some ⟨false, given fs.list⟩ := by
  have hsublist := map_fst_given_sublist fs.list
  have hknown : (given fs.list).filter (fun e => (fs.names.map String.toList).contains e.1) =
      given fs.list := by
    rw [List.filter_eq_self]
    exact fun e he => List.contains_iff_mem.2 (hsublist.subset (List.mem_map_of_mem he))
  have hnodup := (List.Nodup.map (fun _ _ => String.toList_injective) fs.nodup).sublist hsublist
  rw [record?, entries?_toJson]
  · simp only [hknown, if_pos hnodup]
  · exact fun _ h => Json.noConfusion h

theorem lookup_given_of_notMem {fs : List (String × Option Json)} {name : String}
    (h : name ∉ fs.map Prod.fst) : (given fs).lookup name.toList = none := by
  rw [List.lookup_eq_none_iff]
  intro e he
  have hmem := (map_fst_given_sublist fs).subset (List.mem_map_of_mem he)
  obtain ⟨other, hother, hname⟩ := List.mem_map.1 hmem
  rw [← hname, bne_iff_ne]
  rintro heq
  rw [String.toList_injective heq] at h
  exact h hother

/-- **Every field is found by its name.** -/
theorem lookup_given {fs : List (String × Option Json)} (h : (fs.map Prod.fst).Nodup)
    {name : String} {j : Option Json} (hf : (name, j) ∈ fs) :
    (given fs).lookup name.toList = j := by
  induction fs with
  | nil => cases hf
  | cons f fs ih =>
    obtain ⟨hfirst, hrest⟩ := List.nodup_cons.1 h
    rcases List.mem_cons.1 hf with rfl | hmem
    · cases j with
      | none =>
        -- it is left out, and no field behind it has its name
        have hname : name ∉ fs.map Prod.fst := hfirst
        have hnone := lookup_given_of_notMem hname
        exact hnone
      | some j => exact List.lookup_cons_self
    · obtain ⟨first, k⟩ := f
      have hnames : name ∈ fs.map Prod.fst := List.mem_map_of_mem hmem
      cases k with
      | none => exact ih hrest hmem
      | some k =>
        have hlists : (name.toList == first.toList) = false :=
          beq_false_of_ne fun h => hfirst (String.toList_injective h ▸ hnames)
        have hcons : given ((first, some k) :: fs) = (first.toList, k) :: given fs := rfl
        rw [hcons, List.lookup_cons, hlists]
        exact ih hrest hmem

variable {fs}

theorem required?_given {name : String} {j : Json} (hf : (name, some j) ∈ fs.list)
    (read? : Json → Option α) :
    Record.required? ⟨false, given fs.list⟩ name read? = read? j := by
  rw [Record.required?, lookup_given fs.nodup hf, Option.bind_some]

/-- A field that is left out if it is empty is read as it was. -/
theorem orElse?_given {name : String} {isEmpty : Bool} {j : Json}
    (hf : (name, unlessEmpty isEmpty j) ∈ fs.list) {read? : Json → Option α} {value a : α}
    (hread : isEmpty = false → read? j = some a) (hempty : isEmpty = true → a = value) :
    Record.orElse? ⟨false, given fs.list⟩ name read? value = some a := by
  rw [Record.orElse?, lookup_given fs.nodup hf]
  cases isEmpty with
  | true => exact congrArg some (hempty rfl).symm
  | false => exact hread rfl

theorem orElse?_attrs {name : String} {m : Attrs}
    (hf : (name, unlessEmpty m.isEmpty (ofAttrs m)) ∈ fs.list) :
    Record.orElse? ⟨false, given fs.list⟩ name attrs? .empty = some m :=
  orElse?_given hf (fun _ => attrs?_ofAttrs m) Attrs.eq_empty_of_isEmpty

/-! ## Variants -/

/-- The names of entries that are written. -/
theorem unquote?_of_mem_written {fs : List (String × Option Json)} {e : Text × Json}
    (he : e ∈ written fs) : ∃ name ∈ fs.map Prod.fst, unquote? e.1 = some name.toList := by
  obtain ⟨⟨name, j⟩, hf, hentry⟩ := List.mem_filterMap.1 he
  obtain ⟨k, -, rfl⟩ := Option.map_eq_some_iff.1 hentry
  exact ⟨name, List.mem_map_of_mem hf, unquote?_quote _⟩

theorem variantName?_ofText {kinds : List String} {kind : String} (hkind : kind ∈ kinds)
    (isInner : Bool) : variantName? kinds isInner (ofText kind.toList) = some kind := by
  have hsome : (kinds.find? fun k => k.toList == kind.toList).isSome = true :=
    List.find?_isSome.2 ⟨kind, hkind, beq_self_eq_true _⟩
  obtain ⟨found, hfound⟩ := Option.isSome_iff_exists.1 hsome
  have hlists : found.toList = kind.toList := by
    have := List.find?_some hfound
    exact beq_iff_eq.1 this
  rw [variantName?, text?_ofText]
  exact hfound.trans (congrArg some (String.toList_injective hlists))

/-- **The kind of a variant is found again, and its fields are the others.** -/
theorem variant?_tagged {tag kind : String} {kinds : List String} (hkind : kind ∈ kinds)
    (htag : tag ∉ fs.names) (isInner : Bool) :
    variant? tag kinds isInner (fs.tagged tag kind) = some (kind, fs.toJson) := by
  -- no field has the name of the tag, so the tag is found once and nothing else is dropped
  have hother (e : Text × Json) (he : e ∈ written fs.list) : unquote? e.1 ≠ some tag.toList := by
    obtain ⟨other, hmem, hunquote⟩ := unquote?_of_mem_written he
    rw [hunquote]
    rintro h
    exact htag (String.toList_injective (Option.some.inj h) ▸ hmem)
  have hnone : (written fs.list).filter (fun e => unquote? e.1 == some tag.toList) = [] :=
    List.filter_eq_nil_iff.2 fun e he => by simpa using hother e he
  have hall : (written fs.list).filter (fun e => unquote? e.1 != some tag.toList) =
      written fs.list :=
    List.filter_eq_self.2 fun e he => by simpa using hother e he
  have hkey : unquote? (entry tag (ofText kind.toList)).1 = some tag.toList := unquote?_quote _
  have hname := variantName?_ofText hkind isInner
  simp only [tagged, written_cons_some, variant?, List.filter_cons, hkey, beq_self_eq_true,
    bne_self_eq_false, if_true, Bool.false_eq_true, if_false, hnone, hall]
  exact congrArg (Option.map _) hname

/-! ## Depth -/

theorem depth_lt_object {e : Text × Json} {es : List (Text × Json)} (he : e ∈ es) :
    e.2.depth < (object es).depth := by
  rw [depth]
  induction es with
  | nil => cases he
  | cons f es ih =>
    rw [depthEntries]
    rcases List.mem_cons.1 he with rfl | he
    · omega
    · have := ih he
      omega

/-- A field is not nested as deep as the object. -/
theorem depth_lt_of_mem {name : String} {j : Json} {fs : List (String × Option Json)}
    (hf : (name, some j) ∈ fs) : j.depth < (object (written fs)).depth := by
  have hentry : entry name j ∈ written fs := List.mem_filterMap.2 ⟨_, hf, rfl⟩
  exact depth_lt_object hentry

end Json.Fields

open Json

/-! ## Trees -/

namespace Node

/-- The fields of a text. -/
def textFields (content : Text) : Fields := ⟨[("content", some (.ofText content))], by simp⟩

/-- The fields of an element. -/
def elementFields (tag : Text) (attributes style : Attrs) (children : List Node) : Fields where
  list :=
    [("tag", some (.ofText tag)),
      ("attributes", unlessEmpty attributes.isEmpty (.ofAttrs attributes)),
      ("style", unlessEmpty style.isEmpty (.ofAttrs style)),
      ("children", unlessEmpty children.isEmpty (.array (toJsonAll children)))]
  nodup := by simp

theorem toJson_text (content : Text) :
    (text content).toJson = (textFields content).tagged "type" "Text" := rfl

theorem toJson_element (tag : Text) (attributes style : Attrs) (children : List Node) :
    (element tag attributes style children).toJson =
      (elementFields tag attributes style children).tagged "type" "Element" := by
  rw [toJson, Fields.tagged, elementFields]
  simp only [written_cons_some, written_cons_unlessEmpty, written_nil, List.append_assoc,
    List.cons_append, List.nil_append, List.append_nil]

/-- Every level of a tree is two levels of its value. -/
theorem depth_children_le {tag : Text} {attributes style : Attrs} {children : List Node}
    (hne : children.isEmpty = false) : depthAll (toJsonAll children) + 2 ≤
      (element tag attributes style children).toJson.depth := by
  have hfield : ("children", some (.array (toJsonAll children))) ∈
      (elementFields tag attributes style children).list := by
    simp [elementFields, unlessEmpty, hne]
  have hlt := Fields.depth_lt_of_mem (.tail ("type", some (ofText "Element".toList)) hfield)
  rw [toJson_element, Fields.tagged]
  rw [depth] at hlt
  omega

mutual

/-- **A tree is read back from its value.** -/
theorem ofLevels?_toJson (n : Node) {levels : Nat} (isInner : Bool)
    (h : n.toJson.depth ≤ levels) : ofLevels? levels isInner n.toJson = some n := by
  cases n with
  | text content =>
    rw [toJson_text] at h ⊢
    obtain - | levels := levels
    · exact absurd h (by rw [Fields.tagged, depth]; omega)
    have hrecord := (textFields content).record?_toJson
    rw [ofLevels?, Fields.variant?_tagged (by simp) (by simp [Fields.names, textFields])]
    simp only [Option.bind_eq_bind, Option.bind_some, if_true]
    rw [show record? ["content"] _ = _ from hrecord, Option.bind_some,
      Fields.required?_given (.head _), text?_ofText]
    rfl
  | element tag attributes style children =>
    have hchildren (hne : children.isEmpty = false) : depthAll (toJsonAll children) + 2 ≤ levels :=
      (depth_children_le hne).trans h
    rw [toJson_element] at h ⊢
    obtain - | levels := levels
    · exact absurd h (by rw [Fields.tagged, depth]; omega)
    -- children are read with one level less, and their values are two levels less deep
    have hread (hne : children.isEmpty = false) :
        list? (ofLevels? levels true) (.array (toJsonAll children)) = some children :=
      ofLevels?_toJsonAll children (by have := hchildren hne; omega)
    have hrecord := (elementFields tag attributes style children).record?_toJson
    rw [ofLevels?, Fields.variant?_tagged (by simp) (by simp [Fields.names, elementFields])]
    simp only [Option.bind_eq_bind, Option.bind_some]
    rw [if_neg (by simp),
      show record? ["tag", "attributes", "style", "children"] _ = _ from hrecord, Option.bind_some,
      Fields.required?_given (.head _), text?_ofText, Option.bind_some,
      Fields.orElse?_attrs (.tail _ (.head _)), Option.bind_some,
      Fields.orElse?_attrs (.tail _ (.tail _ (.head _))), Option.bind_some,
      Fields.orElse?_given (.tail _ (.tail _ (.tail _ (.head _)))) hread List.isEmpty_iff.1]
    rfl

theorem ofLevels?_toJsonAll (ns : List Node) {levels : Nat} (h : depthAll (toJsonAll ns) ≤ levels) :
    (toJsonAll ns).mapM (ofLevels? levels true) = some ns := by
  cases ns with
  | nil => rfl
  | cons n ns =>
    rw [toJsonAll, depthAll] at h
    rw [toJsonAll, List.mapM_cons, ofLevels?_toJson n true (by omega),
      ofLevels?_toJsonAll ns (by omega)]
    rfl

end

end Node

/-! ## Edits -/

namespace Delta

/-- The fields of a difference of maps. -/
def fields (d : Delta) : Fields where
  list :=
    [("added", unlessEmpty d.added.isEmpty (.ofAttrs d.added)),
      ("changed", unlessEmpty d.changed.isEmpty (.ofAttrs d.changed)),
      ("removed", unlessEmpty d.removed.isEmpty (.ofList .ofText d.removed))]
  nodup := by simp

theorem toJson_eq (d : Delta) : d.toJson = d.fields.toJson := by
  rw [toJson, Fields.toJson, fields]
  simp only [written_cons_unlessEmpty, written_nil, List.append_assoc, List.append_nil]

end Delta

namespace Edit

/-- The indices that an edit names. -/
def indices : Edit → List Nat
  | insert parent index _ => index :: parent
  | remove path | replace path _ | updateAttributes path _ _ | updateText path _ => path
  | move source parent index => index :: (source ++ parent)

/-- The kind of an edit as it is written. -/
def kind : Edit → String
  | insert .. => "insert"
  | remove .. => "remove"
  | replace .. => "replace"
  | updateAttributes .. => "updateAttributes"
  | updateText .. => "updateText"
  | move .. => "move"

/-- The fields of an edit. -/
def fields : Edit → Fields
  | insert parent index node =>
    ⟨[("parent", some parent.toJson), ("index", some (.ofNat index)), ("node", some node.toJson)],
      by simp⟩
  | remove path => ⟨[("path", some path.toJson)], by simp⟩
  | replace path node => ⟨[("path", some path.toJson), ("node", some node.toJson)], by simp⟩
  | updateAttributes path attributes style =>
    ⟨[("path", some path.toJson), ("attributes", some attributes.toJson),
      ("style", some style.toJson)], by simp⟩
  | updateText path content =>
    ⟨[("path", some path.toJson), ("content", some (.ofText content))], by simp⟩
  | move source parent index =>
    ⟨[("from", some source.toJson), ("to_parent", some parent.toJson),
      ("to_index", some (.ofNat index))], by simp⟩

theorem toJson_eq (e : Edit) : e.toJson = e.fields.tagged "op" e.kind := by cases e <;> rfl

end Edit

/-! ## What is written -/

namespace Json

theorem isWritten_ofText (s : Text) : (ofText s).IsWritten := by
  rintro x hx
  rw [ofText, symbols, List.mem_singleton] at hx
  subst hx
  exact ⟨s, rfl⟩

theorem isWritten_ofNat {n : Nat} (h : n < naturalLimit) : (ofNat n).IsWritten := by
  rintro x hx
  rw [ofNat, symbols, List.mem_singleton] at hx
  subst hx
  exact ⟨n, h, rfl⟩

theorem isWritten_ofList {α : Type} {f : α → Json} {as : List α}
    (h : ∀ a ∈ as, (f a).IsWritten) : (ofList f as).IsWritten := by
  refine isWritten_array fun j hj => ?_
  obtain ⟨a, ha, rfl⟩ := List.mem_map.1 hj
  exact h a ha

theorem isWritten_ofAttrs (m : Attrs) : (ofAttrs m).IsWritten := by
  refine isWritten_object fun e he => ?_
  obtain ⟨a, -, rfl⟩ := List.mem_map.1 he
  exact ⟨⟨a.1, rfl⟩, isWritten_ofText a.2⟩

/-- Fields whose values are written. -/
def AreWritten (fs : List (String × Option Json)) : Prop := ∀ f ∈ fs, ∀ j ∈ f.2, j.IsWritten

namespace AreWritten

variable {fs : List (String × Option Json)} {name : String} {j : Json}

theorem nil : AreWritten [] := nofun

theorem cons (hj : j.IsWritten) (h : AreWritten fs) : AreWritten ((name, some j) :: fs) := by
  rintro f (_ | ⟨_, hf⟩) k hk
  · cases hk
    exact hj
  · exact h f hf k hk

theorem cons_unlessEmpty {isEmpty : Bool} (hj : j.IsWritten) (h : AreWritten fs) :
    AreWritten ((name, unlessEmpty isEmpty j) :: fs) := by
  cases isEmpty with
  | true =>
    rintro f (_ | ⟨_, hf⟩) k hk
    · cases hk
    · exact h f hf k hk
  | false => exact .cons hj h

theorem isWritten (h : AreWritten fs) : (object (written fs)).IsWritten := by
  refine isWritten_object fun e he => ?_
  obtain ⟨f, hf, hentry⟩ := List.mem_filterMap.1 he
  obtain ⟨j, hj, rfl⟩ := Option.map_eq_some_iff.1 hentry
  exact ⟨⟨f.1.toList, rfl⟩, h f hf j hj⟩

theorem isWritten_tagged {fs : Fields} (h : AreWritten fs.list) (tag kind : String) :
    (fs.tagged tag kind).IsWritten :=
  isWritten (.cons (isWritten_ofText _) h)

end AreWritten

end Json

mutual

theorem Node.isWritten_toJson (n : Node) : n.toJson.IsWritten := by
  cases n with
  | text content =>
    rw [Node.toJson_text]
    exact AreWritten.isWritten_tagged (.cons (isWritten_ofText content) .nil) _ _
  | element tag attributes style children =>
    rw [Node.toJson_element]
    have hchildren := isWritten_array (Node.isWritten_toJsonAll children)
    refine AreWritten.isWritten_tagged (.cons (isWritten_ofText tag) ?_) _ _
    exact .cons_unlessEmpty (isWritten_ofAttrs attributes)
      (.cons_unlessEmpty (isWritten_ofAttrs style) (.cons_unlessEmpty hchildren .nil))

theorem Node.isWritten_toJsonAll (ns : List Node) : ∀ j ∈ Node.toJsonAll ns, j.IsWritten := by
  cases ns with
  | nil => nofun
  | cons n ns =>
    rw [Node.toJsonAll, List.forall_mem_cons]
    exact ⟨Node.isWritten_toJson n, Node.isWritten_toJsonAll ns⟩

end

theorem NodePath.isWritten_toJson {path : NodePath} (h : ∀ i ∈ path, i < naturalLimit) :
    (NodePath.toJson path).IsWritten :=
  isWritten_ofList fun i hi => isWritten_ofNat (h i hi)

theorem Delta.isWritten_toJson (d : Delta) : d.toJson.IsWritten := by
  rw [Delta.toJson_eq]
  have hremoved := isWritten_ofList fun s (_ : s ∈ d.removed) => isWritten_ofText s
  exact AreWritten.isWritten (.cons_unlessEmpty (isWritten_ofAttrs d.added)
    (.cons_unlessEmpty (isWritten_ofAttrs d.changed) (.cons_unlessEmpty hremoved .nil)))

theorem Edit.isWritten_toJson {e : Edit} (h : ∀ i ∈ e.indices, i < naturalLimit) :
    e.toJson.IsWritten := by
  rw [Edit.toJson_eq]
  refine AreWritten.isWritten_tagged ?_ _ _
  have hpath (path : NodePath) (hsub : path ⊆ e.indices) : (NodePath.toJson path).IsWritten :=
    NodePath.isWritten_toJson fun i hi => h i (hsub hi)
  cases e with
  | insert parent index node =>
    have hparent := hpath parent fun _ hi => .tail _ hi
    have hindex := isWritten_ofNat (h index (.head _))
    exact .cons hparent (.cons hindex (.cons node.isWritten_toJson .nil))
  | remove path => exact .cons (hpath path fun _ hi => hi) .nil
  | replace path node =>
    exact .cons (hpath path fun _ hi => hi) (.cons node.isWritten_toJson .nil)
  | updateAttributes path attributes style =>
    exact .cons (hpath path fun _ hi => hi)
      (.cons attributes.isWritten_toJson (.cons style.isWritten_toJson .nil))
  | updateText path content =>
    exact .cons (hpath path fun _ hi => hi) (.cons (isWritten_ofText content) .nil)
  | move source parent index =>
    have hsource := hpath source fun _ hi => .tail _ (List.mem_append_left _ hi)
    have hparent := hpath parent fun _ hi => .tail _ (List.mem_append_right _ hi)
    exact .cons hsource (.cons hparent (.cons (isWritten_ofNat (h index (.head _))) .nil))

/-! ## Texts -/

namespace Node

/-- An element inside `levels` others. -/
def nested : Nat → Node
  | 0 => .element ['a'] .empty .empty []
  | levels + 1 => .element ['a'] .empty .empty [nested levels]

end Node

end MarkupSync
