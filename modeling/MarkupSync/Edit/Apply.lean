import MarkupSync.Node
import MarkupSync.Outcome

/-!
# Edits

One change of a document tree. Its paths are read in the tree as it is when the edit is applied.

* `Delta`: a difference of attribute maps: the entries that a map gains, those that get another value
  and the names it loses;
* `Delta.between`, `Delta.apply`: the difference of two maps, and a map with a difference applied;
* `Edit`: the kinds of edits;
* `EditFault`, `EditError`: why an edit cannot be applied;
* `Tree.childrenAt`: the children of the branch at a path;
* `Tree.slot`: the list of children that a node is in, and its index;
* `Tree.detach`, `Tree.insertAt`: a node taken out of a tree and put into it;
* `Tree.move`: both in one;
* `Node.apply`: a document after an edit; a failed edit leaves it as it was, except that a move
  whose target does not exist leaves its node detached;
* `Node.applyAll`: edits in order, up to the first that fails.
-/

namespace MarkupSync

/-! ## Differences of attribute maps -/

/-- What to change in an attribute map. -/
structure Delta where
  added : Attrs
  changed : Attrs
  removed : List Text
  deriving Repr, DecidableEq, Inhabited

namespace Delta

/-- Nothing to change. -/
def empty : Delta := ⟨.empty, .empty, []⟩

/-- What to change in the map `old` to get the map `new`. -/
def between (old new : Attrs) : Delta where
  added := .ofList (new.entries.filter fun e => !old.has e.1)
  changed := .ofList (new.entries.filter fun e => old.has e.1 && old.find? e.1 != some e.2)
  removed := (names old.entries).filter fun name => !new.has name

/-- Whether there is nothing to change. -/
def isEmpty (d : Delta) : Bool := d.added.isEmpty && d.changed.isEmpty && d.removed.isEmpty

/-- The entries that are given a value, new names first. -/
def assignments (d : Delta) : List Entry := d.added.entries ++ d.changed.entries

/-- A map with the removed names dropped and the assigned values set. -/
def apply (d : Delta) (m : Attrs) : Attrs :=
  d.assignments.foldl (fun m e => m.insert e.1 e.2) (d.removed.foldl Attrs.erase m)

end Delta

/-! ## Edits -/

/-- A change of a document tree. -/
inductive Edit
  /-- Put a new node among the children of `parent`. -/
  | insert (parent : NodePath) (index : Nat) (node : Node)
  | remove (path : NodePath)
  | replace (path : NodePath) (node : Node)
  | updateAttributes (path : NodePath) (attributes style : Delta)
  | updateText (path : NodePath) (content : Text)
  /-- Detach the node at `source` and put it among the children of `parent`, as they are then. -/
  | move (source parent : NodePath) (index : Nat)
  deriving Repr, Inhabited

namespace Edit

/-- The path of the node that is changed: for an insertion that of the parent. -/
def path : Edit → NodePath
  | insert parent _ _ => parent
  | remove path => path
  | replace path _ => path
  | updateAttributes path _ _ => path
  | updateText path _ => path
  | move source _ _ => source

/-- What an edit is called. -/
def name : Edit → String
  | insert .. => "insert"
  | remove _ => "remove"
  | replace .. => "replace"
  | updateAttributes .. => "update_attributes"
  | updateText .. => "update_text"
  | move .. => "move"

/-- Whether an edit changes a list of children. -/
def isStructural : Edit → Bool
  | insert .. | remove _ | move .. => true
  | replace .. | updateAttributes .. | updateText .. => false

end Edit

/-- Why an edit cannot be applied. -/
inductive EditFault
  | textHasNoChildren
  | noSuchNode
  | rootStays
  | indexOutOfRange
  | insertOutOfRange
  | attributesOnText
  | textOnElement
  deriving Repr, DecidableEq

/-- The wording of a fault. -/
def EditFault.message : EditFault → String
  | textHasNoChildren => "text nodes have no children"
  | noSuchNode => "no such node"
  | rootStays => "the root cannot be detached"
  | indexOutOfRange => "index out of range"
  | insertOutOfRange => "insert index out of range"
  | attributesOnText => "attributes on a text node"
  | textOnElement => "text update on an element"

/-- The path that does not lead to what an edit needs, and why. -/
structure EditError where
  path : NodePath
  fault : EditFault
  deriving Repr, DecidableEq

/-- The wording of an error. -/
def EditError.message (e : EditError) : String :=
  "Path " ++ e.path.render ++ " does not resolve: " ++ e.fault.message

/-! ## Lists of children -/

namespace Tree

variable {τ : Type} [Tree τ]

/-- The children of the branch at a path. -/
def childrenAt (t : τ) (path : NodePath) : Except EditError (List τ) :=
  match descend t path with
  | none => .error ⟨path, .noSuchNode⟩
  | some n =>
    match children? n with
    | none => .error ⟨path, .textHasNoChildren⟩
    | some ns => .ok ns

/-- Where a node is in a list of children. -/
structure Slot (τ : Type) where
  parent : NodePath
  index : Nat
  siblings : List τ
  node : τ

/-- The place of the node at a path in its list of children; the root has none. -/
def slot (t : τ) (path : NodePath) : Except EditError (Slot τ) :=
  match path.split? with
  | none => .error ⟨path, .rootStays⟩
  | some (parent, index) =>
    match childrenAt t parent with
    | .error e => .error e
    | .ok siblings =>
      match siblings[index]? with
      | none => .error ⟨path, .indexOutOfRange⟩
      | some node => .ok ⟨parent, index, siblings, node⟩

/-- Take the node at a path out of the tree: the node, and the tree without it. -/
def detach (t : τ) (path : NodePath) : Except EditError (τ × τ) :=
  match slot t path with
  | .error e => .error e
  | .ok s => .ok (s.node, modifyAt (withChildren (s.siblings.eraseIdx s.index)) s.parent t)

/-- Put a node among the children at a path. -/
def insertAt (t : τ) (parent : NodePath) (index : Nat) (node : τ) : Except EditError τ :=
  match childrenAt t parent with
  | .error e => .error e
  | .ok siblings =>
    if siblings.length < index then .error ⟨parent.child index, .insertOutOfRange⟩
    else .ok (modifyAt (withChildren (siblings.insertIdx index node)) parent t)

/-- Change the node at a path, or say why it cannot be changed. -/
def updateAt (t : τ) (path : NodePath) (f : τ → Except EditFault τ) : Except EditError τ :=
  match descend t path with
  | none => .error ⟨path, .noSuchNode⟩
  | some old =>
    match f old with
    | .error fault => .error ⟨path, fault⟩
    | .ok new => .ok (modifyAt (fun _ => new) path t)

/-- Take the node at `source` out and put it among the children of `parent`, as they are then. If
there is no such place the node stays out. -/
def move (t : τ) (source parent : NodePath) (index : Nat) : Outcome τ EditError :=
  match detach t source with
  | .error e => ⟨t, some e⟩
  | .ok (node, rest) => .ofExcept rest (insertAt rest parent index node)

end Tree

end MarkupSync

namespace MarkupSync.Node

/-! ## Documents -/

/-- A node with changed attributes and declarations. -/
def withDeltas (attributes style : Delta) : Node → Except EditFault Node
  | .text _ => .error .attributesOnText
  | .element tag as st children => .ok (.element tag (attributes.apply as) (style.apply st) children)

/-- A text with other content. -/
def withContent (content : Text) : Node → Except EditFault Node
  | .text _ => .ok (.text content)
  | .element .. => .error .textOnElement

/-- A document after an edit. -/
def apply (n : Node) : Edit → Outcome Node EditError
  | .insert parent index node => .ofExcept n (Tree.insertAt n parent index node)
  | .remove path => .ofExcept n ((Tree.detach n path).map Prod.snd)
  | .replace path node => .ofExcept n (Tree.updateAt n path fun _ => .ok node)
  | .updateAttributes path attributes style =>
    .ofExcept n (Tree.updateAt n path (withDeltas attributes style))
  | .updateText path content => .ofExcept n (Tree.updateAt n path (withContent content))
  | .move source parent index => Tree.move n source parent index

/-- A document after edits in order, up to the first that fails. -/
def applyAll (n : Node) (edits : List Edit) : Outcome Node EditError := .run apply n edits

end MarkupSync.Node
