import MarkupSync.Canvas.Adapt
import MarkupSync.Edit.Apply
import MarkupSync.Patch.Error

/-!
# Patching the canvas

Paths count the nodes of the canvas that stand for nodes of the document. Decoration, comments and
blank texts are passed over and stay where they are.

* `Canvas.significant`: the children that stand for nodes of the document;
* `Display`: a canvas that shows a document, and `Display.resolve`: the node at a path;
* `Display.apply`, `Display.applyAll`: edits; what was done before an error stays done;
* `Canvas.render`: another document on the canvas, with the decoration of the container kept.
-/

namespace MarkupSync

namespace Canvas

/-- Whether a node belongs to the editor. -/
def isDecoration (c : Canvas) (d : Decoration) (id : NodeId) : Bool :=
  c.isElement id && d.marks (c.attributes id)

/-- Whether a node stands for a node of the document. -/
def isSignificant (c : Canvas) (d : Decoration) (id : NodeId) : Bool :=
  match c.get? id with
  | some ⟨.comment _, _, _⟩ => false
  | some ⟨.text content, _, _⟩ => !content.all isSpace
  | _ => !c.isDecoration d id

/-- The children of a node that stand for nodes of the document. -/
def significant (c : Canvas) (d : Decoration) (id : NodeId) : List NodeId :=
  (c.children id).filter (c.isSignificant d)

/-- Put a document tree among the children of a node, in front of the child `before` or behind all. -/
def place (c : Canvas) (parent : NodeId) (before : Option NodeId) (n : Node) :
    Outcome Canvas CanvasError :=
  let (c, id) := c.create n
  c.insertBefore parent id before

/-- Take all that is no decoration out of the container. -/
def clear (c : Canvas) (d : Decoration) : Canvas :=
  (c.children container).foldl (fun c id => if c.isDecoration d id then c else c.unlink id) c

/-- Show another document; decoration in the container stays. -/
def render (c : Canvas) (d : Decoration) (n : Node) : Outcome Canvas CanvasError :=
  .run (fun c n => c.place container none n) (c.clear d) n.topLevel

end Canvas

/-- A canvas that shows a document. -/
structure Display where
  canvas : Canvas
  /-- Whether the container stands for the root of the document. -/
  isWrapped : Bool
  deriving Repr

namespace Display

/-- The canvas with the document that it shows. -/
def of (c : Canvas) (current : Node) : Display := ⟨c, current.isRoot⟩

/-- The node of the document's root. -/
def root (s : Display) (d : Decoration) : Except PatchError NodeId :=
  if s.isWrapped then .ok Canvas.container
  else
    match (s.canvas.significant d Canvas.container).find? s.canvas.isElement with
    | some id => .ok id
    | none => .error (.unresolved [])

/-- The node at a path below a node. -/
def descend (s : Display) (d : Decoration) (id : NodeId) : NodePath → Option NodeId
  | [] => some id
  | i :: path =>
    match (s.canvas.significant d id)[i]? with
    | some child => s.descend d child path
    | none => none

/-- The node of the canvas at a path of the document. -/
def resolve (s : Display) (d : Decoration) (path : NodePath) : Except PatchError NodeId :=
  match s.root d with
  | .error e => .error e
  | .ok id =>
    match s.descend d id path with
    | some id => .ok id
    | none => .error (.unresolved path)

/-- The child in front of which a node with an index goes; none for the end. -/
def anchor (s : Display) (d : Decoration) (parent : NodeId) (path : NodePath) (index : Nat) :
    Except PatchError (Option NodeId) :=
  let children := s.canvas.significant d parent
  if children.length < index then .error (.unresolved (path.child index)) else .ok children[index]?

/-- Where a node with an index among the children at a path goes. -/
def target (s : Display) (d : Decoration) (path : NodePath) (index : Nat) :
    Except PatchError (NodeId × Option NodeId) :=
  match s.resolve d path with
  | .error e => .error e
  | .ok parent => (s.anchor d parent path index).map fun before => (parent, before)

/-- The outcome of a change of the canvas. -/
def changed (s : Display) (o : Outcome Canvas CanvasError) : Outcome Display PatchError :=
  ⟨{ s with canvas := o.state }, o.error.map .canvas⟩

/-- The outcome of a change of the canvas that leaves it as it is if it is refused. -/
def changedTo (s : Display) (r : Except CanvasError Canvas) : Outcome Display PatchError :=
  s.changed (.ofExcept s.canvas r)

/-- An edit that is refused. -/
def refused (s : Display) (e : PatchError) : Outcome Display PatchError := ⟨s, some e⟩

/-- Put classes on an element; those of the editor stay. -/
def setClasses (s : Display) (d : Decoration) (id : NodeId) (classes : List Text) :
    Outcome Display PatchError :=
  let current := ((s.canvas.attributes id).find? className).getD []
  let all := (d.editorClasses current).foldl
    (fun all name => if all.contains name then all else all ++ [name]) classes
  if all.isEmpty then s.changedTo (s.canvas.removeAttribute id className)
  else s.changedTo (s.canvas.setAttribute id className ([' '].intercalate all))

/-- Give an attribute a value. -/
def assign (d : Decoration) (id : NodeId) (s : Display) (e : Entry) : Outcome Display PatchError :=
  if e.1 = className then s.setClasses d id (Text.words e.2)
  else s.changedTo (s.canvas.setAttribute id e.1 e.2)

/-- Drop an attribute. -/
def drop (d : Decoration) (id : NodeId) (s : Display) (name : Text) : Outcome Display PatchError :=
  if name = className then s.setClasses d id []
  else s.changedTo (s.canvas.removeAttribute id name)

/-- Change the declarations of an element, unless its style is an expression. -/
def setStyle (s : Display) (id : NodeId) (delta : Delta) : Outcome Display PatchError :=
  let current := ((s.canvas.attributes id).find? styleName).getD []
  if delta.isEmpty || isExpression current then ⟨s, none⟩
  else
    let style := delta.apply (Style.readDeclarations current)
    if style.isEmpty then s.changedTo (s.canvas.removeAttribute id styleName)
    else s.changedTo (s.canvas.setAttribute id styleName (Style.writeDeclarations style))

/-- Change the attributes and the style of an element. -/
def updateAttributes (s : Display) (d : Decoration) (id : NodeId) (attributes style : Delta) :
    Outcome Display PatchError :=
  ((Outcome.run (drop d id) s attributes.removed).andThen fun s =>
    Outcome.run (assign d id) s attributes.assignments).andThen fun s => s.setStyle id style

/-- Put a document tree in the place of a node. -/
def replace (s : Display) (d : Decoration) (path : NodePath) (n : Node) :
    Outcome Display PatchError :=
  match path.split? with
  | none =>
    (s.changed (s.canvas.render d n)).andThen fun s => ⟨{ s with isWrapped := n.isRoot }, none⟩
  | some (parent, _) =>
    match s.resolve d path, s.resolve d parent with
    | .error e, _ => s.refused e
    | .ok _, .error e => s.refused e
    | .ok old, .ok parent =>
      (s.changed (s.canvas.place parent (some old) n)).andThen fun s =>
        s.changedTo (s.canvas.detach old)

/-- Apply an edit. -/
def apply (d : Decoration) (s : Display) : Edit → Outcome Display PatchError
  | .insert parent index n =>
    match s.target d parent index with
    | .error e => s.refused e
    | .ok (parent, before) => s.changed (s.canvas.place parent before n)
  | .remove path =>
    if path = [] then s.refused (.unsupported path .removeRoot)
    else
      match s.resolve d path with
      | .error e => s.refused e
      | .ok id => s.changedTo (s.canvas.detach id)
  | .replace path n => s.replace d path n
  | .updateAttributes path attributes style =>
    match s.resolve d path with
    | .error e => s.refused e
    | .ok id =>
      if s.canvas.isElement id then s.updateAttributes d id attributes style
      else s.refused (.unresolved path)
  | .updateText path content =>
    match s.resolve d path with
    | .error e => s.refused e
    | .ok id => s.changedTo (s.canvas.setText id content)
  | .move source parent index =>
    match s.resolve d source with
    | .error e => s.refused e
    | .ok id =>
      (s.changedTo (s.canvas.detach id)).andThen fun s =>
        match s.target d parent index with
        | .error e => s.refused e
        | .ok (parent, before) => s.changed (s.canvas.insertBefore parent id before)

/-- Apply edits in order, up to the first that fails. -/
def applyAll (d : Decoration) (s : Display) (edits : List Edit) : Outcome Display PatchError :=
  .run (apply d) s edits

end Display

end MarkupSync
