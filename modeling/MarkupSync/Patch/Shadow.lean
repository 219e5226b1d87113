import MarkupSync.Document.Place
import MarkupSync.Edit.Apply
import MarkupSync.Patch.Error

/-!
# Shadow trees

A document under edit whose nodes remember where they come from.

* `Origin`: a node of the source document with its place;
* `Shadow`, `Shadow.ofDocument`: a document whose nodes have their origins; nodes that edits create
  have none;
* `Shadow.toNode`: the document that a shadow tree stands for;
* `Shadow.apply`, `Shadow.applyAll`: edits.
-/

namespace MarkupSync

/-- A node of the source document. -/
structure Origin where
  /-- Its path in the source document. -/
  path : NodePath
  node : Node
  place : Place
  deriving Repr, Inhabited

/-- A document tree whose nodes may have origins. -/
inductive Shadow
  | text (origin : Option Origin) (content : Text)
  | element (origin : Option Origin) (tag : Text) (attributes style : Attrs)
    (children : List Shadow)
  deriving Repr, Inhabited

namespace Shadow

instance : Tree Shadow where
  children?
    | .text _ _ => none
    | .element _ _ _ _ children => some children
  withChildren children
    | .text origin content => .text origin content
    | .element origin tag attributes style _ => .element origin tag attributes style children

/-- Where a node comes from. -/
def origin : Shadow → Option Origin
  | .text origin _ => origin
  | .element origin _ _ _ _ => origin

/-- Whether a node is an element. -/
def isElement : Shadow → Bool
  | .text _ _ => false
  | .element .. => true

mutual

/-- A source document, from the node at a path on. -/
def ofSource (path : NodePath) (place : Place) : Node → Shadow
  | .text content => .text (some ⟨path, .text content, place⟩) content
  | .element tag attributes style children =>
    .element (some ⟨path, .element tag attributes style children, place⟩) tag attributes style
      (ofSources path 0 place.children children)

/-- The children of the source node at a path, from the given index on. -/
def ofSources (path : NodePath) (index : Nat) : List Place → List Node → List Shadow
  | place :: places, n :: ns =>
    ofSource (path.child index) place n :: ofSources path (index + 1) places ns
  | [], _ :: _ => []
  | _, [] => []

end

/-- A source document. -/
def ofDocument (d : Document) : Shadow := ofSource [] d.place d.root

mutual

/-- A new document. -/
def fresh : Node → Shadow
  | .text content => .text none content
  | .element tag attributes style children =>
    .element none tag attributes style (freshAll children)

/-- New documents. -/
def freshAll : List Node → List Shadow
  | [] => []
  | n :: ns => fresh n :: freshAll ns

end

mutual

/-- The document that a shadow tree stands for. -/
def toNode : Shadow → Node
  | .text _ content => .text content
  | .element _ tag attributes style children =>
    .element tag attributes style (toNodes children)

/-- The documents that shadow trees stand for. -/
def toNodes : List Shadow → List Node
  | [] => []
  | s :: ss => toNode s :: toNodes ss

end

/-! ## Edits -/

/-- A node with changed attributes and declarations. -/
def withDeltas (attributes style : Delta) : Shadow → Except EditFault Shadow
  | .text _ _ => .error .attributesOnText
  | .element origin tag as st children =>
    .ok (.element origin tag (attributes.apply as) (style.apply st) children)

/-- A text with other content. -/
def withContent (content : Text) : Shadow → Except EditFault Shadow
  | .text origin _ => .ok (.text origin content)
  | .element .. => .error .textOnElement

/-- The shadow tree after an edit. -/
def edit (s : Shadow) : Edit → Except EditError Shadow
  | .insert parent index node => Tree.insertAt s parent index (fresh node)
  | .remove path => (Tree.detach s path).map Prod.snd
  | .replace path node => Tree.updateAt s path fun _ => .ok (fresh node)
  | .updateAttributes path attributes style => Tree.updateAt s path (withDeltas attributes style)
  | .updateText path content => Tree.updateAt s path (withContent content)
  | .move source parent index => (Tree.move s source parent index).result

/-- The shadow tree after an edit, or why it cannot be patched. -/
def apply (s : Shadow) (e : Edit) : Except PatchError Shadow :=
  (s.edit e).mapError (PatchError.ofEdit .detachRoot)

/-- The shadow tree after edits in order. -/
def applyAll (s : Shadow) : List Edit → Except PatchError Shadow
  | [] => .ok s
  | e :: es =>
    match s.apply e with
    | .error e => .error e
    | .ok s => s.applyAll es

end Shadow

end MarkupSync
