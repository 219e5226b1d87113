import MarkupSync.Node

/-!
# Places of nodes

Where the nodes of a document stand in its source. The places form a tree of the shape of the
document.

* `Place`, `ElementPlace`, `AttrPlace`: the bytes of nodes, of the parts of elements and of
  attributes;
* `Document`: a tree with the places of its nodes.
-/

namespace MarkupSync

/-- Where an attribute stands. -/
structure AttrPlace where
  /-- The name by which the document knows the attribute. -/
  key : Text
  /-- From the name to the end of the value. -/
  span : Span
  /-- The value with its quotes or braces. -/
  value : Option Span
  deriving Repr, DecidableEq

/-- Where an element stands. -/
structure ElementPlace where
  /-- All of the element. -/
  outer : Span
  /-- The open tag; none for a wrapping root. -/
  openTag : Option Span
  /-- The end of the last attribute, or of the tag name. -/
  attrsEnd : Nat
  /-- The content between the tags; none for an element without a close tag. -/
  inner : Option Span
  attributes : List AttrPlace
  deriving Repr, DecidableEq

/-- The place of an attribute. -/
def ElementPlace.attribute? (e : ElementPlace) (key : Text) : Option AttrPlace :=
  e.attributes.find? (·.key == key)

/-- Where a node and its children stand. -/
inductive Place
  /-- A text, without the blanks around it. -/
  | text (span : Span)
  | element (place : ElementPlace) (children : List Place)
  deriving Repr, Inhabited

namespace Place

/-- The bytes of a node. -/
def outer : Place → Span
  | .text span => span
  | .element place _ => place.outer

/-- The places of the children. -/
def children : Place → List Place
  | .text _ => []
  | .element _ children => children

/-- The parts of an element. -/
def element? : Place → Option ElementPlace
  | .text _ => none
  | .element place _ => some place

end Place

/-- A document tree with the places of its nodes. -/
structure Document where
  root : Node
  place : Place
  deriving Repr, Inhabited

/-- The document of a list of top-level nodes; a root that has to be wrapped around them stands at
`outer`, its content at `inner`. -/
def Document.ofTopLevel (outer inner : Span) : List (Node × Place) → Document
  | [(.element tag attributes style children, place)] =>
    ⟨.element tag attributes style children, place⟩
  | nodes =>
    ⟨.root (nodes.map Prod.fst),
      .element ⟨outer, none, outer.start, some inner, []⟩ (nodes.map Prod.snd)⟩

end MarkupSync
