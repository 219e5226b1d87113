import MarkupSync.Attrs
import MarkupSync.Dialect
import MarkupSync.Tree.Basic

/-!
# Document trees

A document is a tree of elements and texts. It is the same for every dialect and for the canvas.

* `Node`: an element with its attributes, its inline style and its children, or a text;
* `Node.Same`: equality of trees up to the order of attributes and declarations;
* `Node.rootTag`, `Node.ofTopLevel`, `Node.topLevel`: a document with one top-level element is that
  element, every other document is wrapped in a root of its own.
-/

namespace MarkupSync

/-- The name of the attribute that holds the inline style. -/
def styleName : Text := ['s', 't', 'y', 'l', 'e']

/-- The name of the attribute that holds a list of classes. -/
def className : Text := ['c', 'l', 'a', 's', 's']

/-- A node of a document tree. -/
inductive Node
  | text (content : Text)
  | element (tag : Text) (attributes : Attrs) (style : Attrs) (children : List Node)
  deriving Inhabited, Repr

namespace Node

/-- The tag of the root that wraps a document of no or several top-level nodes. No markup has such
a tag. -/
def rootTag : Text := ['#', 'r', 'o', 'o', 't']

/-- The root that wraps `children`. -/
def root (children : List Node) : Node := .element rootTag .empty .empty children

/-- Whether a node is an element. -/
def isElement : Node → Bool
  | .text _ => false
  | .element .. => true

/-- Whether a node is a text. -/
def isText (n : Node) : Bool := !n.isElement

/-- The tag of an element. -/
def tag? : Node → Option Text
  | .text _ => none
  | .element tag _ _ _ => some tag

/-- The children of a node; a text has none. -/
def children : Node → List Node
  | .text _ => []
  | .element _ _ _ children => children

instance : Tree Node where
  children?
    | .text _ => none
    | .element _ _ _ children => some children
  withChildren children
    | .text content => .text content
    | .element tag attributes style _ => .element tag attributes style children

/-- Whether a node is a wrapping root. -/
def isRoot (n : Node) : Bool := n.tag? == some rootTag

/-- The document of a list of top-level nodes: a single element stands for itself, anything else is
wrapped. -/
def ofTopLevel : List Node → Node
  | [.element tag attributes style children] => .element tag attributes style children
  | nodes => root nodes

/-- The top-level nodes of a document. -/
def topLevel (n : Node) : List Node := if n.isRoot then n.children else [n]

/-- The name of the attribute that identifies an element among its siblings. -/
def keyName : Text := ['i', 'd']

/-- The identity of an element among its siblings. -/
def key? : Node → Option Text
  | .text _ => none
  | .element _ attributes _ _ => attributes.find? keyName

mutual

/-- The number of nodes in a tree. -/
def count : Node → Nat
  | .text _ => 1
  | .element _ _ _ children => 1 + countAll children

/-- The number of nodes in a list of trees. -/
def countAll : List Node → Nat
  | [] => 0
  | n :: ns => n.count + countAll ns

end

mutual

/-- Two trees are equal up to the order of attributes and declarations. -/
def Same : Node → Node → Prop
  | .text a, .text b => a = b
  | .element t a s cs, .element u b r ds => t = u ∧ a.Same b ∧ s.Same r ∧ SameAll cs ds
  | _, _ => False

/-- The trees of two lists are equal one by one. -/
def SameAll : List Node → List Node → Prop
  | [], [] => True
  | c :: cs, d :: ds => Same c d ∧ SameAll cs ds
  | _, _ => False

end

mutual

/-- Decides whether two trees are equal up to the order of attributes and declarations. -/
def same : Node → Node → Bool
  | .text a, .text b => a == b
  | .element t a s cs, .element u b r ds => t == u && a.same b && s.same r && sameAll cs ds
  | _, _ => false

/-- Decides whether the trees of two lists are equal one by one. -/
def sameAll : List Node → List Node → Bool
  | [], [] => true
  | c :: cs, d :: ds => same c d && sameAll cs ds
  | _, _ => false

end

mutual

theorem same_iff (a b : Node) : a.same b = true ↔ a.Same b := by
  cases a <;> cases b <;>
    simp [same, Same, Attrs.same_iff, and_assoc, sameAll_iff]

theorem sameAll_iff (as bs : List Node) : sameAll as bs = true ↔ SameAll as bs := by
  cases as <;> cases bs <;> simp [sameAll, SameAll, same_iff, sameAll_iff]

end

end Node

/-! ## Kinds of elements -/

/-- The elements that have neither children nor a close tag. -/
def voidTags : List Text :=
  ["area".toList, "base".toList, "br".toList, "col".toList, "embed".toList, "hr".toList,
    "img".toList, "input".toList, "link".toList, "meta".toList, "param".toList, "source".toList,
    "track".toList, "wbr".toList]

/-- Whether elements with this tag have no content. -/
def isVoid (tag : Text) : Bool := voidTags.contains (Text.lower tag)

/-- The elements whose content is kept as it is written. -/
def rawTags : List Text := ["script".toList, "style".toList, "textarea".toList, "pre".toList]

/-- Whether the content of elements with this tag is kept as it is written. -/
def isRaw (tag : Text) : Bool := rawTags.contains (Text.lower tag)

end MarkupSync
