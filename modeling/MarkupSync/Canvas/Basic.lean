import MarkupSync.Node
import MarkupSync.Outcome
import MarkupSync.Style.Declarations

/-!
# The canvas

The live tree that a user edits: elements, texts and comments under a container. Nodes have
numbers and stay there when they are detached.

* `Canvas`, `Canvas.container`: the nodes by number; the container is number zero;
* `Canvas.insertBefore`, `Canvas.unlink`, `Canvas.setAttribute`, …: the changes of a canvas, and
  `CanvasError`: why a change is refused;
* `Canvas.create`, `Canvas.mount`: document trees on a canvas;
* `Live`, `Canvas.view`: the tree below a node.
-/

namespace MarkupSync

/-- The number of a node on a canvas. -/
abbrev NodeId := Nat

/-- What a node of a canvas is. -/
inductive LiveData
  | element (tag : Text) (attributes : Attrs)
  | text (content : Text)
  | comment (content : Text)
  deriving Repr, Inhabited

/-- A node of a canvas with its place in the tree. -/
structure LiveNode where
  data : LiveData
  parent : Option NodeId
  children : List NodeId
  deriving Repr, Inhabited

/-- Why a change of a canvas is refused. -/
inductive CanvasError
  | unknownNode (id : NodeId)
  | notAnElement (id : NodeId)
  | notAText (id : NodeId)
  | ownSubtree (id : NodeId)
  | notAChild (id parent : NodeId)
  deriving Repr, DecidableEq

/-- The wording of an error. -/
def CanvasError.message : CanvasError → String
  | unknownNode id => "unknown node " ++ toString id
  | notAnElement id => "node " ++ toString id ++ " is not an element"
  | notAText id => "node " ++ toString id ++ " is not a text node"
  | ownSubtree id => "node " ++ toString id ++ " cannot be inserted into its own subtree"
  | notAChild id parent => "node " ++ toString id ++ " is not a child of " ++ toString parent

/-- The nodes of a canvas by number. -/
structure Canvas where
  nodes : List LiveNode
  deriving Repr, Inhabited

namespace Canvas

/-- The number of the node that contains all others. -/
def container : NodeId := 0

/-- A canvas with an empty container. -/
def empty : Canvas := ⟨[⟨.element "body".toList .empty, none, []⟩]⟩

/-! ## Reading -/

/-- The node of a number. -/
def get? (c : Canvas) (id : NodeId) : Option LiveNode := c.nodes[id]?

/-- The parent of a node. -/
def parent? (c : Canvas) (id : NodeId) : Option NodeId := (c.get? id).bind LiveNode.parent

/-- The children of a node. -/
def children (c : Canvas) (id : NodeId) : List NodeId :=
  match c.get? id with
  | some n => n.children
  | none => []

/-- Whether a node is an element; unknown nodes count as elements. -/
def isElement (c : Canvas) (id : NodeId) : Bool :=
  match c.get? id with
  | none => true
  | some n =>
    match n.data with
    | .element .. => true
    | .text _ | .comment _ => false

/-- The tag of an element. -/
def tag? (c : Canvas) (id : NodeId) : Option Text :=
  match c.get? id with
  | some ⟨.element tag _, _, _⟩ => some tag
  | _ => none

/-- The attributes of an element. -/
def attributes (c : Canvas) (id : NodeId) : Attrs :=
  match c.get? id with
  | some ⟨.element _ attributes, _, _⟩ => attributes
  | _ => .empty

/-- The content of a text or a comment. -/
def content? (c : Canvas) (id : NodeId) : Option Text :=
  match c.get? id with
  | some ⟨.text content, _, _⟩ => some content
  | some ⟨.comment content, _, _⟩ => some content
  | _ => none

/-- Walk up from a node, `fuel` steps at most, and look for another. -/
def reaches (c : Canvas) (ancestor : NodeId) : Nat → NodeId → Bool
  | 0, id => id == ancestor
  | fuel + 1, id =>
    id == ancestor ||
      match c.parent? id with
      | some parent => c.reaches ancestor fuel parent
      | none => false

/-- Whether a node is another or above it. -/
def isAncestor (c : Canvas) (ancestor id : NodeId) : Bool := c.reaches ancestor c.nodes.length id

/-- A node and the nodes below it in document order, `fuel` levels deep. -/
def preorderFrom (c : Canvas) : Nat → NodeId → List NodeId
  | 0, id => [id]
  | fuel + 1, id => id :: (c.children id).flatMap (c.preorderFrom fuel)

/-- The nodes on the canvas in document order. -/
def preorder (c : Canvas) : List NodeId := c.preorderFrom c.nodes.length container

/-- The first element in document order with a value of an attribute. -/
def find? (c : Canvas) (name value : Text) : Option NodeId :=
  c.preorder.find? fun id => (c.attributes id).find? name == some value

/-! ## Building -/

/-- Change a node. -/
def modify (c : Canvas) (id : NodeId) (f : LiveNode → LiveNode) : Canvas :=
  ⟨c.nodes.modify id f⟩

/-- A new node that has no parent: the canvas with it, and its number. -/
def alloc (c : Canvas) (data : LiveData) : Canvas × NodeId :=
  (⟨c.nodes ++ [⟨data, none, []⟩]⟩, c.nodes.length)

/-- Put a node among the children of another, at an index or behind them. -/
def link (c : Canvas) (parent child : NodeId) (index : Option Nat) : Canvas :=
  (c.modify parent fun n =>
      { n with children := n.children.insertIdx (index.getD n.children.length) child }).modify
    child fun n => { n with parent := some parent }

/-- Take a node out of the children of its parent. -/
def unlink (c : Canvas) (id : NodeId) : Canvas :=
  match c.parent? id with
  | none => c
  | some parent =>
    (c.modify id fun n => { n with parent := none }).modify parent fun n =>
      { n with children := n.children.filter (· != id) }

/-- A new node behind the children of another. -/
def append (c : Canvas) (parent : NodeId) (data : LiveData) : Canvas × NodeId :=
  let (c, id) := c.alloc data
  (c.link parent id none, id)

/-- The attributes of an element with its inline style among them. -/
def writtenAttributes (attributes style : Attrs) : Attrs :=
  if style.isEmpty then attributes
  else attributes.insert styleName (Style.writeDeclarations style)

mutual

/-- A document tree as new nodes without a parent: the number of its root. -/
def create (c : Canvas) : Node → Canvas × NodeId
  | .text content => c.alloc (.text content)
  | .element tag attributes style children =>
    let (c, id) := c.alloc (.element tag (writtenAttributes attributes style))
    (c.createAll id children, id)

/-- Document trees as new children of a node. -/
def createAll (c : Canvas) (parent : NodeId) : List Node → Canvas
  | [] => c
  | n :: ns =>
    let (c, id) := c.create n
    (c.link parent id none).createAll parent ns

end

/-- Show the top-level nodes of a document in place of what the container has. -/
def mount (c : Canvas) (n : Node) : Canvas :=
  let old := c.children container
  let c := old.foldl (fun c id => c.modify id fun m => { m with parent := none }) c
  (c.modify container fun m => { m with children := [] }).createAll container n.topLevel

/-- A canvas that shows a document. -/
def ofNode (n : Node) : Canvas := empty.mount n

/-! ## Changing -/

/-- Refuse unknown nodes. -/
def known (c : Canvas) (id : NodeId) : Except CanvasError Unit :=
  if (c.get? id).isSome then .ok () else .error (.unknownNode id)

/-- Put a node among the children of another, in front of the child `before` or behind all. A node
that has a parent is taken from it first, also if there is no such child. -/
def insertBefore (c : Canvas) (parent child : NodeId) (before : Option NodeId) :
    Outcome Canvas CanvasError :=
  match c.known parent, c.known child with
  | .error e, _ => ⟨c, some e⟩
  | .ok _, .error e => ⟨c, some e⟩
  | .ok _, .ok _ =>
    if c.isAncestor child parent then ⟨c, some (.ownSubtree child)⟩
    else
      let d := c.unlink child
      match before with
      | none => ⟨d.link parent child none, none⟩
      | some anchor =>
        match (d.children parent).idxOf? anchor with
        | none => ⟨d, some (.notAChild anchor parent)⟩
        | some index => ⟨d.link parent child (some index), none⟩

/-- Take a node out of the tree. -/
def detach (c : Canvas) (id : NodeId) : Except CanvasError Canvas :=
  match c.known id with
  | .error e => .error e
  | .ok _ => .ok (c.unlink id)

/-- Change the attributes of an element. -/
def updateAttributes (c : Canvas) (id : NodeId) (f : Attrs → Attrs) : Except CanvasError Canvas :=
  match c.get? id with
  | none => .error (.unknownNode id)
  | some ⟨.element tag attributes, _, _⟩ =>
    .ok (c.modify id fun n => { n with data := .element tag (f attributes) })
  | some _ => .error (.notAnElement id)

/-- Give an attribute of an element a value. -/
def setAttribute (c : Canvas) (id : NodeId) (name value : Text) : Except CanvasError Canvas :=
  c.updateAttributes id (·.insert name value)

/-- Drop an attribute of an element. -/
def removeAttribute (c : Canvas) (id : NodeId) (name : Text) : Except CanvasError Canvas :=
  c.updateAttributes id (·.erase name)

/-- Give a text or a comment another content. -/
def setText (c : Canvas) (id : NodeId) (content : Text) : Except CanvasError Canvas :=
  match c.get? id with
  | some ⟨.text _, _, _⟩ => .ok (c.modify id fun n => { n with data := .text content })
  | some ⟨.comment _, _, _⟩ => .ok (c.modify id fun n => { n with data := .comment content })
  | _ => .error (.notAText id)

end Canvas

/-! ## The tree below a node -/

/-- A node of a canvas with the nodes below it. -/
inductive Live
  | element (id : NodeId) (tag : Text) (attributes : Attrs) (children : List Live)
  | text (id : NodeId) (content : Text)
  | comment (id : NodeId) (content : Text)
  deriving Repr, Inhabited

/-- The tree below a node, `fuel` levels deep. -/
def Canvas.viewFrom (c : Canvas) : Nat → NodeId → Live
  | 0, id => .text id []
  | fuel + 1, id =>
    match c.get? id with
    | none => .element id [] .empty []
    | some ⟨.element tag attributes, _, children⟩ =>
      .element id tag attributes (children.map (c.viewFrom fuel))
    | some ⟨.text content, _, _⟩ => .text id content
    | some ⟨.comment content, _, _⟩ => .comment id content

/-- The tree on the canvas. -/
def Canvas.view (c : Canvas) : Live := c.viewFrom c.nodes.length container

end MarkupSync
