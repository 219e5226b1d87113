/-!
# Trees and paths

* `NodePath`: the way from the root to a node, as child indices;
* `Tree`: types of trees whose branches have lists of children;
* `Tree.descend`, `Tree.modifyAt`: the node at a path, and a tree with that node changed.
-/

namespace MarkupSync

/-- The indices of the children on the way from the root to a node. -/
abbrev NodePath := List Nat

namespace NodePath

/-- The path of a child. -/
def child (path : NodePath) (index : Nat) : NodePath := path ++ [index]

/-- The path of the parent, and the index in it; none for the root. -/
def split? (path : NodePath) : Option (NodePath × Nat) :=
  match path.getLast? with
  | none => none
  | some index => some (path.dropLast, index)

/-- A path as text: a slash before every index, a single slash for the root. -/
def render (path : NodePath) : String :=
  match path with
  | [] => "/"
  | _ => String.join (path.map fun index => "/" ++ toString index)

end NodePath

/-- Trees whose branches have lists of children. -/
class Tree (τ : Type) where
  /-- The children of a branch; none for a leaf. -/
  children? : τ → Option (List τ)
  /-- A branch with other children; a leaf stays as it is. -/
  withChildren : List τ → τ → τ

namespace Tree

variable {τ : Type} [Tree τ]

/-- The children of a tree; a leaf has none. -/
def children (t : τ) : List τ := (children? t).getD []

/-- The node at a path. -/
def descend (t : τ) : NodePath → Option τ
  | [] => some t
  | i :: path => (children t)[i]?.bind (descend · path)

/-- The tree with the node at a path changed by `f`; a path that leads nowhere changes nothing. -/
def modifyAt (f : τ → τ) : NodePath → τ → τ
  | [], t => f t
  | i :: path, t => withChildren ((children t).modify i (modifyAt f path)) t

end Tree

end MarkupSync
