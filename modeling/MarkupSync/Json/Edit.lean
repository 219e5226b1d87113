import MarkupSync.Edit.Apply
import MarkupSync.Json.Record

/-!
# Documents and edits in JSON

* `Node.toJson`: a tree; what is empty is left out;
* `Node.ofJson?`: the tree that a value stands for;
* `Edit.toJson`, `Edit.ofJson?`: edits.
-/

namespace MarkupSync

namespace Node

mutual

/-- A tree as a value. -/
def toJson : Node → Json
  | .text content =>
    .object [Json.entry "type" (.ofText "Text".toList), Json.entry "content" (.ofText content)]
  | .element tag attributes style children =>
    .object ([Json.entry "type" (.ofText "Element".toList), Json.entry "tag" (.ofText tag)] ++
      Json.entryUnless attributes.isEmpty "attributes" (.ofAttrs attributes) ++
      Json.entryUnless style.isEmpty "style" (.ofAttrs style) ++
      Json.entryUnless children.isEmpty "children" (.array (toJsonAll children)))

/-- Trees as values. -/
def toJsonAll : List Node → List Json
  | [] => []
  | n :: ns => n.toJson :: toJsonAll ns

end

/-- The tree of a value that has at most `levels` levels. -/
def ofLevels? : Nat → Bool → Json → Option Node
  | 0, _, _ => none
  | levels + 1, isInner, j => do
    let (name, body) ← j.variant? "type" ["Element", "Text"] isInner
    if name = "Text" then
      let r ← body.record? ["content"]
      return .text (← r.required? "content" Json.text?)
    else
      let r ← body.record? ["tag", "attributes", "style", "children"]
      return .element (← r.required? "tag" Json.text?)
        (← r.orElse? "attributes" Json.attrs? .empty)
        (← r.orElse? "style" Json.attrs? .empty)
        (← r.orElse? "children" (Json.list? (ofLevels? levels true)) [])

/-- The tree inside another value. -/
def ofInner? (j : Json) : Option Node := ofLevels? j.depth true j

/-- The tree that a value stands for. -/
def ofJson? (j : Json) : Option Node := if j.isPlain then ofLevels? j.depth false j else none

end Node

/-- A path as a value. -/
def NodePath.toJson (path : NodePath) : Json := .ofList .ofNat path

/-- The path that a value stands for. -/
def NodePath.ofJson? (j : Json) : Option NodePath := j.list? Json.nat?

namespace Delta

/-- A difference of maps as a value; what is empty is left out. -/
def toJson (d : Delta) : Json :=
  .object (Json.entryUnless d.added.isEmpty "added" (.ofAttrs d.added) ++
    Json.entryUnless d.changed.isEmpty "changed" (.ofAttrs d.changed) ++
    Json.entryUnless d.removed.isEmpty "removed" (.ofList .ofText d.removed))

/-- The difference of maps that a value stands for. -/
def ofJson? (j : Json) : Option Delta := do
  let r ← j.record? ["added", "changed", "removed"]
  return ⟨← r.orElse? "added" Json.attrs? .empty, ← r.orElse? "changed" Json.attrs? .empty,
    ← r.orElse? "removed" (Json.list? Json.text?) []⟩

end Delta

namespace Edit

/-- The kinds of edits as they are written. -/
def variants : List String :=
  ["insert", "remove", "replace", "updateAttributes", "updateText", "move"]

/-- An edit of a kind as a value. -/
def tagged (kind : String) (fields : List (String × Json)) : Json :=
  .object (Json.entry "op" (.ofText kind.toList) ::
    fields.map fun e => Json.entry e.1 e.2)

/-- An edit as a value. -/
def toJson : Edit → Json
  | insert parent index node =>
    tagged "insert" [("parent", parent.toJson), ("index", .ofNat index), ("node", node.toJson)]
  | remove path => tagged "remove" [("path", path.toJson)]
  | replace path node => tagged "replace" [("path", path.toJson), ("node", node.toJson)]
  | updateAttributes path attributes style =>
    tagged "updateAttributes"
      [("path", path.toJson), ("attributes", attributes.toJson), ("style", style.toJson)]
  | updateText path content =>
    tagged "updateText" [("path", path.toJson), ("content", .ofText content)]
  | move source parent index =>
    tagged "move"
      [("from", source.toJson), ("to_parent", parent.toJson), ("to_index", .ofNat index)]

/-- The edit of a kind that has these fields. -/
def ofFields? (kind : String) (fields : Json) : Option Edit :=
  let path := NodePath.ofJson?
  match kind with
  | "insert" => do
    let r ← fields.record? ["parent", "index", "node"]
    return insert (← r.required? "parent" path) (← r.required? "index" Json.nat?)
      (← r.required? "node" Node.ofInner?)
  | "remove" => do
    let r ← fields.record? ["path"]
    return remove (← r.required? "path" path)
  | "replace" => do
    let r ← fields.record? ["path", "node"]
    return replace (← r.required? "path" path) (← r.required? "node" Node.ofInner?)
  | "updateAttributes" => do
    let r ← fields.record? ["path", "attributes", "style"]
    return updateAttributes (← r.required? "path" path)
      (← r.required? "attributes" Delta.ofJson?) (← r.required? "style" Delta.ofJson?)
  | "updateText" => do
    let r ← fields.record? ["path", "content"]
    return updateText (← r.required? "path" path) (← r.required? "content" Json.text?)
  | "move" => do
    let r ← fields.record? ["from", "to_parent", "to_index"]
    return move (← r.required? "from" path) (← r.required? "to_parent" path)
      (← r.required? "to_index" Json.nat?)
  | _ => none

/-- The edit that a value stands for. -/
def ofJson? (j : Json) : Option Edit :=
  if j.isPlain then
    (j.variant? "op" variants false).bind fun (kind, fields) => ofFields? kind fields
  else none

end Edit

end MarkupSync
