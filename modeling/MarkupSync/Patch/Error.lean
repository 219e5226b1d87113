import MarkupSync.Canvas.Basic
import MarkupSync.Edit.Apply
import MarkupSync.Lexeme.Basic
import MarkupSync.Splice

/-!
# Patch errors

* `PatchError`: why edits cannot be carried over to a source or to the canvas.
-/

namespace MarkupSync

/-- What a representation cannot do. -/
inductive Unsupported
  | detachRoot
  | rootHasNoParent
  | spreadUpdate
  | noScript
  | removeRoot
  deriving Repr, DecidableEq

/-- The wording of what cannot be done. -/
def Unsupported.message : Unsupported → String
  | detachRoot => "the document root cannot be detached"
  | rootHasNoParent => "the markup root has no parent"
  | spreadUpdate => "attribute update on an element with spread props"
  | noScript => "component has no <script> section"
  | removeRoot => "the document root cannot be removed"

/-- Why edits cannot be carried over. -/
inductive PatchError
  | unsupported (path : NodePath) (what : Unsupported)
  | unresolved (path : NodePath)
  | invalidSplice (e : SpliceError)
  | canvas (e : CanvasError)
  | source (e : ParseError)
  deriving Repr, DecidableEq

namespace PatchError

/-- The wording of an error. -/
def message : PatchError → String
  | unsupported path what => "Unsupported construct at " ++ path.render ++ ": " ++ what.message
  | unresolved path => "Path " ++ path.render ++ " does not resolve in the patch target"
  | invalidSplice e => e.message
  | canvas e => "Live tree error: " ++ e.message
  | source e => "Source to patch does not parse: " ++ e.message

/-- The error of an edit of a tree whose root has to stay because of `what`. -/
def ofEdit (what : Unsupported) (e : EditError) : PatchError :=
  match e.fault with
  | .rootStays => .unsupported e.path what
  | _ => .unresolved e.path

end PatchError

end MarkupSync
