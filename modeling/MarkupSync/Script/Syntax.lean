import MarkupSync.Text.Basic

/-!
# Syntax trees of script modules

What the search for a component's markup asks of a module; expressions and statements that it
never looks into are `other`.

* `Expr`, `Body`, `Property`: expressions, function bodies, members of object literals;
* `Stmt`, `Declarator`, `DefaultExport`: statements and declarations.
-/

namespace MarkupSync.Script

mutual

/-- An expression. -/
inductive Expr
  | identifier (name : Text)
  | parenthesized (e : Expr)
  | arrow (body : Body)
  | function (body : List Stmt)
  | call (arguments : List Expr)
  | object (properties : List Property)
  | array (items : List Expr)
  /-- `...e` among arguments or items. -/
  | spread (e : Expr)
  /-- `target = value`. -/
  | assignment (target : Expr)
  /-- `a.b` or `a[b]`. -/
  | member
  /-- An expression under a prefix operator. -/
  | prefixed
  /-- A JSX element or fragment, by its bytes. -/
  | markup (span : Span)
  | other

/-- The body of an arrow function. -/
inductive Body
  | expression (e : Expr)
  | block (statements : List Stmt)

/-- A member of an object literal. The name is missing if it is computed. -/
inductive Property
  | named (name : Option Text) (value : Expr)
  | spread (e : Expr)

/-- A statement. -/
inductive Stmt
  | expression (e : Expr)
  | returns (e : Option Expr)
  | function (name : Option Text) (body : Option (List Stmt))
  | variables (declarators : List Declarator)
  | exported (declaration : Stmt)
  | exportedDefault (e : DefaultExport)
  | other

/-- A declared variable. The name is missing if a pattern is declared. -/
inductive Declarator
  | mk (name : Option Text) (value : Option Expr)

/-- What a default export exports. -/
inductive DefaultExport
  | function (body : Option (List Stmt))
  | expression (e : Expr)
  | other

end

instance : Inhabited Expr := ⟨.other⟩

instance : Inhabited Stmt := ⟨.other⟩

namespace Expr

/-- An expression without the parentheses around it. -/
def bare : Expr → Expr
  | .parenthesized e => e.bare
  | e => e

/-- Whether an expression stands under a prefix operator. -/
def isPrefixed : Expr → Bool
  | .prefixed => true
  | _ => false

/-- Whether a single value can be assigned to an expression. -/
def isSimpleTarget (e : Expr) : Bool :=
  match e.bare with
  | .identifier _ | .member => true
  | _ => false

mutual

/-- Whether an expression is a target of assignments: a simple one, or a pattern of targets. -/
def isTarget : Expr → Bool
  | .identifier _ | .member => true
  | .parenthesized e => e.isSimpleTarget
  | .array items => areTargets items
  | .object properties => areTargetProperties properties
  | _ => false

/-- Whether an item of a pattern is a target, with a default value or the rest of the items. -/
def isTargetItem : Expr → Bool
  | .assignment _ => true
  | .spread e => isTarget e
  | .other => false
  | e => isTarget e

/-- Whether all items of an array are targets. -/
def areTargets : List Expr → Bool
  | [] => true
  | e :: es => isTargetItem e && areTargets es

/-- Whether all members of an object are targets. -/
def areTargetProperties : List Property → Bool
  | [] => true
  | .named _ e :: ps => isTargetItem e && areTargetProperties ps
  | .spread e :: ps => isTarget e && areTargetProperties ps

end

end Expr

end MarkupSync.Script
