import MarkupSync.Document.Read
import MarkupSync.Script.Statement

/-!
# The component of a module

A script module renders the markup that its component returns. The component is the default
export, or else the last declaration at the top level that returns markup.

* `Expr.markup?`, `finalMarkup?`: the markup that an expression is, and that a function returns;
* `Declared.markup?`: the markup of a component, through wrappers and names;
* `locateMarkup`: the bytes of a module's markup;
* `Document.readScript`: the document of a module.
-/

namespace MarkupSync.Script

/-- The bytes of the markup that an expression is, up to parentheses. -/
def Expr.markup? (e : Expr) : Option Span :=
  match e.bare with
  | .markup span => some span
  | _ => none

/-- What a statement returns, if it is a return. -/
def Stmt.returned? : Stmt → Option (Option Expr)
  | .returns e => some e
  | _ => none

/-- The markup of the last return among the statements of a body. A return inside another
statement is a guard and does not count. -/
def finalMarkup? (body : List Stmt) : Option Span :=
  match body.reverse.findSome? Stmt.returned? with
  | some (some e) => e.markup?
  | _ => none

/-- A binding at the top level of a module. -/
inductive Declared
  | function (name : Option Text) (body : Option (List Stmt))
  | bound (name : Option Text) (value : Option Expr)

namespace Declared

/-- The name of a binding. -/
def name : Declared → Option Text
  | function name _ => name
  | bound name _ => name

/-- The bindings that a declaration makes. -/
def ofDeclaration : Stmt → List Declared
  | .function name body => [.function name body]
  | .variables declarators => declarators.map fun (.mk name value) => .bound name value
  | _ => []

/-- The bindings that a statement makes. -/
def ofStatement : Stmt → List Declared
  | .exported declaration => ofDeclaration declaration
  | statement => ofDeclaration statement

end Declared

/-- The member that renders a component. -/
def renderName : Text := "render".toList

/-- How many wrappers and bound values lead to a component at most. -/
def maxIndirections : Nat := 8

/-- The argument of a call, unless it is spread. -/
def plainArgument? : Expr → Option Expr
  | .spread _ => none
  | e => some e

/-- The value of the member that renders a component. -/
def renderValue? : Property → Option Expr
  | .named name value => if name = some renderName then some value else none
  | .spread _ => none

/-- The markup of a component: of a function, of a call such as `memo(Card)`, of an object with a
render method, or of what a name is bound to. From here `n` wrappers and bound values may follow. -/
def componentOf? (declared : List Declared) : Nat → Expr → Option Span
  | n, e =>
    match e.bare with
    | .arrow (.expression e) => e.markup?
    | .arrow (.block body) | .function body => finalMarkup? body
    | .call arguments =>
      match n with
      | 0 => none
      | n + 1 => (arguments.reverse.filterMap plainArgument?).findSome? (componentOf? declared n)
    | .object properties =>
      match n with
      | 0 => none
      | n + 1 => (properties.filterMap renderValue?).findSome? (componentOf? declared n)
    | .identifier name =>
      match declared.find? (·.name == some name), n with
      | some (.function _ body), _ => body.bind finalMarkup?
      | some (.bound _ value), n + 1 => value.bind (componentOf? declared n)
      | _, _ => none
    | _ => none

/-- The markup of a binding. -/
def Declared.markup? (declared : List Declared) : Declared → Option Span
  | .function _ body => body.bind finalMarkup?
  | .bound _ value => value.bind (componentOf? declared maxIndirections)

/-- What a statement exports by default. -/
def Stmt.defaultExport? : Stmt → Option DefaultExport
  | .exportedDefault e => some e
  | _ => none

/-- The markup of a default export. -/
def DefaultExport.markup? (declared : List Declared) : DefaultExport → Option Span
  | .function body => body.bind finalMarkup?
  | .expression e => componentOf? declared maxIndirections e
  | .other => none

/-- The markup that a module renders. -/
def moduleMarkup? (statements : List Stmt) : Option Span :=
  let declared := statements.flatMap Declared.ofStatement
  ((statements.findSome? Stmt.defaultExport?).bind (DefaultExport.markup? declared)).or
    (declared.reverse.findSome? (Declared.markup? declared))

/-- The bytes of the markup that a module renders. -/
def locateMarkup (s : Text) : Except ParseError Span :=
  match readModule? s with
  | none => .error ⟨.invalidScript, 0⟩
  | some statements =>
    match moduleMarkup? statements with
    | none => .error ⟨.noMarkup, 0⟩
    | some span => .ok span

end MarkupSync.Script

namespace MarkupSync

/-- The document of the markup that a module renders, and the bytes of that markup. -/
def Document.readScript (s : Text) : Except ParseError (Document × Span) :=
  match Script.locateMarkup s with
  | .error e => .error e
  | .ok region =>
    match Document.readRootWithin .jsx region s with
    | .error e => .error e
    | .ok (d, stop) => .ok (d, ⟨region.start, stop⟩)

end MarkupSync
