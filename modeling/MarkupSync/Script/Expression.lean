import MarkupSync.Script.Function
import MarkupSync.Script.Markup

/-!
# Expressions

The productions of expressions, from literals to sequences.

* `primary`: literals, names, functions, classes, templates, markup;
* `chain`: calls and members; `unaryOf`, `binary`, `conditional`: operators;
* `arrowFunction`, `assignmentOf`, `expressionOf`.
-/

namespace MarkupSync.Script

open Rule

variable (r : Phrases)

/-! ## Literals -/

/-- An item of an array, or an argument. -/
def item : Rule Expr := do
  if ← takeSign "..." then return .spread (← r.assignment)
  else r.assignment

/-- An array behind its open bracket; items may be missing. -/
def arrayItems : Rule (List Expr) := do
  let items ← allowingIn (listUntil "]" do
    if ← isSign "," then return none
    else return some (← item r))
  return items.filterMap id

/-- The signs that follow the name of a member of an object. -/
def endsPropertyName (c : Cursor) : Bool :=
  c.isSign "(" || c.isSign "," || c.isSign ":" || c.isSign "\x7d" || c.isSign "=" || c.isSign "<"

/-- A word in front of the name of a method. -/
def methodModifier : Rule Text := do
  let c ← cursor
  check (["async", "get", "set"].any c.isName && !endsPropertyName c.next)
  anyName

/-- A member of an object. -/
def property : Rule Property := do
  if ← takeSign "..." then return .spread (← r.assignment)
  else
    let modifier ← optional methodModifier
    let isAsync := modifier == some "async".toList
    let isGenerator ← takeSign "*"
    let c ← cursor
    let name ← propertyName r
    if (← isSign "(") || (← isSign "<") then
      return .named name (.function (← methodOf r isAsync isGenerator false))
    else
      check (modifier.isNone && !isGenerator)
      if ← takeSign ":" then return .named name (← r.assignment)
      else
        let stop ← cursor
        goto c
        let variableName ← identifier
        goto stop
        if ← takeSign "=" then
          let _ ← r.assignment
          return .named name (.assignment (.identifier variableName))
        else return .named name (.identifier variableName)

/-- A regular expression. -/
def regex : Rule Unit := do
  let c ← cursor
  match c.text with
  | '/' :: s =>
    match regexEnd? s with
    | none => refuse
    | some rest => goto (c.skip (1 + (s.length - rest.length)))
  | _ => refuse

/-- Arguments in parentheses. -/
def arguments : Rule (List Expr) := do
  sign "("
  allowingIn (listUntil ")" (item r))

/-- A template in an expression. -/
def templateLiteral : Rule Unit := template do
  let _ ← allowingIn r.expression

/-- A function expression behind `function`. -/
def functionExpression (isAsync : Bool) : Rule Expr := do
  let (_, body) ← functionOf r isAsync false false
  return .function (body.getD [])

/-- An expression without operators and suffixes. -/
def primary : Rule Expr := do
  let c ← cursor
  match c.word with
  | .number | .string _ =>
    advance
    return .other
  | .template _ _ =>
    templateLiteral r
    return .other
  | .privateName =>
    advance
    check ((← setting).allowsIn && (← isName "in"))
    return .other
  | .sign ['('] =>
    advance
    let e ← allowingIn r.expression
    sign ")"
    return .parenthesized e
  | .sign ['['] =>
    advance
    return .array (← arrayItems r)
  | .sign ['\x7b'] =>
    advance
    return .object (← allowingIn (listUntil "\x7d" (property r)))
  | .sign ['<'] =>
    let span ← allowingIn r.markup
    check !(← isSign "<")
    return .markup span
  | .sign ['@'] =>
    let _ ← many (decorator r)
    keyword "class"
    classOf r false
    return .other
  | .sign _ =>
    regex
    return .other
  | .name _ _ =>
    if c.isName "function" then
      advance
      functionExpression r false
    else if c.isName "async" && c.next.isName "function" && !c.next.newline then
      advance
      advance
      functionExpression r true
    else if c.isName "class" then
      advance
      classOf r false
      return .other
    else if ["this", "null", "true", "false"].any c.isName then
      advance
      return .other
    else return .identifier (← identifier)
  | _ => refuse

/-! ## Calls and members -/

/-- A name behind a dot. -/
def dotName : Rule Unit := do
  let c ← cursor
  check (c.isAnyName || c.word == .privateName)
  advance

/-- The signs that may follow type arguments in an expression. -/
def followsTypeArguments (c : Cursor) : Bool :=
  match c.word with
  | .sign t =>
    !([['<'], ['>'], ['+'], ['-'], ['('], ['['], ['\x7b'], ['!'], ['~'], ['@']].contains t) ||
      t == ['(']
  | .template _ _ | .stop => true
  | .name _ _ => c.newline || ["in", "instanceof", "as", "satisfies"].any c.isName
  | _ => c.newline

/-- Type arguments in an expression. -/
def callTypeArguments : Rule Unit := do
  check (← setting).typed
  typeArguments r
  check (followsTypeArguments (← cursor))

/-- The phrases that go on a chain: the chain so far, and whether it has optional links. -/
def suffix (mayCall : Bool) (e : Expr) (isOptional : Bool) : Rule (Expr × Bool) := do
  let c ← cursor
  match c.word with
  | .sign ['.'] =>
    advance
    dotName
    return (if isOptional then .other else .member, isOptional)
  | .sign ['?', '.'] =>
    check mayCall
    advance
    let d ← cursor
    if d.isSign "(" then
      let _ ← arguments r
    else if d.isSign "[" then
      advance
      let _ ← allowingIn r.expression
      sign "]"
    else if d.isSign "<" then
      callTypeArguments r
      let _ ← arguments r
    else dotName
    return (.other, true)
  | .sign ['['] =>
    advance
    let _ ← allowingIn r.expression
    sign "]"
    return (if isOptional then .other else .member, isOptional)
  | .sign ['('] =>
    check mayCall
    let as ← arguments r
    return (if isOptional then .other else .call as, isOptional)
  | .sign ['!'] =>
    check ((← setting).typed && !c.newline)
    advance
    return (if e.isSimpleTarget then .member else .other, isOptional)
  | .sign ['<'] =>
    callTypeArguments r
    return (.other, isOptional)
  | .template _ _ =>
    check !isOptional
    templateLiteral r
    return (.other, isOptional)
  | _ => refuse

/-- All suffixes of an expression, `n` at most. -/
def suffixes (mayCall : Bool) (e : Expr) (isOptional : Bool) : Nat → Rule Expr
  | 0 => refuse
  | n + 1 => do
    match ← optional (suffix r mayCall e isOptional) with
    | none => return e
    | some (e, isOptional) => suffixes mayCall e isOptional n

/-- All suffixes of an expression. -/
def suffixesOf (mayCall : Bool) (e : Expr) : Rule Expr := fun s c =>
  suffixes r mayCall e false (c.text.length + 1) s c

/-- What `new` constructs; `n` bounds how often the word is repeated. -/
def construction : Nat → Rule Unit
  | 0 => refuse
  | n + 1 => do
    keyword "new"
    if ← takeSign "." then keyword "target"
    else
      if ← isName "new" then construction n
      else
        check !(← isName "import")
        let e ← primary r
        let _ ← suffixesOf r false e
      if ← isSign "(" then
        let _ ← arguments r
      else check !(← isSign "?.")

/-- What `import` imports while the module runs. -/
def importArguments : Rule Unit := do
  let as ← arguments r
  let isSpread : Expr → Bool
    | .spread _ => true
    | _ => false
  check (as.length == 1 || as.length == 2)
  check !(as.any isSpread)

/-- An expression with its calls and members. -/
def chain : Rule Expr := do
  let c ← cursor
  if c.isName "new" then
    construction r (c.text.length + 1)
    suffixesOf r true .other
  else if c.isName "super" then
    advance
    check ((← isSign "(") || (← isSign ".") || (← isSign "["))
    let e ← suffixesOf r true .other
    return match e with
      | .call _ => .other
      | e => e
  else if c.isName "import" then
    advance
    if ← takeSign "." then keyword "meta" else importArguments r
    suffixesOf r true .other
  else suffixesOf r true (← primary r)

/-! ## Operators -/

/-- The prefix operators that are words. -/
def prefixWords : List String := ["typeof", "void", "delete"]

/-- An expression under prefix and postfix operators. -/
def unaryOf : Rule Expr := do
  let c ← cursor
  if c.isSign "!" || c.isSign "~" || c.isSign "+" || c.isSign "-" || prefixWords.any c.isName then
    advance
    let _ ← r.unary
    return .prefixed
  else if c.isSign "++" || c.isSign "--" then
    advance
    let e ← r.unary
    check e.isSimpleTarget
    return .other
  else if c.isName "await" && (← setting).isAsync then
    advance
    let _ ← r.unary
    return .other
  else
    let e ← chain r
    let c ← cursor
    if (c.isSign "++" || c.isSign "--") && !c.newline then
      check e.isSimpleTarget
      advance
      return .other
    else return e

/-- The operators between two expressions that are single words of the text. -/
def plainOperators : List Text :=
  ["||".toList, "&&".toList, "??".toList, ['|'], ['^'], ['&'], "==".toList, "!=".toList,
    "===".toList, "!==".toList, ['<'], "<=".toList, "<<".toList, ['+'], ['-'], ['*'], ['/'], ['%'],
    "**".toList]

/-- The sign that starts with `>` at a place, as an operator. -/
def angleSign? (c : Cursor) : Option Text := angleSigns.find? (Text.startsWith · c.text)

/-- The operators that start with `>`. -/
def angleOperators : List Text := [">>>".toList, ">>".toList, ">=".toList, [ '>' ]]

/-- An operator between two expressions. -/
def operator : Rule Text := do
  let c ← cursor
  match c.word with
  | .sign ['>'] =>
    match angleSign? c with
    | none => refuse
    | some t =>
      check (angleOperators.contains t)
      goto (c.skip t.length)
      return t
  | .sign t =>
    check (plainOperators.contains t)
    advance
    return t
  | .name text _ =>
    check (c.isName "instanceof" || (c.isName "in" && (← setting).allowsIn))
    advance
    return text
  | _ => refuse

/-- `as T` and `satisfies T`. -/
def typeOperator : Rule Unit := do
  let c ← cursor
  check ((← setting).typed && !c.newline && (c.isName "as" || c.isName "satisfies"))
  advance
  if ← isName "const" then advance
  else r.type

/-- One operator with its right operand. -/
def operation : Rule Text := do
  let c ← cursor
  if c.isName "as" || c.isName "satisfies" then
    typeOperator r
    return "as".toList
  else
    let t ← operator
    let _ ← unaryOf r
    return t

/-- Whether coalescing stands next to a logical operator without parentheses. -/
def mixesCoalescing (operators : List Text) : Bool :=
  operators.contains "??".toList && (operators.contains "||".toList || operators.contains "&&".toList)

/-- Expressions joined by operators. -/
def binary : Rule Expr := do
  let e ← unaryOf r
  let operators ← many (operation r)
  check !(mixesCoalescing operators)
  if operators.isEmpty then return e
  else if operators.all (· == "as".toList) && e.isSimpleTarget then return .member
  else
    check !(operators.head? == some "**".toList && e.isPrefixed)
    return .other

/-- The consequence of a conditional and its colon. An arrow function there takes a colon for the
type of its result only if the colon of the conditional follows. -/
def consequence : Rule Unit :=
  let p := fun arrowTypes => inSetting (fun s => { s with arrowTypes, allowsIn := true }) do
    let _ ← r.assignment
  orElse
    (do
      p true
      sign ":")
    (do
      p false
      sign ":")

/-- A conditional, or an expression without one. -/
def conditional : Rule Expr := do
  let e ← binary r
  if ← takeSign "?" then
    consequence r
    let _ ← r.assignment
    return .other
  else return e

/-! ## Functions and assignments -/

/-- The body of an arrow function. -/
def arrowBody (isAsync : Bool) : Rule Body := do
  sign "=>"
  if ← isSign "\x7b" then return .block (← functionBody r isAsync false)
  else
    let e ← inSetting (fun s => { s with isAsync, isGenerator := false }) r.assignment
    return .expression e

/-- The parameters of an arrow function. -/
def arrowSignature (isAsync : Bool) : Rule Unit :=
  inSetting (inParameters isAsync false) do
    optionalTypeParameters r
    parameters r
    if (← setting).arrowTypes then resultType r

/-- Whether type parameters may start here, not markup. -/
def startsTypeParameters (c : Cursor) : Bool :=
  c.isSign "<" &&
    (c.next.isName "const" ||
      (c.next.isAnyName &&
        (c.next.next.isSign "," || c.next.next.isSign "=" || c.next.next.isName "extends")))

/-- An arrow function. -/
def arrowFunction : Rule Expr := do
  let c ← cursor
  let isAsync := c.isName "async" && !c.next.newline &&
    (c.next.isSign "(" || c.next.isSign "<" || c.next.isAnyName) && !c.next.isSign "=>"
  if isAsync then advance
  let d ← cursor
  if d.isAnyName then
    let _ ← inSetting (inParameters isAsync false) identifier
  else
    check (d.isSign "(" ||
      ((← setting).typed && ((isAsync && d.isSign "<") || startsTypeParameters d)))
    arrowSignature r isAsync
  sameLine
  return .arrow (← arrowBody r isAsync)

/-- The assignment operators that need a simple target. -/
def assignmentOperators : List Text :=
  ["+=".toList, "-=".toList, "*=".toList, "/=".toList, "%=".toList, "**=".toList, "<<=".toList,
    "&=".toList, "|=".toList, "^=".toList, "&&=".toList, "||=".toList, "??=".toList]

/-- The assignment operators that start with `>`. -/
def angleAssignments : List Text := [">>=".toList, ">>>=".toList]

/-- An assignment operator that needs a simple target. -/
def updateOperator : Rule Unit := do
  let c ← cursor
  match c.word with
  | .sign ['>'] =>
    match angleSign? c with
    | none => refuse
    | some t =>
      check (angleAssignments.contains t)
      goto (c.skip t.length)
  | .sign t =>
    check (assignmentOperators.contains t)
    advance
  | _ => refuse

/-- `yield`. -/
def yielding : Rule Expr := do
  check (← setting).isGenerator
  keyword "yield"
  let c ← cursor
  if !c.newline then
    if ← takeSign "*" then
      let _ ← r.assignment
    else if !([")", "]", "\x7d", ",", ";", ":"].any c.isSign || c.word == .stop || c.isName "in") then
      let _ ← r.assignment
  return .other

/-- An assignment, or an expression without one. -/
def plainAssignment : Rule Expr := do
  let e ← conditional r
  if ← isSign "=" then
    check e.isTarget
    advance
    let _ ← r.assignment
    return .assignment e
  else
    match ← optional updateOperator with
    | some _ =>
      check e.isSimpleTarget
      let _ ← r.assignment
      return .other
    | none => return e

/-- An expression without commas. -/
def assignmentOf : Rule Expr := do
  let c ← cursor
  let mayBeArrow := c.isSign "(" || c.isSign "<" || (c.isAnyName &&
    (c.next.isSign "=>" || (c.isName "async" && !c.next.newline)))
  if c.isName "yield" && (← setting).isGenerator then yielding r
  else if mayBeArrow then orElse (arrowFunction r) (plainAssignment r)
  else plainAssignment r

/-- Expressions with commas between them. -/
def expressionOf : Rule Expr := do
  match ← separated "," (assignmentOf r) with
  | [e] => return e
  | _ => return .other

end MarkupSync.Script
