import MarkupSync.Script.Types

/-!
# Functions and classes

* `bindingOf`: the patterns that variables are bound by;
* `parameters`, `functionBody`, `functionOf`: functions;
* `classOf`: classes and their members.
-/

namespace MarkupSync.Script

open Rule

variable (r : Phrases)

/-- Phrases in which `in` is an operator. -/
def allowingIn {α : Type} (p : Rule α) : Rule α :=
  inSetting (fun s => { s with allowsIn := true, arrowTypes := true }) p

/-! ## Patterns -/

/-- The name of a property: its text, unless it is computed. -/
def propertyName : Rule (Option Text) := do
  let c ← cursor
  match c.word with
  | .name text _ =>
    advance
    return some text
  | .string content =>
    advance
    return some content
  | .number =>
    advance
    return none
  | .sign ['['] =>
    advance
    let key ← cursor
    let _ ← allowingIn r.assignment
    sign "]"
    match key.word with
    | .string content => return if key.next.isSign "]" then some content else none
    | .template true content => return if key.next.isSign "]" then some content else none
    | _ => return none
  | _ => refuse

/-- A default value, if there is one. -/
def defaultValue : Rule Unit := do
  if ← takeSign "=" then
    let _ ← allowingIn r.assignment

/-- A member of an object pattern. -/
def boundProperty : Rule Unit := do
  if ← takeSign "..." then
    let _ ← r.binding
    check (← isSign "\x7d")
  else
    let c ← cursor
    let _ ← propertyName r
    if ← takeSign ":" then
      let _ ← r.binding
    else
      let stop ← cursor
      goto c
      let _ ← identifier
      goto stop
    defaultValue r

/-- An item of an array pattern. -/
def boundItem : Rule Unit := do
  if ← isSign "," then pure ()
  else if ← takeSign "..." then
    let _ ← r.binding
    check (← isSign "]")
  else
    let _ ← r.binding
    defaultValue r

/-- A variable, an object pattern or an array pattern; the name of a variable. -/
def bindingOf : Rule (Option Text) := do
  if ← takeSign "\x7b" then
    let _ ← listUntil "\x7d" (boundProperty r)
    return none
  else if ← takeSign "[" then
    let _ ← listUntil "]" (boundItem r)
    return none
  else return some (← identifier)

/-! ## Functions -/

/-- A decorator. -/
def decorator : Rule Unit := do
  sign "@"
  let _ ← r.unary

/-- The words that may stand in front of a parameter of a constructor. -/
def parameterModifier : Rule Unit := do
  let c ← cursor
  check (["public", "private", "protected", "readonly", "override"].any c.isName)
  check (c.next.isAnyName || c.next.isSign "\x7b" || c.next.isSign "[")
  advance

/-- A parameter. -/
def parameter : Rule Unit := do
  let _ ← many (decorator r)
  let typed := (← setting).typed
  if typed then
    let _ ← many parameterModifier
  if ← takeSign "..." then
    let _ ← r.binding
    annotation r
    check (← isSign ")")
  else
    if typed && (← isName "this") then advance
    else
      let _ ← r.binding
    if typed then
      let _ ← takeSign "?"
    annotation r
    defaultValue r

/-- A parameter list in parentheses. -/
def parameters : Rule Unit := do
  sign "("
  let _ ← allowingIn (listUntil ")" (parameter r))

/-- The setting of a function body. -/
def inFunctionBody (isAsync isGenerator : Bool) (s : Setting) : Setting :=
  { s with
    topLevel := false, inFunction := true, isAsync, isGenerator, allowsIn := true, arrowTypes := true }

/-- Statements in braces. -/
def statementsInBraces : Rule (List Stmt) := do
  sign "\x7b"
  let statements ← manyTill (·.isSign "\x7d") r.statement
  advance
  return statements

/-- The body of a function. -/
def functionBody (isAsync isGenerator : Bool) : Rule (List Stmt) :=
  inSetting (inFunctionBody isAsync isGenerator) (statementsInBraces r)

/-- The setting of a parameter list. -/
def inParameters (isAsync isGenerator : Bool) (s : Setting) : Setting :=
  { s with isAsync, isGenerator }

/-- Type parameters, parameters and the type of the result. -/
def signature (isAsync isGenerator : Bool) : Rule Unit :=
  inSetting (inParameters isAsync isGenerator) do
    optionalTypeParameters r
    parameters r
    resultType r

/-- A function behind the word `function`: its name, and its body unless it is only declared. -/
def functionOf (isAsync needsName isDeclaration : Bool) :
    Rule (Option Text × Option (List Stmt)) := do
  let isGenerator ← takeSign "*"
  let name ←
    if ← isSign "(" then
      check !needsName
      pure none
    else if (← isSign "<") && !needsName then pure none
    else some <$> identifier
  signature r isAsync isGenerator
  if ← isSign "\x7b" then return (name, some (← functionBody r isAsync isGenerator))
  else
    check (isDeclaration && (← setting).typed)
    endStatement
    return (name, none)

/-- A method behind its name: its body, unless it is only declared. -/
def methodOf (isAsync isGenerator mayLackBody : Bool) : Rule (List Stmt) := do
  signature r isAsync isGenerator
  if ← isSign "\x7b" then functionBody r isAsync isGenerator
  else
    check (mayLackBody && (← setting).typed)
    endStatement
    return []

/-! ## Classes -/

/-- The signs that follow the name of a class member. -/
def endsClassMemberName (c : Cursor) : Bool :=
  c.isSign "(" || c.isSign "=" || c.isSign ";" || c.isSign "\x7d" || c.isSign ":" || c.isSign "?" ||
    c.isSign "!" || c.isSign "<"

/-- A word in front of the name of a class member. -/
def classModifier (typed : Bool) : Rule Text := do
  let c ← cursor
  let usual := ["static", "async", "get", "set", "accessor"].any c.isName
  let ofTypes := typed && ["public", "private", "protected", "readonly", "abstract", "override",
    "declare"].any c.isName
  check ((usual || ofTypes) && !endsClassMemberName c.next)
  check !(c.isName "static" && c.next.isSign "\x7b")
  anyName

/-- The value of a class field. -/
def fieldValue : Rule Unit :=
  inSetting (fun s => { s with isAsync := false, isGenerator := false }) (defaultValue r)

/-- A member of a class. -/
def classMember : Rule Unit := do
  if ← takeSign ";" then pure ()
  else
    let _ ← many (decorator r)
    let typed := (← setting).typed
    let modifiers ← many (classModifier typed)
    let c ← cursor
    if c.isName "static" && c.next.isSign "\x7b" then
      advance
      let _ ← functionBody r false false
    else
      let found ← optional do
        check typed
        indexSignature r
        endStatement
      if found.isNone then
        let isGenerator ← takeSign "*"
        let isAsync := modifiers.contains "async".toList
        let c ← cursor
        if c.word == .privateName then advance
        else
          let _ ← propertyName r
        if typed then
          if !(← takeSign "?") then
            let _ ← takeSign "!"
        if (← isSign "(") || (← isSign "<") then
          let _ ← methodOf r isAsync isGenerator true
        else
          check !isGenerator
          annotation r
          fieldValue r
          endStatement

/-- A class behind the word `class`. -/
def classOf (needsName : Bool) : Rule Unit := do
  let c ← cursor
  if c.isAnyName && !c.isName "extends" && !(c.isName "implements" && c.next.isAnyName) then
    let _ ← identifier
  else check !needsName
  optionalTypeParameters r
  if ← takeName "extends" then
    let _ ← r.unary
    ifTyped (optionalTypeArguments r)
  ifTyped do
    if ← takeName "implements" then
      let _ ← separated "," r.type
  sign "\x7b"
  let _ ← inSetting (fun s => { s with topLevel := false, allowsIn := true })
    (manyTill (·.isSign "\x7d") (classMember r))
  advance

end MarkupSync.Script
