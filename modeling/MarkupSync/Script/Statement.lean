import MarkupSync.Script.Expression

/-!
# Statements and modules

* `variableStatement`, `loop`, `branches`: variables, loops and switches;
* `importStatement`, `exportStatement`: what only modules contain;
* `typeStatement`: interfaces, enums, aliases and namespaces;
* `statementOf`: a statement of any kind;
* `phrases`: the grammar, to a given depth of nested phrases;
* `readModule?`: the statements of a module, in the plain language or else with types.
-/

namespace MarkupSync.Script

open Rule

variable (r : Phrases)

/-! ## Variables -/

/-- A declared variable or pattern. Constants and patterns need a value unless the context gives
them one. -/
def declarator (isConstant mayLackValue : Bool) : Rule Declarator := do
  let s ← setting
  let name ← r.binding
  if s.typed then
    let _ ← takeSign "!"
  annotation r
  if ← takeSign "=" then return .mk name (some (← r.assignment))
  else
    check (mayLackValue || s.isAmbient || (!isConstant && name.isSome))
    return .mk name none

/-- Whether variables are declared here by `let`. -/
def startsLet (c : Cursor) : Bool :=
  c.isName "let" && (c.next.isAnyName || c.next.isSign "[" || c.next.isSign "\x7b") &&
    !c.next.isName "in" && !c.next.isName "instanceof"

/-- Whether resources are declared here by `using`. -/
def startsUsing (c : Cursor) : Bool :=
  c.isName "using" && c.next.isAnyName && !c.next.newline &&
    !(["in", "of", "instanceof", "as", "satisfies"].any c.next.isName)

/-- Whether variables are declared here. -/
def startsVariables (c : Cursor) : Bool :=
  c.isName "var" || c.isName "const" || startsLet c || startsUsing c ||
    (c.isName "await" && startsUsing c.next && !c.next.newline)

/-- The word that declares variables; whether it declares constants. -/
def variableWord : Rule Bool := do
  let _ ← takeName "await"
  let isConstant := (← isName "const") || (← isName "using")
  advance
  return isConstant

/-- A list of declared variables with its end. -/
def variableStatement : Rule Stmt := do
  let isConstant ← variableWord
  let declarators ← separated "," (declarator r isConstant false)
  endStatement
  return .variables declarators

/-! ## Loops and branches -/

/-- An expression in parentheses. -/
def condition : Rule Unit := do
  sign "("
  let _ ← allowingIn r.expression
  sign ")"

/-- Whether a declaration starts here that needs a block around it. -/
def needsBlock (c : Cursor) : Bool :=
  c.isName "class" || c.isSign "@" || (startsVariables c && !c.isName "var") ||
    (c.isName "function" && c.next.isSign "*") ||
    (c.isName "async" && c.next.isName "function" && !c.next.newline)

/-- A statement inside another. -/
def innerStatement : Rule Unit := do
  check !(needsBlock (← cursor))
  let _ ← inSetting (fun s => { s with topLevel := false }) r.statement

/-- The part of a `for` head behind its first semicolon. -/
def forRest : Rule Unit := do
  if !(← isSign ";") then
    let _ ← r.expression
  sign ";"
  if !(← isSign ")") then
    let _ ← r.expression

/-- `in` or `of` with what is iterated over. -/
def forRange : Rule Unit := do
  if ← takeName "in" then
    let _ ← allowingIn r.expression
  else
    keyword "of"
    let _ ← allowingIn r.assignment

/-- What follows the start of a `for` head. -/
def forTail (mayIterate mayCount : Bool) : Rule Unit := do
  if (← isName "of") || (← isName "in") then
    check mayIterate
    forRange r
  else
    check mayCount
    sign ";"
    allowingIn (forRest r)

/-- Whether all variables have the values that a counting loop needs. -/
def areInitialized (isConstant : Bool) (ds : List Declarator) : Bool :=
  ds.all fun
    | .mk _ (some _) => true
    | .mk name none => !isConstant && name.isSome

/-- The head of a `for` loop in its parentheses. -/
def forHead : Rule Unit := do
  let c ← cursor
  if c.isSign ";" then
    advance
    forRest r
  else if startsVariables c then
    let isConstant ← variableWord
    let ds ← inSetting (fun s => { s with allowsIn := false })
      (separated "," (declarator r isConstant true))
    forTail r (ds.length == 1) (areInitialized isConstant ds)
  else
    let e ← inSetting (fun s => { s with allowsIn := false }) r.expression
    forTail r e.isTarget true

/-- A loop. -/
def loop : Rule Unit := do
  if ← takeName "for" then
    let _ ← takeName "await"
    sign "("
    forHead r
    sign ")"
    innerStatement r
  else if ← takeName "while" then
    condition r
    innerStatement r
  else
    keyword "do"
    innerStatement r
    keyword "while"
    condition r
    let _ ← takeSign ";"

/-- A choice between two statements. -/
def choice : Rule Unit := do
  keyword "if"
  condition r
  innerStatement r
  if ← takeName "else" then innerStatement r

/-- A case of a switch with its statements. -/
def switchCase : Rule Bool := do
  let isDefault ← takeName "default"
  if !isDefault then
    keyword "case"
    let _ ← r.expression
  sign ":"
  let _ ← manyTill (fun c => c.isName "case" || c.isName "default" || c.isSign "\x7d") r.statement
  return isDefault

/-- A switch. -/
def branches : Rule Unit := do
  keyword "switch"
  condition r
  sign "\x7b"
  let defaults ← inSetting (fun s => { s with topLevel := false })
    (manyTill (·.isSign "\x7d") (switchCase r))
  check (defaults.count true ≤ 1)
  advance

/-- Statements in braces. -/
def block : Rule Unit := do
  let _ ← inSetting (fun s => { s with topLevel := false }) (statementsInBraces r)

/-- A block whose errors are caught. -/
def guarded : Rule Unit := do
  keyword "try"
  block r
  let catches ← takeName "catch"
  if catches then
    if ← takeSign "(" then
      let _ ← r.binding
      annotation r
      sign ")"
    block r
  let isFinal ← takeName "finally"
  if isFinal then block r
  check (catches || isFinal)

/-! ## Jumps -/

/-- A jump that may name a label. -/
def jump : Rule Unit := do
  advance
  let c ← cursor
  if c.isAnyName && !c.newline then
    let _ ← identifier
  endStatement

/-- A return from a function. -/
def returning : Rule Stmt := do
  check (← setting).inFunction
  keyword "return"
  let c ← cursor
  if c.isSign ";" || c.isSign "\x7d" || c.newline || c.word == .stop then
    endStatement
    return .returns none
  else
    let e ← r.expression
    endStatement
    return .returns (some e)

/-- A thrown error. -/
def throwing : Rule Unit := do
  keyword "throw"
  sameLine
  let _ ← r.expression
  endStatement

/-! ## Types -/

/-- A member of an enumeration; its name is no number. -/
def enumMember : Rule Unit := do
  check ((← cursor).word != .number)
  let _ ← propertyName r
  if ← takeSign "=" then
    let _ ← r.assignment

/-- An enumeration. -/
def enumeration : Rule Unit := do
  let _ ← takeName "const"
  keyword "enum"
  let _ ← identifier
  sign "\x7b"
  let _ ← listUntil "\x7d" (enumMember r)

/-- An interface. -/
def interfaceStatement : Rule Unit := do
  keyword "interface"
  sameLine
  let _ ← identifier
  optionalTypeParameters r
  if ← takeName "extends" then
    let _ ← separated "," do
      namedType r
  objectType r

/-- A name for a type. -/
def typeAlias : Rule Unit := do
  keyword "type"
  sameLine
  let _ ← identifier
  optionalTypeParameters r
  sign "="
  r.type
  endStatement

/-- A namespace or a module with its statements. -/
def namespaceStatement : Rule Unit := do
  let c ← cursor
  advance
  match (← cursor).word with
  | .string _ =>
    check (c.isName "module")
    advance
  | _ =>
    if !c.isName "global" then
      sameLine
      let _ ← separated "." identifier
  if (← isSign "\x7b") then
    let _ ← inSetting (fun s => { s with topLevel := true }) (statementsInBraces r)
  else
    check (c.isName "module")
    endStatement

/-- Whether a namespace starts here. -/
def startsNamespace (c : Cursor) : Bool :=
  let isNamed := c.next.isAnyName && !c.next.newline
  let isText := match c.next.word with
    | .string _ => true
    | _ => false
  (c.isName "namespace" && isNamed) || (c.isName "module" && (isNamed || isText)) ||
    (c.isName "global" && c.next.isSign "\x7b")

/-- Whether a declaration of types starts here. -/
def startsTypeStatement (c : Cursor) : Bool :=
  c.isName "enum" || (c.isName "const" && c.next.isName "enum") ||
    ((c.isName "interface" || c.isName "type") && c.next.isAnyName && !c.next.newline) ||
    startsNamespace c

/-- A declaration of types. -/
def typeStatement : Rule Unit := do
  let c ← cursor
  if c.isName "interface" then interfaceStatement r
  else if c.isName "type" then typeAlias r
  else if startsNamespace c then namespaceStatement r
  else enumeration r

/-! ## Modules -/

/-- The name of an import or an export, which may be a string. -/
def moduleName : Rule Unit := do
  let c ← cursor
  match c.word with
  | .name _ _ | .string _ => advance
  | _ => refuse

/-- The word `type` in front of a name in a list of imports or exports. -/
def typeModifier : Rule Unit := do
  let c ← cursor
  if (← setting).typed && c.isName "type" && !c.next.isSign "," && !c.next.isSign "\x7d" &&
      !(c.next.isName "as" && !(c.next.next.isName "as")) then
    advance

/-- `a`, `a as b`, `type a` or `type a as b` in a list of imports; the last name is bound here. -/
def importSpecifier : Rule Unit := do
  typeModifier
  let c ← cursor
  moduleName
  if !(← takeName "as") then goto c
  let _ ← identifier

/-- The same in a list of exports; whether the first name can be bound here. -/
def exportSpecifier : Rule Bool := do
  typeModifier
  let isBound := (← ahead identifier).isSome
  moduleName
  if ← takeName "as" then moduleName
  return isBound

/-- A list of imports in braces. -/
def importList : Rule Unit := do
  sign "\x7b"
  let _ ← listUntil "\x7d" importSpecifier

/-- The name of a module. -/
def sourceName : Rule Unit := do
  match (← cursor).word with
  | .string _ => advance
  | _ => refuse
  if (← isName "with") || (← isName "assert") then
    advance
    sign "\x7b"
    let _ ← listUntil "\x7d" do
      moduleName
      sign ":"
      match (← cursor).word with
      | .string _ => advance
      | _ => refuse

/-- `from` and the name of a module. -/
def fromSource : Rule Unit := do
  keyword "from"
  sourceName

/-- All exports of a module under a name. -/
def namespaceImport : Rule Unit := do
  sign "*"
  keyword "as"
  let _ ← identifier

/-- What an import binds. -/
def importClause : Rule Unit := do
  if ← isSign "\x7b" then importList
  else if ← isSign "*" then namespaceImport
  else
    let _ ← identifier
    if ← takeSign "," then
      if ← isSign "*" then namespaceImport else importList

/-- `= a.b` or `= require('m')`. -/
def importAlias : Rule Unit := do
  let _ ← identifier
  sign "="
  let _ ← separated "." anyName
  if ← takeSign "(" then
    match (← cursor).word with
    | .string _ => advance
    | _ => refuse
    sign ")"

/-- An import. -/
def importStatement : Rule Unit := do
  check (← setting).topLevel
  keyword "import"
  let typed := (← setting).typed
  let c ← cursor
  match c.word with
  | .string _ => sourceName
  | _ =>
    if typed && c.isName "type" && !c.next.isName "from" && !c.next.isSign "," &&
        !c.next.isSign "=" then
      advance
    orElse
      (do
        importClause
        fromSource)
      (do
        check typed
        importAlias)
  endStatement

/-- A class statement, with its decorators. -/
def classStatement (needsName : Bool) : Rule Unit := do
  let _ ← many (decorator r)
  if (← setting).typed then
    let _ ← takeName "abstract"
  keyword "class"
  classOf r needsName

/-- Whether a class starts here. -/
def startsClass (typed : Bool) (c : Cursor) : Bool :=
  c.isName "class" || c.isSign "@" || (typed && c.isName "abstract" && c.next.isName "class")

/-- Whether an asynchronous function starts here. -/
def startsAsyncFunction (c : Cursor) : Bool :=
  c.isName "async" && c.next.isName "function" && !c.next.newline

/-- A function statement. -/
def functionStatement (needsName : Bool) : Rule (Option Text × Option (List Stmt)) := do
  let isAsync ← takeName "async"
  keyword "function"
  functionOf r isAsync needsName true

/-- A declaration: variables, a function, a class or types. -/
def declaration : Rule Stmt := do
  let c ← cursor
  let typed := (← setting).typed
  if typed && startsTypeStatement c then
    typeStatement r
    return .other
  else if startsVariables c then variableStatement r
  else if c.isName "function" || startsAsyncFunction c then
    let (name, body) ← functionStatement r true
    return .function name body
  else
    check (startsClass typed c)
    classStatement r true
    return .other

/-- A declaration of something that exists elsewhere. -/
def ambientDeclaration : Rule Stmt := do
  keyword "declare"
  sameLine
  inSetting (fun s => { s with isAmbient := true }) (declaration r)

/-- A declaration, here or elsewhere. -/
def anyDeclaration : Rule Stmt := do
  if (← setting).typed && (← isName "declare") then ambientDeclaration r
  else declaration r

/-- What a default export exports. -/
def defaultExport : Rule DefaultExport := do
  let c ← cursor
  let typed := (← setting).typed
  if c.isName "function" || startsAsyncFunction c then
    let (_, body) ← functionStatement r false
    return .function body
  else if startsClass typed c then
    classStatement r false
    return .other
  else if typed && c.isName "interface" && c.next.isAnyName && !c.next.newline then
    interfaceStatement r
    return .other
  else
    let e ← r.assignment
    endStatement
    return .expression e

/-- An export of several names, which are bound here or come from another module, or of everything
in a module. -/
def exportList : Rule Unit := do
  if ← takeSign "*" then
    if ← takeName "as" then moduleName
    fromSource
  else
    sign "\x7b"
    let areBound ← listUntil "\x7d" exportSpecifier
    if ← isName "from" then fromSource else check (areBound.all id)
  endStatement

/-- An export. -/
def exportStatement : Rule Stmt := do
  check (← setting).topLevel
  keyword "export"
  let c ← cursor
  let typed := (← setting).typed
  if c.isName "default" then
    advance
    return .exportedDefault (← defaultExport r)
  else if c.isSign "*" || c.isSign "\x7b" then
    exportList
    return .other
  else if typed && c.isName "type" && (c.next.isSign "*" || c.next.isSign "\x7b") then
    advance
    exportList
    return .other
  else if typed && c.isSign "=" then
    advance
    let _ ← r.expression
    endStatement
    return .other
  else if typed && c.isName "as" && c.next.isName "namespace" then
    advance
    advance
    let _ ← identifier
    endStatement
    return .other
  else if typed && c.isName "import" then
    advance
    importAlias
    endStatement
    return .other
  else return .exported (← anyDeclaration r)

/-! ## All statements -/

/-- A label with its statement, or an expression. -/
def expressionStatement : Rule Stmt := do
  let c ← cursor
  if c.isAnyName && c.next.isSign ":" then
    let _ ← identifier
    sign ":"
    innerStatement r
    return .other
  else
    let e ← r.expression
    endStatement
    return .expression e

/-- Whether an import starts here that is no expression. -/
def startsImport (c : Cursor) : Bool :=
  c.isName "import" && !c.next.isSign "(" && !c.next.isSign "."

/-- Whether a declaration of something that exists elsewhere starts here. -/
def startsAmbient (c : Cursor) : Bool :=
  c.isName "declare" && !c.next.newline &&
    (startsVariables c.next || startsTypeStatement c.next || startsClass true c.next ||
      c.next.isName "function" || startsAsyncFunction c.next)

/-- A statement that is told by its first word and leaves nothing in the syntax tree. -/
def plainStatement : Rule Unit := do
  let c ← cursor
  if c.isSign ";" then advance
  else if c.isSign "\x7b" then block r
  else if c.isName "if" then choice r
  else if c.isName "for" || c.isName "while" || c.isName "do" then loop r
  else if c.isName "switch" then branches r
  else if c.isName "try" then guarded r
  else if c.isName "throw" then throwing r
  else if c.isName "break" || c.isName "continue" then jump
  else if c.isName "debugger" then
    advance
    endStatement
  else
    keyword "with"
    condition r
    innerStatement r

/-- The words that start plain statements. -/
def plainWords : List String :=
  ["if", "for", "while", "do", "switch", "try", "throw", "break", "continue", "debugger", "with"]

/-- A statement. -/
def statementOf : Rule Stmt := do
  let c ← cursor
  let typed := (← setting).typed
  if c.isSign ";" || c.isSign "\x7b" || plainWords.any c.isName then
    plainStatement r
    return .other
  else if c.isName "return" then returning r
  else if startsImport c then
    importStatement
    return .other
  else if c.isName "export" then exportStatement r
  else if typed && startsAmbient c then ambientDeclaration r
  else if startsVariables c || c.isName "function" || startsAsyncFunction c || startsClass typed c ||
      (typed && startsTypeStatement c) then
    if c.isSign "@" && !(← Rule.ahead (classStatement r true)).isSome then
      let _ ← many (decorator r)
      exportStatement r
    else declaration r
  else expressionStatement r

/-! ## Modules as a whole -/

/-- The grammar, with phrases nested `n` deep. -/
def phrases : Nat → Phrases
  | 0 => Phrases.none
  | n + 1 =>
    let r := phrases n
    ⟨expressionOf r, assignmentOf r, unaryOf r, statementOf r, bindingOf r, typeOf r, markupOf r⟩

/-- How deep the phrases of a text may nest: a phrase may start with one of another kind, but
phrases of the same kind that start together do not nest. -/
def depthBound (s : Text) : Nat := 4 * (s.length + 2)

/-- The setting in which a module starts. -/
def Setting.ofModule (typed : Bool) : Setting where
  typed
  topLevel := true
  inFunction := false
  isAsync := true
  isGenerator := false
  allowsIn := true
  arrowTypes := true
  isAmbient := false

/-- The statements of a module. -/
def statements? (typed : Bool) (s : Text) : Option (List Stmt) :=
  (Rule.manyTill (·.word == .stop) (phrases (depthBound s)).statement (.ofModule typed)
    (.ofModule s)).map Prod.fst

/-- The statements of a module: in the plain language, or with types if that fails. -/
def readModule? (s : Text) : Option (List Stmt) := (statements? false s).or (statements? true s)

end MarkupSync.Script
