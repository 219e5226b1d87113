import MarkupSync.Script.Rule

/-!
# Types

The productions of type annotations. Types leave nothing in the syntax tree.

* `typeOf`: a type;
* `annotation`, `resultType`: what follows the colon of a variable and of a parameter list;
* `typeParameters`, `typeArguments`: lists in angle brackets.
-/

namespace MarkupSync.Script

open Rule

variable (r : Phrases)

/-- `<A, B>`. -/
def typeArguments : Rule Unit := do
  sign "<"
  let _ ← separated "," r.type
  sign ">"

/-- Type arguments, if there are any. -/
def optionalTypeArguments : Rule Unit := do
  if ← isSign "<" then typeArguments r

/-- `in`, `out` and `const` in front of a type parameter. -/
def typeParameterModifier : Rule Unit := do
  let c ← cursor
  check (c.isName "in" || c.isName "out" || c.isName "const")
  check c.next.isAnyName
  advance

/-- A type parameter with its bound and its default. -/
def typeParameter : Rule Unit := do
  let _ ← many typeParameterModifier
  let _ ← identifier
  if ← takeName "extends" then r.type
  if ← takeSign "=" then r.type

/-- `<A extends B = C, D>`. -/
def typeParameters : Rule Unit := do
  sign "<"
  let ps ← listUntil ">" (typeParameter r)
  check !ps.isEmpty

/-- Read a phrase if types may be used. -/
def ifTyped (p : Rule Unit) : Rule Unit := do
  if (← setting).typed then p

/-- Type parameters, if there are any and types may be used. -/
def optionalTypeParameters : Rule Unit := ifTyped do
  if ← isSign "<" then typeParameters r

/-- `: T`, if types may be used and there is one. -/
def annotation : Rule Unit := ifTyped do
  if ← takeSign ":" then r.type

/-- A result: a type, `x is T`, `asserts x` or `asserts x is T`. -/
def resultOf : Rule Unit :=
  orElse
    (do
      keyword "asserts"
      sameLine
      let _ ← anyName
      if ← takeName "is" then r.type)
    (orElse
      (do
        let _ ← anyName
        sameLine
        keyword "is"
        r.type)
      r.type)

/-- `: T` behind a parameter list. -/
def resultType : Rule Unit := ifTyped do
  if ← takeSign ":" then resultOf r

/-- A parameter of a function type. -/
def typeOfParameter : Rule Unit := do
  let _ ← takeSign "..."
  if ← isName "this" then advance
  else
    let _ ← r.binding
  let _ ← takeSign "?"
  if ← takeSign ":" then r.type

/-- The parameters of a function type. -/
def typedParameters : Rule Unit := do
  sign "("
  let _ ← listUntil ")" (typeOfParameter r)

/-- `(a: A) => B`. -/
def functionType : Rule Unit := do
  if ← isSign "<" then typeParameters r
  typedParameters r
  sign "=>"
  resultOf r

/-- `new (a: A) => B`. -/
def constructorType : Rule Unit := do
  let _ ← takeName "abstract"
  keyword "new"
  functionType r

/-- `A.B<C>`. -/
def namedType : Rule Unit := do
  let _ ← anyName
  let _ ← many do
    sign "."
    anyName
  if !(← cursor).newline then optionalTypeArguments r

/-- `typeof a.b`. -/
def queryType : Rule Unit := do
  keyword "typeof"
  let _ ← anyName
  if ← takeSign "(" then
    r.type
    sign ")"
  let _ ← many do
    sign "."
    let c ← cursor
    check (c.isAnyName || c.word == .privateName)
    advance
  if !(← cursor).newline then optionalTypeArguments r

/-- `import('m').A`. -/
def importType : Rule Unit := do
  keyword "import"
  sign "("
  let _ ← listUntil ")" r.type
  let _ ← many do
    sign "."
    anyName
  optionalTypeArguments r

/-- The rest of a template behind an expression or a type: what stands in braces is read by `p`,
`n` times at most. -/
def templateRest (p : Rule Unit) : Nat → Rule Unit
  | 0 => refuse
  | n + 1 => do
    p
    let c ← cursor
    check (c.isSign "\x7d")
    match templateEnd? (c.text.drop 1) with
    | none => refuse
    | some (isWhole, content, _) =>
      goto (c.skip (1 + content.length + if isWhole then 1 else 2))
      if isWhole then pure () else templateRest p n

/-- A template in which what stands in braces is read by `p`. -/
def template (p : Rule Unit) : Rule Unit := do
  let c ← cursor
  match c.word with
  | .template isWhole _ =>
    advance
    if isWhole then pure () else templateRest p c.text.length
  | _ => refuse

/-- A name, a string, a number or `[computed]`. -/
def typeMemberName : Rule Unit := do
  let c ← cursor
  match c.word with
  | .name _ _ | .string _ | .number => advance
  | .sign ['['] =>
    advance
    let _ ← r.expression
    sign "]"
  | _ => refuse

/-- The signs that follow the name of a member of an object type. -/
def endsMemberName (c : Cursor) : Bool :=
  c.isSign "(" || c.isSign "<" || c.isSign ":" || c.isSign "?" || c.isSign ";" || c.isSign "," ||
    c.isSign "\x7d"

/-- A word in front of a member's name, such as `readonly`. -/
def memberModifier (names : List String) : Rule Unit := do
  let c ← cursor
  check (names.any c.isName && !endsMemberName c.next)
  advance

/-- `[key: K]: V`. -/
def indexSignature : Rule Unit := do
  sign "["
  let _ ← identifier
  sign ":"
  r.type
  sign "]"
  if ← takeSign ":" then r.type

/-- The end of a member of an object type. -/
def endMember : Rule Unit := do
  let c ← cursor
  if c.isSign ";" || c.isSign "," then advance
  else check (c.isSign "\x7d" || c.newline)

/-- `(a: A): B`. -/
def callSignature : Rule Unit := do
  if ← isSign "<" then typeParameters r
  typedParameters r
  if ← takeSign ":" then resultOf r

/-- A member of an object type. -/
def typeMember : Rule Unit := do
  let c ← cursor
  if c.isSign "(" || c.isSign "<" then callSignature r
  else if c.isName "new" && (c.next.isSign "(" || c.next.isSign "<") then
    advance
    callSignature r
  else
    let _ ← many (memberModifier ["readonly", "get", "set", "static", "public", "private", "protected"])
    orElse (indexSignature r) do
      typeMemberName r
      let _ ← takeSign "?"
      let c ← cursor
      if c.isSign "(" || c.isSign "<" then callSignature r
      else if ← takeSign ":" then r.type
  endMember

/-- The members of an object type, in braces. -/
def objectType : Rule Unit := do
  sign "\x7b"
  let _ ← manyTill (·.isSign "\x7d") (typeMember r)
  advance

/-- `+`, `-` or nothing, and a word. -/
def mappedModifier (p : Rule Unit) : Rule Unit := do
  let c ← cursor
  if c.isSign "+" || c.isSign "-" then advance
  p

/-- An object type made from the keys of another. -/
def mappedType : Rule Unit := do
  sign "\x7b"
  let _ ← optional (mappedModifier (keyword "readonly"))
  sign "["
  let _ ← identifier
  keyword "in"
  r.type
  if ← takeName "as" then r.type
  sign "]"
  let _ ← optional (mappedModifier (sign "?"))
  if ← takeSign ":" then r.type
  let c ← cursor
  if c.isSign ";" || c.isSign "," then advance
  sign "\x7d"

/-- An item of a tuple, with or without a name. -/
def tupleItem : Rule Unit := do
  let _ ← takeSign "..."
  orElse
    (do
      let _ ← anyName
      let _ ← takeSign "?"
      sign ":"
      r.type)
    (do
      r.type
      let _ ← takeSign "?")

/-- A type without operators. -/
def primaryType : Rule Unit := do
  let c ← cursor
  match c.word with
  | .string _ | .number => advance
  | .template _ _ => template r.type
  | .sign ['-'] =>
    advance
    check ((← cursor).word == .number)
    advance
  | .sign ['('] =>
    advance
    r.type
    sign ")"
  | .sign ['['] =>
    advance
    let _ ← listUntil "]" (tupleItem r)
  | .sign ['\x7b'] => orElse (mappedType r) (objectType r)
  | .name _ _ =>
    if c.isName "typeof" then queryType r
    else if c.isName "import" then importType r
    else
      let text ← anyName
      let usual : List Text := ["void".toList, "null".toList, "true".toList, "false".toList, "this".toList]
      check (usual.contains text || !reservedWords.contains text)
      goto c
      namedType r
  | _ => refuse

/-- `[]` or `[K]` behind a type. -/
def typeSuffix : Rule Unit := do
  sameLine
  sign "["
  if !(← isSign "]") then r.type
  sign "]"

/-- A type with prefix operators and suffixes; `n` bounds the operators. -/
def operatorType : Nat → Rule Unit
  | 0 => refuse
  | n + 1 => do
    let c ← cursor
    if (c.isName "keyof" || c.isName "unique" || c.isName "readonly") &&
        (c.next.isAnyName || c.next.isSign "(" || c.next.isSign "[" || c.next.isSign "\x7b") then
      advance
      operatorType n
    else if c.isName "infer" && c.next.isAnyName then
      advance
      advance
      let _ ← optional do
        keyword "extends"
        operatorType n
        check !(← isSign "?")
    else
      primaryType r
      let _ ← many (typeSuffix r)

/-- Types joined by `|` and `&`. -/
def unionType : Rule Unit := do
  let c ← cursor
  if c.isSign "|" || c.isSign "&" then advance
  let operand := fun s c => operatorType r (c.text.length + 1) s c
  operand
  let _ ← many do
    let c ← cursor
    check (c.isSign "|" || c.isSign "&")
    advance
    operand

/-- A type. -/
def typeOf : Rule Unit := do
  let c ← cursor
  if c.isSign "(" || c.isSign "<" then
    orElse (functionType r) conditional
  else if c.isName "new" || (c.isName "abstract" && c.next.isName "new") then constructorType r
  else conditional
where
  /-- `A extends B ? C : D`, or only the first of these. -/
  conditional : Rule Unit := do
    unionType r
    let c ← cursor
    if c.isName "extends" && !c.newline then
      let found ← optional do
        advance
        unionType r
        sign "?"
        r.type
        sign ":"
        r.type
      if found.isNone then goto c

end MarkupSync.Script
