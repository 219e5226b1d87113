import MarkupSync.Script.Syntax
import MarkupSync.Script.Word

/-!
# Grammar rules

* `Setting`: what the context of a phrase allows;
* `Rule`: a rule reads a phrase from a cursor or refuses; `Rule.orElse` tries another rule from the
  same place;
* `Phrases`: the rules that phrases of any kind may contain. A production takes them as an
  argument, so that each is a plain function.
-/

namespace MarkupSync.Script

/-- What the context of a phrase allows. -/
structure Setting where
  /-- Type syntax may be used. -/
  typed : Bool
  /-- Imports and exports may stand here. -/
  topLevel : Bool
  /-- A function may return from here. -/
  inFunction : Bool
  /-- `await` is an operator. -/
  isAsync : Bool
  /-- `yield` is an operator. -/
  isGenerator : Bool
  /-- `in` is an operator. -/
  allowsIn : Bool
  /-- An arrow function may declare the type of its result. -/
  arrowTypes : Bool
  /-- Declarations need no values. -/
  isAmbient : Bool

/-- A grammar rule. -/
def Rule (α : Type) := Setting → Cursor → Option (α × Cursor)

namespace Rule

variable {α β : Type}

instance : Monad Rule where
  pure a := fun _ c => some (a, c)
  bind p f := fun s c =>
    match p s c with
    | none => none
    | some (a, c) => f a s c

/-- The rule that refuses everything. -/
def refuse : Rule α := fun _ _ => none

instance : Inhabited (Rule α) := ⟨refuse⟩

/-- Try `p`, and `q` from the same place if `p` refuses. -/
def orElse (p q : Rule α) : Rule α := fun s c =>
  match p s c with
  | none => q s c
  | some found => some found

/-- Read a phrase in another setting. -/
def inSetting (f : Setting → Setting) (p : Rule α) : Rule α := fun s c => p (f s) c

/-- The setting. -/
def setting : Rule Setting := fun s c => some (s, c)

/-- The place. -/
def cursor : Rule Cursor := fun _ c => some (c, c)

/-- Go to another place. -/
def goto (c : Cursor) : Rule Unit := fun _ _ => some ((), c)

/-- Go behind the word. -/
def advance : Rule Unit := fun _ c => some ((), c.next)

/-- Require a condition. -/
def check (b : Bool) : Rule Unit := if b then pure () else refuse

/-- The phrase that `p` reads, without going behind it; none if it refuses. -/
def ahead (p : Rule α) : Rule (Option α) := fun s c => some ((p s c).map Prod.fst, c)

/-- Read a phrase if `p` accepts one. -/
def optional (p : Rule α) : Rule (Option α) := fun s c =>
  match p s c with
  | none => some (none, c)
  | some (a, c) => some (some a, c)

/-- Read a phrase if `b` holds. -/
def onlyIf (b : Bool) (p : Rule Unit) : Rule Unit := if b then p else pure ()

/-- Read phrases as long as `p` accepts one, `n` at most. -/
def manyUpTo (p : Rule α) : Nat → Rule (List α)
  | 0 => pure []
  | n + 1 => fun s c =>
    match p s c with
    | none => some ([], c)
    | some (a, d) =>
      match manyUpTo p n s d with
      | none => none
      | some (as, e) => some (a :: as, e)

/-- Read phrases as long as `p` accepts one. -/
def many (p : Rule α) : Rule (List α) := fun s c => manyUpTo p (c.text.length + 1) s c

/-- Read phrases until `stop` holds of the place, `n` at most. -/
def tillUpTo (stop : Cursor → Bool) (p : Rule α) : Nat → Rule (List α)
  | 0 => refuse
  | n + 1 => fun s c =>
    if stop c then some ([], c)
    else
      match p s c with
      | none => none
      | some (a, d) =>
        match tillUpTo stop p n s d with
        | none => none
        | some (as, e) => some (a :: as, e)

/-- Read phrases until `stop` holds of the place. -/
def manyTill (stop : Cursor → Bool) (p : Rule α) : Rule (List α) := fun s c =>
  tillUpTo stop p (c.text.length + 2) s c

end Rule

/-! ## Words -/

namespace Cursor

/-- Whether the word is the sign `t`. -/
def isSign (t : String) (c : Cursor) : Bool := c.word == .sign t.toList

/-- Whether the word is the name `t`, without escapes. -/
def isName (t : String) (c : Cursor) : Bool := c.word == .name t.toList false

/-- Whether the word is a name, a keyword or not. -/
def isAnyName (c : Cursor) : Bool :=
  match c.word with
  | .name _ _ => true
  | _ => false

end Cursor

/-- The words that are no identifiers. -/
def reservedWords : List Text :=
  ["break".toList, "case".toList, "catch".toList, "class".toList, "const".toList,
    "continue".toList, "debugger".toList, "default".toList, "delete".toList, "do".toList,
    "else".toList, "enum".toList, "export".toList, "extends".toList, "false".toList,
    "finally".toList, "for".toList, "function".toList, "if".toList, "import".toList, "in".toList,
    "instanceof".toList, "new".toList, "null".toList, "return".toList, "super".toList,
    "switch".toList, "this".toList, "throw".toList, "true".toList, "try".toList, "typeof".toList,
    "var".toList, "void".toList, "while".toList, "with".toList]

namespace Rule

/-- Whether the word is the sign `t`. -/
def isSign (t : String) : Rule Bool := do return (← cursor).isSign t

/-- Whether the word is the name `t`. -/
def isName (t : String) : Rule Bool := do return (← cursor).isName t

/-- Read the sign `t` if it is here. -/
def takeSign (t : String) : Rule Bool := do
  if ← isSign t then
    advance
    return true
  else return false

/-- Read the name `t` if it is here. -/
def takeName (t : String) : Rule Bool := do
  if ← isName t then
    advance
    return true
  else return false

/-- Read the sign `t`. -/
def sign (t : String) : Rule Unit := do
  check (← isSign t)
  advance

/-- Read the name `t`. -/
def keyword (t : String) : Rule Unit := do
  check (← isName t)
  advance

/-- Read a name, a keyword or not. -/
def anyName : Rule Text := do
  match (← cursor).word with
  | .name text _ =>
    advance
    return text
  | _ => refuse

/-- Read an identifier. -/
def identifier : Rule Text := do
  let s ← setting
  let text ← anyName
  check !(reservedWords.contains text || (s.isAsync && text == "await".toList) ||
    (s.isGenerator && text == "yield".toList))
  return text

/-- Require the next word on the same line. -/
def sameLine : Rule Unit := do check !(← cursor).newline

/-- End a statement: by a semicolon, before a closing brace, at a line end or at the end. -/
def endStatement : Rule Unit := do
  let c ← cursor
  if c.isSign ";" then advance
  else check (c.isSign "\x7d" || c.word == .stop || c.newline)

/-- Read phrases with commas between them up to the sign `close`; a comma may stand at the end. -/
def listUntil {α : Type} (close : String) (p : Rule α) : Rule (List α) := do
  let items ← manyTill (·.isSign close) do
    let a ← p
    if !(← isSign close) then sign ","
    return a
  sign close
  return items

/-- Read phrases, at least one, with the sign `separator` between them. -/
def separated {α : Type} (separator : String) (p : Rule α) : Rule (List α) := do
  let first ← p
  let rest ← many do
    sign separator
    p
  return first :: rest

end Rule

/-! ## Phrases -/

/-- The rules that phrases of any kind may contain. -/
structure Phrases where
  expression : Rule Expr
  assignment : Rule Expr
  unary : Rule Expr
  statement : Rule Stmt
  /-- A pattern that variables are bound by; its name if it is a single variable. -/
  binding : Rule (Option Text)
  type : Rule Unit
  /-- A JSX element or fragment; its bytes. -/
  markup : Rule Span

/-- No phrases at all. -/
def Phrases.none : Phrases :=
  ⟨Rule.refuse, Rule.refuse, Rule.refuse, Rule.refuse, Rule.refuse, Rule.refuse, Rule.refuse⟩

end MarkupSync.Script
