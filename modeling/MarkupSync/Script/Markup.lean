import MarkupSync.Script.Types

/-!
# Markup in scripts

The productions of JSX. The words of markup are read from the text itself: names may contain
hyphens, and what stands between tags is text.

* `tagName`, `markupAttribute`: the parts of tags;
* `markupOf`: an element or a fragment, from its `<` to its last `>`.
-/

namespace MarkupSync.Script

open Rule

variable (r : Phrases)

/-- A name of markup, with hyphens. -/
def markupName : Rule Text := do
  let c ← cursor
  match c.text with
  | [] => refuse
  | d :: _ =>
    check (isIdStart d)
    let text := c.text.takeWhile fun c => isIdPart c || c == '-'
    goto (c.skip text.length)
    return text

/-- The members `.b.c` of a name. -/
def memberNames : Rule Text := do
  let parts ← many do
    sign "."
    let name ← markupName
    check !(name.contains '-')
    return '.' :: name
  return parts.flatten

/-- The name of a tag: `a`, `a:b` or `a.b`. -/
def tagName : Rule Text := do
  let name ← markupName
  if ← takeSign ":" then
    let second ← markupName
    return name ++ ':' :: second
  else if ← isSign "." then
    check !(name.contains '-')
    return name ++ (← memberNames)
  else return name

/-- A string of markup, which has no escapes. -/
def markupString : Rule Unit := do
  let c ← cursor
  match c.text with
  | [] => refuse
  | q :: s =>
    check (q == '"' || q == '\'')
    match Text.cut? [q] s with
    | none => refuse
    | some (content, _) => goto (c.skip (content.length + 2))

/-- An expression in braces. -/
def bracedExpression : Rule Unit := do
  sign "\x7b"
  let _ ← r.expression
  sign "\x7d"

/-- The value of an attribute. -/
def markupValue : Rule Unit := do
  let c ← cursor
  if c.isSign "\x7b" then bracedExpression r
  else if c.isSign "<" then
    let _ ← r.markup
  else markupString

/-- An attribute, or properties spread from an expression. -/
def markupAttribute : Rule Unit := do
  if ← takeSign "\x7b" then
    sign "..."
    let _ ← r.assignment
    sign "\x7d"
  else
    let _ ← markupName
    if ← takeSign ":" then
      let _ ← markupName
    if ← takeSign "=" then markupValue r

/-- What may stand in a text of markup. -/
def isMarkupText (c : Char) : Bool := c != '<' && c != '\x7b' && c != '>' && c != '\x7d'

/-- The place behind the text of markup that follows the word before. -/
def afterMarkupText : Rule Unit := do
  let c ← cursor
  let text := c.behind.takeWhile isMarkupText
  goto (.ofText (c.behindAt + width text) (c.behind.dropWhile isMarkupText))

/-- A child behind a text: an element, or what stands in braces. -/
def markupChild : Rule Unit := do
  let c ← cursor
  if c.isSign "\x7b" then
    advance
    if ← isSign "\x7d" then advance
    else
      let _ ← takeSign "..."
      let _ ← r.expression
      sign "\x7d"
  else
    let _ ← r.markup
  afterMarkupText

/-- The children of an element, up to its close tag. -/
def markupChildren : Rule Unit := do
  afterMarkupText
  let _ ← manyTill (fun c => c.isSign "<" && c.next.isSign "/") (markupChild r)

/-- An element or a fragment. -/
def markupOf : Rule Span := do
  let start := (← cursor).start
  sign "<"
  if ← isSign ">" then
    advance
    markupChildren r
    sign "<"
    sign "/"
  else
    let name ← tagName
    ifTyped (optionalTypeArguments r)
    let _ ← manyTill (fun c => c.isSign ">" || c.isSign "/") (markupAttribute r)
    if !(← takeSign "/") then
      advance
      markupChildren r
      sign "<"
      sign "/"
      check ((← tagName) == name)
  let stop := (← cursor).stop
  sign ">"
  return ⟨start, stop⟩

end MarkupSync.Script
