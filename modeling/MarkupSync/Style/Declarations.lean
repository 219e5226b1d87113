import MarkupSync.Attrs
import MarkupSync.Text.Blank
import MarkupSync.Text.Search

/-!
# Inline style declarations

The text of a `style` attribute, `property: value; property: value`.

* `splitTop`: the parts of a text between separators that stand outside quotes and brackets;
* `readDeclarations`: the declarations of a text;
* `writeDeclarations`: the text of a list of declarations.
-/

namespace MarkupSync.Style

/-- The quote characters of style values. -/
def isQuote (c : Char) : Bool := c == '"' || c == '\'' || c == '\x60'

/-- The brackets that open a group. -/
def opensGroup (c : Char) : Bool := c == '(' || c == '[' || c == '\x7b'

/-- The brackets that close a group. -/
def closesGroup (c : Char) : Bool := c == ')' || c == ']' || c == '\x7d'

/-- Put a character in front of the first part. -/
def consFirst (c : Char) : List Text → List Text
  | [] => [[c]]
  | part :: parts => (c :: part) :: parts

/-- The parts between the separators `sep` at bracket depth `depth` and, if a quote is given,
behind its closing. -/
def splitFrom (sep : Char) : Option Char → Int → Text → List Text
  | _, _, [] => [[]]
  | some q, depth, c :: s => consFirst c (splitFrom sep (if c = q then none else some q) depth s)
  | none, depth, c :: s =>
    if isQuote c then consFirst c (splitFrom sep (some c) depth s)
    else if opensGroup c then consFirst c (splitFrom sep none (depth + 1) s)
    else if closesGroup c then consFirst c (splitFrom sep none (depth - 1) s)
    else if c = sep ∧ depth = 0 then [] :: splitFrom sep none depth s
    else consFirst c (splitFrom sep none depth s)

/-- The parts of a text between the separators that stand outside quotes and brackets. -/
def splitTop (sep : Char) (s : Text) : List Text := splitFrom sep none 0 s

/-- A text without white space at its ends. -/
def trimmed (s : Text) : Text := Text.trim isSpace s

/-- Read `property: value`; property names are in lower case. -/
def readDeclaration? (s : Text) : Option Entry :=
  match Text.cut? [':'] s with
  | none => none
  | some (property, value) =>
    let property := Text.lower (trimmed property)
    let value := trimmed value
    if property = [] ∨ value = [] then none else some (property, value)

/-- The declarations of a text; parts that are no declarations are left out, and of two
declarations of a property the later value counts. -/
def readDeclarations (css : Text) : Attrs := Attrs.ofList ((splitTop ';' css).filterMap readDeclaration?)

/-- A declaration as text. -/
def writeDeclaration (e : Entry) : Text := e.1 ++ [':', ' '] ++ e.2

/-- Declarations as text. -/
def writeDeclarations (style : Attrs) : Text :=
  [';', ' '].intercalate (style.entries.map writeDeclaration)

end MarkupSync.Style
