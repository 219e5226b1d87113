import MarkupSync.Style.Declarations

/-!
# Style objects

The expression of a JSX `style` attribute, an object such as `{ fontSize: 16, color: "red" }`.

* `kebab`, `camel`: property names as CSS and as objects write them;
* `isNumeral`: the numbers that count as values;
* `readObject?`: the declarations of an object whose values are strings and numbers;
* `writeObject`: an object as text, in double braces.
-/

namespace MarkupSync.Style

/-! ## Property names -/

/-- A custom property. -/
def isCustom (name : Text) : Bool := Text.startsWith ['-', '-'] name

/-- The CSS spelling of a property name: a hyphen and a small letter for every capital letter. -/
def kebab (name : Text) : Text :=
  if isCustom name then name
  else name.flatMap fun c => if c.isUpper then ['-', c.toLower] else [c]

/-- Drop hyphens and raise the letters behind them. -/
def camelFrom (raise : Bool) : Text → Text
  | [] => []
  | c :: s =>
    if c = '-' then camelFrom true s
    else if raise then c.toUpper :: camelFrom false s
    else c :: camelFrom false s

/-- The object spelling of a property name: the vendor name `ms` stays small. -/
def camel (name : Text) : Text :=
  match Text.afterWord? ['-', 'm', 's', '-'] name with
  | some rest => camelFrom false (['m', 's', '-'] ++ rest)
  | none => camelFrom false name

/-! ## Numbers -/

/-- Whether a text is made of decimal digits, one at least. -/
def isDigits (s : Text) : Bool := !s.isEmpty && s.all Char.isDigit

/-- A text without a sign in front. -/
def unsigned : Text → Text
  | '+' :: s => s
  | '-' :: s => s
  | s => s

/-- Whether a text is a decimal exponent, or empty. -/
def isExponent : Text → Bool
  | [] => true
  | c :: s => (c == 'e' || c == 'E') && isDigits (unsigned s)

/-- Whether a text is an unsigned decimal number: digits with a point before, among or behind
them, and an exponent. -/
def isDecimal (s : Text) : Bool :=
  let whole := s.takeWhile Char.isDigit
  match s.dropWhile Char.isDigit with
  | '.' :: rest =>
    let fraction := rest.takeWhile Char.isDigit
    !(whole.isEmpty && fraction.isEmpty) && isExponent (rest.dropWhile Char.isDigit)
  | rest => !whole.isEmpty && isExponent rest

/-- The names of numbers that have no digits. -/
def numberNames : List Text := ["inf".toList, "infinity".toList, "nan".toList]

/-- Whether a text is a number. -/
def isNumeral (s : Text) : Bool :=
  let s := unsigned s
  isDecimal s || numberNames.contains (Text.lower s)

/-- The properties whose numbers have no unit. -/
def unitless : List Text :=
  ["opacity".toList, "z-index".toList, "flex".toList, "flex-grow".toList, "flex-shrink".toList,
    "font-weight".toList, "line-height".toList, "order".toList, "zoom".toList]

/-- The value that a bare number stands for: a length in pixels, except for zero and properties
without unit. -/
def numberValue (property number : Text) : Text :=
  if number = ['0'] ∨ property ∈ unitless then number else number ++ ['p', 'x']

/-! ## Objects -/

/-- The content of a quoted text. -/
def unquoted? : Text → Option Text
  | [] => none
  | q :: s => if isQuote q ∧ s.getLast? = some q then some s.dropLast else none

/-- Whether a character may stand in a plain property name. -/
def isKeyChar (c : Char) : Bool := c.isAlphanum || c == '_' || c == '-'

/-- The value of a property, if it is a string or a number. -/
def readValue? (property value : Text) : Option Text :=
  match unquoted? value with
  | some text => some text
  | none => if isNumeral value then some (numberValue property value) else none

/-- Read `key: value`. -/
def entryOf? (entry : Text) : Option Entry :=
  match Text.cut? [':'] entry with
  | none => none
  | some (key, value) =>
    let key := trimmed key
    let key := (unquoted? key).getD key
    if isCustom key || key.all isKeyChar then
      let property := kebab key
      (readValue? property (trimmed value)).map fun v => (property, v)
    else none

/-- Add the entries of an object to a style; fails at the first entry that is not understood. -/
def addEntries : Attrs → List Text → Option Attrs
  | style, [] => some style
  | style, entry :: rest =>
    let entry := trimmed entry
    if entry = [] then addEntries style rest
    else (entryOf? entry).bind fun (property, value) => addEntries (style.insert property value) rest

/-- The declarations of an object expression; none if it is no object in braces, or a value is
neither a string nor a number. -/
def readObject? (expression : Text) : Option Attrs :=
  match trimmed expression with
  | '\x7b' :: body =>
    if body.getLast? = some '\x7d' then addEntries .empty (splitTop ',' body.dropLast) else none
  | _ => none

/-- A text in quotes: in the other quote character if it contains the wanted one. -/
def quoted (quote : Char) (s : Text) : Text :=
  let q := if s.contains quote then (if quote = '"' then '\'' else '"') else quote
  q :: s ++ [q]

/-- An entry of an object as text. -/
def writeEntry (quote : Char) (e : Entry) : Text :=
  (if isCustom e.1 then quoted quote e.1 else camel e.1) ++ [':', ' '] ++ quoted quote e.2

/-- A style as the object of a JSX attribute, with the braces of the attribute. -/
def writeObject (quote : Char) (style : Attrs) : Text :=
  if style.isEmpty then ['\x7b', '\x7b', '\x7d', '\x7d']
  else
    ['\x7b', '\x7b', ' '] ++ [',', ' '].intercalate (style.entries.map (writeEntry quote)) ++
      [' ', '\x7d', '\x7d']

end MarkupSync.Style
