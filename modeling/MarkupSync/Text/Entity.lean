import MarkupSync.Text.Search

/-!
# Character references

* `decodeEntities`: character references replaced by their characters; a reference that is not
  understood stays as it is written;
* `escapeText`, `escapeExpressionText`, `escapeQuoted`: the delimiters of a context written as
  references.
-/

namespace MarkupSync

/-- The value of a digit in base `b`. -/
def digitValue (b : Nat) (c : Char) : Option Nat :=
  let v :=
    if '0' ≤ c ∧ c ≤ '9' then c.toNat - '0'.toNat
    else if 'a' ≤ c ∧ c ≤ 'z' then c.toNat - 'a'.toNat + 10
    else if 'A' ≤ c ∧ c ≤ 'Z' then c.toNat - 'A'.toNat + 10
    else b
  if v < b then some v else none

/-- The number that digits in base `b` denote, going on from `n`. -/
def readDigits (b : Nat) : Nat → Text → Option Nat
  | n, [] => some n
  | n, c :: s => (digitValue b c).bind fun d => readDigits b (n * b + d) s

/-- A number in base `b`: at least one digit, after an optional plus sign. -/
def readNumber (b : Nat) : Text → Option Nat
  | [] => none
  | '+' :: [] => none
  | '+' :: s => readDigits b 0 s
  | s => readDigits b 0 s

/-- The character with a code point, if there is one. -/
def charOfCode (n : Nat) : Option Char := if n.isValidChar then some (Char.ofNat n) else none

/-- The characters with a name of their own. -/
def namedCharacters : List (Text × Char) :=
  [(['a', 'm', 'p'], '&'), (['l', 't'], '<'), (['g', 't'], '>'), (['q', 'u', 'o', 't'], '"'),
    (['a', 'p', 'o', 's'], '\''), (['n', 'b', 's', 'p'], '\u00a0')]

/-- The character that a reference `&name;` stands for. -/
def referenced (name : Text) : Option Char :=
  match namedCharacters.lookup name, name with
  | some c, _ => some c
  | none, '#' :: 'x' :: digits => (readNumber 16 digits).bind charOfCode
  | none, '#' :: 'X' :: digits => (readNumber 16 digits).bind charOfCode
  | none, '#' :: digits => (readNumber 10 digits).bind charOfCode
  | none, _ => none

/-- The longest name of a reference, in bytes. -/
def maxReferenceName : Nat := 9

/-- Read the reference that follows an ampersand: its character, and the number of characters up
to and with its semicolon. -/
def reference? (s : Text) : Option (Char × Nat) :=
  match Text.cut? [';'] s with
  | none => none
  | some (name, _) =>
    if width name ≤ maxReferenceName then (referenced name).map fun c => (c, name.length + 1)
    else none

/-- Replace character references by their characters; the first `n` characters belong to a
reference already read. -/
def decodeFrom : Nat → Text → Text
  | _, [] => []
  | n + 1, _ :: s => decodeFrom n s
  | 0, c :: s =>
    if c = '&' then
      match reference? s with
      | some (d, n) => d :: decodeFrom n s
      | none => c :: decodeFrom 0 s
    else c :: decodeFrom 0 s

/-- Replace the character references of a text by their characters. -/
def decodeEntities (s : Text) : Text := decodeFrom 0 s

theorem decodeFrom_eq_drop (n : Nat) (s : Text) : decodeFrom n s = decodeEntities (s.drop n) := by
  induction s generalizing n with
  | nil => cases n <;> rfl
  | cons c s ih => cases n with
    | zero => rfl
    | succ n => simp [decodeFrom, ih]

/-- How a character is written in a text between tags. -/
def escapedChar (c : Char) : Text :=
  if c = '&' then ['&', 'a', 'm', 'p', ';']
  else if c = '<' then ['&', 'l', 't', ';']
  else if c = '>' then ['&', 'g', 't', ';']
  else [c]

/-- A text between tags, with its delimiters written as references. -/
def escapeText (s : Text) : Text := s.flatMap escapedChar

/-- How a character is written between tags where braces open expressions. -/
def escapedExpressionChar (c : Char) : Text :=
  if c = '\x7b' then ['&', '#', '1', '2', '3', ';']
  else if c = '\x7d' then ['&', '#', '1', '2', '5', ';']
  else escapedChar c

/-- A text between tags where braces open expressions. -/
def escapeExpressionText (s : Text) : Text := s.flatMap escapedExpressionChar

/-- How a character is written in a value quoted with `q`. -/
def escapedQuotedChar (q c : Char) : Text :=
  if c = '&' then ['&', 'a', 'm', 'p', ';']
  else if c = '"' ∧ q = '"' then ['&', 'q', 'u', 'o', 't', ';']
  else if c = '\'' ∧ q = '\'' then ['&', '#', '3', '9', ';']
  else [c]

/-- A value to be quoted with `q`. -/
def escapeQuoted (q : Char) (s : Text) : Text := s.flatMap (escapedQuotedChar q)

end MarkupSync
