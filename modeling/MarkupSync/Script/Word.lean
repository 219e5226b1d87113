import MarkupSync.Script.Letter
import MarkupSync.Text.Entity

/-!
# Words of scripts

* `Word`: names, signs and literals;
* `skipFrom`: white space and comments in front of a word;
* `Word.read`: the word at the start of a text. What a word is can depend on the grammar, so that
  regular expressions, the continuation of templates and the texts of JSX have readers of their
  own (`regexEnd?`, `templateEnd?`);
* `Cursor`: a place between two words, with the word behind it.
-/

namespace MarkupSync.Script

/-- A word of a script. -/
inductive Word
  | stop
  | bad
  | name (text : Text) (escaped : Bool)
  | privateName
  | sign (text : Text)
  | number
  | string (content : Text)
  /-- A template up to its end, or (`isWhole` false) up to its first expression. -/
  | template (isWhole : Bool) (content : Text)
  deriving Repr, DecidableEq, Inhabited

/-! ## White space and comments -/

/-- The characters that end lines. -/
def endsLine (c : Char) : Bool := c == '\n' || c == '\r' || c == '\u2028' || c == '\u2029'

/-- The white space within lines. -/
def isBlankInLine (c : Char) : Bool :=
  c == ' ' || c == '\t' || c == '\x0b' || c == '\x0c' || c == '\u00a0' || c == '\ufeff' ||
    c == '\u1680' || ('\u2000' ≤ c && c ≤ '\u200a') || c == '\u202f' || c == '\u205f' || c == '\u3000'

/-- What is in front of a word. -/
structure Gap where
  /-- Whether a line ends in it. -/
  newline : Bool
  /-- Its bytes. -/
  bytes : Nat
  rest : Text

/-- Skip white space and comments; none if a comment has no end. -/
def skipFrom (newline : Bool) (bytes : Nat) (s : Text) : Option Gap :=
  match s with
  | [] => some ⟨newline, bytes, []⟩
  | '/' :: '/' :: r =>
    let comment := r.takeWhile fun c => !endsLine c
    skipFrom newline (bytes + 2 + width comment) (r.dropWhile fun c => !endsLine c)
  | '/' :: '*' :: r =>
    match _h : Text.cut? ['*', '/'] r with
    | none => none
    | some (comment, r) => skipFrom (newline || comment.any endsLine) (bytes + 4 + width comment) r
  | c :: r =>
    if endsLine c then skipFrom true (bytes + c.utf8Size) r
    else if isBlankInLine c then skipFrom newline (bytes + c.utf8Size) r
    else some ⟨newline, bytes, c :: r⟩
termination_by s.length
decreasing_by
  · have := (List.dropWhile_sublist (l := r) fun c => !endsLine c).length_le
    simp only [List.length_cons]
    omega
  · have := congrArg List.length (Text.eq_of_cut?_eq_some _h)
    simp only [List.length_append, List.length_cons, List.length_nil] at this ⊢
    omega
  all_goals simp

/-! ## Names -/

/-- Read the digits of a character escape `u` behind its backslash. -/
def unicodeEscape? : Text → Option (Char × Text)
  | '\x7b' :: s =>
    match Text.cut? ['\x7d'] s with
    | none => none
    | some (digits, r) =>
      if digits = [] then none
      else ((readDigits 16 0 digits).bind charOfCode).map fun c => (c, r)
  | a :: b :: c :: d :: r => ((readDigits 16 0 [a, b, c, d]).bind charOfCode).map fun c => (c, r)
  | _ => none

/-- Read the characters of a name, at most `n` of them: the name, whether it has escapes, and the
rest. -/
def nameFrom : Nat → Text → Text × Bool × Text
  | 0, s => ([], false, s)
  | _ + 1, [] => ([], false, [])
  | n + 1, c :: s =>
    if isIdPart c then
      let (name, escaped, r) := nameFrom n s
      (c :: name, escaped, r)
    else if c = '\\' then
      match s with
      | 'u' :: t =>
        match unicodeEscape? t with
        | some (d, r) =>
          let (name, _, r) := nameFrom n r
          (d :: name, true, r)
        | none => ([], false, c :: s)
      | _ => ([], false, c :: s)
    else ([], false, c :: s)

/-- Read a name. -/
def name? (s : Text) : Option (Text × Bool × Text) :=
  match s with
  | c :: _ => if isIdStart c || c == '\\' then
      match nameFrom s.length s with
      | ([], _, _) => none
      | found => some found
    else none
  | [] => none

/-! ## Numbers -/

/-- Drop digits of base `b`; single underscores may stand between them. -/
def dropDigits (b : Nat) : Text → Text
  | [] => []
  | '_' :: c :: s => if (digitValue b c).isSome then dropDigits b s else '_' :: c :: s
  | c :: s => if (digitValue b c).isSome then dropDigits b s else c :: s

/-- Drop an exponent; none if it has no digits. -/
def dropExponent? : Text → Option Text
  | c :: s =>
    if c = 'e' ∨ c = 'E' then
      let t := match s with
        | '+' :: t => t
        | '-' :: t => t
        | t => t
      match t with
      | d :: _ => if d.isDigit then some (dropDigits 10 t) else none
      | [] => none
    else some (c :: s)
  | [] => some []

/-- Drop the mark of a big integer. -/
def dropBig : Text → Text
  | 'n' :: s => s
  | s => s

/-- The text behind the digits of base `b`, of which there must be one. -/
def afterDigits? (b : Nat) (s : Text) : Option Text :=
  match s with
  | c :: _ => if (digitValue b c).isSome then some (dropBig (dropDigits b s)) else none
  | [] => none

/-- The text behind a number. -/
def afterNumber? (s : Text) : Option Text :=
  let found :=
    match s with
    | '0' :: 'x' :: r => afterDigits? 16 r
    | '0' :: 'X' :: r => afterDigits? 16 r
    | '0' :: 'o' :: r => afterDigits? 8 r
    | '0' :: 'O' :: r => afterDigits? 8 r
    | '0' :: 'b' :: r => afterDigits? 2 r
    | '0' :: 'B' :: r => afterDigits? 2 r
    | '.' :: r => dropExponent? (dropDigits 10 r)
    | _ =>
      match dropDigits 10 s with
      | 'n' :: r => some r
      | '.' :: r =>
        match r with
        | d :: _ => dropExponent? (if d.isDigit then dropDigits 10 r else r)
        | [] => some []
      | r => dropExponent? r
  found.filter fun r =>
    match r with
    | c :: _ => !(isIdStart c || c.isDigit || c == '\\')
    | [] => true

/-! ## Literals -/

/-- The text behind a character escape, behind its backslash; `n` characters are left. -/
def afterEscape? : Text → Option Text
  | [] => none
  | 'x' :: a :: b :: r => if (readDigits 16 0 [a, b]).isSome then some r else none
  | ['x'] => none
  | 'u' :: s => (unicodeEscape? s).map Prod.snd
  | '\r' :: '\n' :: r => some r
  | _ :: r => some r

/-- The content of a string up to its quote, and the text behind it; `n` bounds the characters. -/
def stringEnd? (quote : Char) : Nat → Text → Option (Text × Text)
  | 0, _ => none
  | _, [] => none
  | n + 1, c :: s =>
    if c = quote then some ([], s)
    else if c = '\\' then
      match afterEscape? s with
      | none => none
      | some r =>
        Text.extend (c :: s.take (s.length - r.length)) (stringEnd? quote n r)
    else if c = '\n' ∨ c = '\r' then none
    else Text.extend [c] (stringEnd? quote n s)

/-- The content of a template up to its end or (`false`) its next expression, and the text behind
it. -/
def templateEnd? : Text → Option (Bool × Text × Text)
  | [] => none
  | '\x60' :: s => some (true, [], s)
  | '$' :: '\x7b' :: s => some (false, [], s)
  | '\\' :: c :: s => (templateEnd? s).map fun (isWhole, p, r) => (isWhole, '\\' :: c :: p, r)
  | c :: s => (templateEnd? s).map fun (isWhole, p, r) => (isWhole, c :: p, r)

/-- The flags of regular expressions. -/
def regexFlags : Text := ['d', 'g', 'i', 'm', 's', 'u', 'v', 'y']

/-- The text behind the body of a regular expression. -/
def regexBody? (inClass : Bool) : Text → Option Text
  | [] => none
  | '\\' :: c :: s => if endsLine c then none else regexBody? inClass s
  | c :: s =>
    if endsLine c then none
    else if c = '[' then regexBody? true s
    else if c = ']' then regexBody? false s
    else if c = '/' ∧ inClass = false then some s
    else regexBody? inClass s

/-- The text behind a regular expression that starts behind its slash. -/
def regexEnd? (s : Text) : Option Text :=
  match regexBody? false s with
  | none => none
  | some r =>
    let flags := r.takeWhile isIdPart
    if flags.all regexFlags.contains ∧ flags.Nodup then some (r.dropWhile isIdPart) else none

/-! ## Signs -/

/-- The signs of more than one character, longer ones before their beginnings. A sign that starts
with `>` is read one character at a time, since it may close several brackets. -/
def longSigns : List Text :=
  ["===".toList, "!==".toList, "**=".toList, "<<=".toList, "&&=".toList, "||=".toList,
    "??=".toList, "...".toList, "=>".toList, "==".toList, "!=".toList, "<=".toList, "++".toList,
    "--".toList, "<<".toList, "&&".toList, "||".toList, "??".toList, "+=".toList, "-=".toList,
    "*=".toList, "/=".toList, "%=".toList, "&=".toList, "|=".toList, "^=".toList, "**".toList]

/-- The signs of one character. -/
def shortSigns : Text :=
  ['\x7b', '\x7d', '(', ')', '[', ']', '.', ';', ',', '<', '>', '+', '-', '*', '/', '%', '&', '|',
    '^', '!', '~', '?', ':', '=', '@']

/-- Whether an optional chain starts behind a question mark. -/
def startsChain : Text → Bool
  | '.' :: c :: _ => !c.isDigit
  | ['.'] => true
  | _ => false

/-- Read a sign. -/
def sign? (s : Text) : Option (Text × Text) :=
  match s with
  | [] => none
  | c :: r =>
    if c = '?' ∧ startsChain r then some (['?', '.'], r.drop 1)
    else
      match longSigns.find? (Text.startsWith · s) with
      | some sign => some (sign, s.drop sign.length)
      | none => if shortSigns.contains c then some ([c], r) else none

/-- The signs that start with `>`, longest first. -/
def angleSigns : List Text :=
  [">>>=".toList, ">>>".toList, ">>=".toList, ">>".toList, ">=".toList, ">".toList]

/-! ## Words -/

/-- Read the word at the start of a text, without white space in front. -/
def Word.read (s : Text) : Word × Text :=
  match s with
  | [] => (.stop, [])
  | c :: r =>
    if c = '"' ∨ c = '\'' then
      match stringEnd? c s.length r with
      | some (content, r) => (.string content, r)
      | none => (.bad, r)
    else if c = '\x60' then
      match templateEnd? r with
      | some (isWhole, content, r) => (.template isWhole content, r)
      | none => (.bad, r)
    else if c.isDigit || (c == '.' && (r.head?.map Char.isDigit).getD false) then
      match afterNumber? s with
      | some r => (.number, r)
      | none => (.bad, r)
    else if c = '#' then
      match name? r with
      | some (_, _, r) => (.privateName, r)
      | none => (.bad, r)
    else
      match name? s with
      | some (text, escaped, r) => (.name text escaped, r)
      | none =>
        match sign? s with
        | some (mark, r) => (.sign mark, r)
        | none => (.bad, r)

/-- A place between two words. -/
structure Cursor where
  /-- The text behind the word before. -/
  behind : Text
  /-- The end of the word before. -/
  behindAt : Nat
  /-- Whether a line ends before the word. -/
  newline : Bool
  word : Word
  /-- The text from the word on. -/
  text : Text
  /-- The start of the word. -/
  start : Nat
  /-- The text behind the word. -/
  rest : Text
  /-- The end of the word. -/
  stop : Nat
  deriving Inhabited

namespace Cursor

/-- The place at byte `position`, where the text `s` follows. -/
def ofText (position : Nat) (s : Text) : Cursor :=
  match skipFrom false 0 s with
  | none => ⟨s, position, false, .bad, s, position, [], position + width s⟩
  | some gap =>
    let start := position + gap.bytes
    let (word, rest) := Word.read gap.rest
    ⟨s, position, gap.newline, word, gap.rest, start, rest,
      start + width (gap.rest.take (gap.rest.length - rest.length))⟩

/-- The place behind the word. -/
def next (c : Cursor) : Cursor := .ofText c.stop c.rest

/-- The place behind the first `n` characters of the word's text. -/
def skip (n : Nat) (c : Cursor) : Cursor := .ofText (c.start + width (c.text.take n)) (c.text.drop n)

/-- The start of a module; a first line that starts with `#!` is skipped. -/
def ofModule (s : Text) : Cursor :=
  match s with
  | '#' :: '!' :: r =>
    let line := r.takeWhile fun c => !endsLine c
    .ofText (2 + width line) (r.dropWhile fun c => !endsLine c)
  | _ => .ofText 0 s

end Cursor

end MarkupSync.Script
