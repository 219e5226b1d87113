import MarkupSync.Lexeme.Basic
import MarkupSync.Text.Blank

/-!
# Error reports

* `Column.width`: the columns a character takes on a line, by the East Asian width of Unicode; a
  tab reaches to the next multiple of four characters;
* `Column.linesOf`: the lines of a text, with their terminators;
* `ParseError.lineColumn`: the line and the column of an error;
* `ParseError.report`: a picture of the line with an arrow to the error. The position is taken as
  a number of characters.
-/

namespace MarkupSync.Column

/-! ## Lines and columns of a display -/

/-- Ranges of characters that take two columns. -/
def wideRanges : List (Nat × Nat) :=
  [(0x1100, 0x115f), (0x231a, 0x231b), (0x2329, 0x232a), (0x23e9, 0x23ec), (0x23f0, 0x23f0),
    (0x23f3, 0x23f3), (0x25fd, 0x25fe), (0x2614, 0x2615), (0x2648, 0x2653), (0x267f, 0x267f),
    (0x2693, 0x2693), (0x26a1, 0x26a1), (0x26aa, 0x26ab), (0x26bd, 0x26be), (0x26c4, 0x26c5),
    (0x26ce, 0x26ce), (0x26d4, 0x26d4), (0x26ea, 0x26ea), (0x26f2, 0x26f3), (0x26f5, 0x26f5),
    (0x26fa, 0x26fa), (0x26fd, 0x26fd), (0x2705, 0x2705), (0x270a, 0x270b), (0x2728, 0x2728),
    (0x274c, 0x274c), (0x274e, 0x274e), (0x2753, 0x2755), (0x2757, 0x2757), (0x2795, 0x2797),
    (0x27b0, 0x27b0), (0x27bf, 0x27bf), (0x2b1b, 0x2b1c), (0x2b50, 0x2b50), (0x2b55, 0x2b55),
    (0x2e80, 0x2e99), (0x2e9b, 0x2ef3), (0x2f00, 0x2fd5), (0x2ff0, 0x2ffb), (0x3000, 0x303e),
    (0x3041, 0x3096), (0x3099, 0x30ff), (0x3105, 0x312f), (0x3131, 0x318e), (0x3190, 0x31e3),
    (0x31f0, 0x321e), (0x3220, 0x3247), (0x3250, 0x4dbf), (0x4e00, 0xa48c), (0xa490, 0xa4c6),
    (0xa960, 0xa97c), (0xac00, 0xd7a3), (0xf900, 0xfaff), (0xfe10, 0xfe19), (0xfe30, 0xfe52),
    (0xfe54, 0xfe66), (0xfe68, 0xfe6b), (0xff01, 0xff60), (0xffe0, 0xffe6), (0x16fe0, 0x16fe4),
    (0x16ff0, 0x16ff1), (0x17000, 0x187f7), (0x18800, 0x18cd5), (0x18d00, 0x18d08),
    (0x1aff0, 0x1aff3), (0x1aff5, 0x1affb), (0x1affd, 0x1affe), (0x1b000, 0x1b122),
    (0x1b150, 0x1b152), (0x1b164, 0x1b167), (0x1b170, 0x1b2fb), (0x1f004, 0x1f004),
    (0x1f0cf, 0x1f0cf), (0x1f18e, 0x1f18e), (0x1f191, 0x1f19a), (0x1f200, 0x1f202),
    (0x1f210, 0x1f23b), (0x1f240, 0x1f248), (0x1f250, 0x1f251), (0x1f260, 0x1f265),
    (0x1f300, 0x1f320), (0x1f32d, 0x1f335), (0x1f337, 0x1f37c), (0x1f37e, 0x1f393),
    (0x1f3a0, 0x1f3ca), (0x1f3cf, 0x1f3d3), (0x1f3e0, 0x1f3f0), (0x1f3f4, 0x1f3f4),
    (0x1f3f8, 0x1f43e), (0x1f440, 0x1f440), (0x1f442, 0x1f4fc), (0x1f4ff, 0x1f53d),
    (0x1f54b, 0x1f54e), (0x1f550, 0x1f567), (0x1f57a, 0x1f57a), (0x1f595, 0x1f596),
    (0x1f5a4, 0x1f5a4), (0x1f5fb, 0x1f64f), (0x1f680, 0x1f6c5), (0x1f6cc, 0x1f6cc),
    (0x1f6d0, 0x1f6d2), (0x1f6d5, 0x1f6d7), (0x1f6dc, 0x1f6df), (0x1f6eb, 0x1f6ec),
    (0x1f6f4, 0x1f6fc), (0x1f7e0, 0x1f7eb), (0x1f7f0, 0x1f7f0), (0x1f90c, 0x1f93a),
    (0x1f93c, 0x1f945), (0x1f947, 0x1f9ff), (0x1fa70, 0x1fa7c), (0x1fa80, 0x1fa88),
    (0x1fa90, 0x1fabd), (0x1fabf, 0x1fac5), (0x1face, 0x1fadb), (0x1fae0, 0x1fae8),
    (0x1faf0, 0x1faf8), (0x20000, 0x2fffd), (0x30000, 0x3fffd)]

/-- Ranges of characters that take no column. -/
def narrowRanges : List (Nat × Nat) :=
  [(0x0300, 0x036f), (0x0483, 0x0489), (0x0591, 0x05bd), (0x0610, 0x061a), (0x064b, 0x065f),
    (0x1ab0, 0x1aff), (0x1dc0, 0x1dff), (0x200b, 0x200f), (0x202a, 0x202e), (0x2060, 0x2064),
    (0x20d0, 0x20ff), (0xfe00, 0xfe0f), (0xfe20, 0xfe2f), (0xfeff, 0xfeff)]

/-- Whether a character lies in one of the ranges. -/
def isIn (ranges : List (Nat × Nat)) (c : Char) : Bool :=
  ranges.any fun r => r.1 ≤ c.toNat && c.toNat ≤ r.2

/-- The distance of tab stops. -/
def tabWidth : Nat := 4

/-- The columns that the character at index `column` of its line takes. -/
def width (column : Nat) (c : Char) : Nat :=
  if c = '\t' then (column / tabWidth + 1) * tabWidth - column
  else if isSpace c then 1
  else if isIn wideRanges c then 2
  else if isIn narrowRanges c then 0
  else 1

/-- The characters that a line shows for the character at index `column`: spaces for white space. -/
def shown (column : Nat) (c : Char) : Text :=
  if isSpace c then List.replicate (width column c) ' ' else [c]

/-- The characters that end lines. -/
def endsLine (c : Char) : Bool :=
  c == '\n' || c == '\r' || c == '\x0b' || c == '\x0c' || c == '\u0085' || c == '\u2028' ||
    c == '\u2029'

/-- The lines of a text, with their terminators. A carriage return and the line feed behind it are
one terminator; a terminator at the end starts no line. -/
def linesOf : Text → List Text
  | [] => []
  | ['\r'] => [['\r']]
  | '\r' :: '\n' :: s => ['\r', '\n'] :: linesOf s
  | c :: s =>
    if endsLine c then [c] :: linesOf s
    else
      match linesOf s with
      | [] => [[c]]
      | line :: rest => (c :: line) :: rest

end MarkupSync.Column

namespace MarkupSync

/-! ## Reports -/

/-- The line and the column of an error, both counted from one. -/
def ParseError.lineColumn (e : ParseError) (source : Text) : Nat × Nat :=
  let front := Text.before (min e.position (width source)) source
  (front.count '\n' + 1, (Text.lastLine front).length + 1)

namespace Report

/-- A line of the source: its index, the index of its first character, and its text. -/
structure Line where
  index : Nat
  start : Nat
  text : Text
  deriving Repr, DecidableEq

/-- The line of the character at `offset`, among lines of which the first has the given index and
start; behind the last character that is the last line. -/
def lineFrom (offset index start : Nat) : List Text → Line
  | [] => ⟨index, start, []⟩
  | [line] => ⟨index, start, line⟩
  | line :: rest =>
    if offset < start + line.length then ⟨index, start, line⟩
    else lineFrom offset (index + 1) (start + line.length) rest

/-- The line of the character at `offset`. -/
def lineOf (offset : Nat) (source : Text) : Line := lineFrom offset 0 0 (Column.linesOf source)

/-- Text for every column of a line up to the one with index `count`: `first` for the first column
of a character, `more` for the others. -/
def columns (first more : Nat → Char) : Nat → Nat → Text → Text
  | 0, _, _ => []
  | count + 1, index, line =>
    let columnWidth :=
      match line with
      | [] => 1
      | c :: _ => Column.width index c
    (if columnWidth = 0 then []
      else first index :: List.replicate (columnWidth - 1) (more index)) ++
      columns first more count (index + 1) line.tail

/-- The part of an arrow that goes beyond the character it points at. -/
def arrowTail : Nat := 2

/-- Spaces. -/
def spaces (n : Nat) : Text := List.replicate n ' '

/-- The picture of a line with an arrow to the characters from `start` to `stop`. -/
def picture (file : Text) (message : Text) (line : Line) (start stop : Nat) : Text :=
  let number := (toString (line.index + 1)).toList
  let gutter := spaces (number.length + 2)
  let column := start - line.start
  let shownText := Text.trimEnd isSpace line.text
  let count := stop - line.start + arrowTail
  let tip := if start < stop then '┬' else '│'
  let underline := columns (fun i => if i = column then tip else ' ')
    (fun i => if i = column ∧ start < stop then '─' else ' ') count 0 shownText
  let pointer := columns (fun i => if i = column then '╰' else if column < i then '─' else ' ')
    (fun i => if column ≤ i then '─' else ' ') count 0 shownText
  let content := (shownText.zipIdx.map fun (c, i) => Column.shown i c).flatten
  let place := [':'] ++ number ++ [':'] ++ (toString (column + 1)).toList
  gutter ++ ['╭', '─', '['] ++ file ++ place ++ [']', '\n'] ++
    gutter ++ ['│', '\n'] ++
    [' '] ++ number ++ [' ', '│', ' '] ++ content ++ ['\n'] ++
    gutter ++ ['│', ' '] ++ underline ++ ['\n'] ++
    gutter ++ ['│', ' '] ++ pointer ++ [' '] ++ message ++ ['\n'] ++
    List.replicate (number.length + 2) '─' ++ ['╯', '\n']

end Report

/-- A picture of the line of an error. An error behind the last character of a text has only a
headline. -/
def ParseError.report (e : ParseError) (file source : Text) : Text :=
  let start := min e.position (width source)
  let stop := max (min (start + 1) (width source)) start
  let headline := ("Error: " ++ e.fault.kind.label ++ "\n").toList
  if start ≤ source.length ∧ stop - 1 ≤ source.length then
    headline ++
      Report.picture file e.fault.message.toList (Report.lineOf start source) start stop
  else headline

end MarkupSync
