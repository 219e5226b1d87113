import MarkupSync.Text.Basic

/-!
# Blank characters

Markup counts five ASCII characters as blank; trimming of declarations and lines uses the
`White_Space` property of Unicode.

* `isBlank`: space, tab, line feed, form feed, carriage return;
* `isSpace`: the characters with the `White_Space` property (`isSpace_of_isBlank`);
* `trimStart`, `trimEnd`, `trim`: cutting characters of a class off the ends;
* `words`: the runs of non-blank characters;
* `trimmedSpan`: the bytes left once blank ends are cut off.
-/

namespace MarkupSync

/-- The blank characters of markup. -/
def isBlank (c : Char) : Bool :=
  c == ' ' || c == '\t' || c == '\n' || c == '\x0c' || c == '\r'

/-- The characters with the `White_Space` property. -/
def isSpace (c : Char) : Bool :=
  c == ' ' || ('\t' ≤ c && c ≤ '\r') || c == '\u0085' || c == '\u00a0' || c == '\u1680' ||
    ('\u2000' ≤ c && c ≤ '\u200a') || c == '\u2028' || c == '\u2029' || c == '\u202f' ||
    c == '\u205f' || c == '\u3000'

/-- Blanks of markup are white space. -/
theorem isSpace_of_isBlank {c : Char} (h : isBlank c = true) : isSpace c = true := by
  simp only [isBlank, Bool.or_eq_true, beq_iff_eq] at h
  rcases h with (((h | h) | h) | h) | h <;> subst h <;> decide

namespace Text

/-- Cut the leading characters of the class `p`. -/
def trimStart (p : Char → Bool) (s : Text) : Text := s.dropWhile p

/-- Cut the trailing characters of the class `p`. -/
def trimEnd (p : Char → Bool) (s : Text) : Text := (s.reverse.dropWhile p).reverse

/-- Cut the characters of the class `p` at both ends. -/
def trim (p : Char → Bool) (s : Text) : Text := trimEnd p (trimStart p s)

/-- Split at every character of the class `p`. -/
def fields (p : Char → Bool) : Text → List Text
  | [] => [[]]
  | c :: s =>
    if p c then [] :: fields p s
    else match fields p s with
      | [] => [[c]]
      | w :: ws => (c :: w) :: ws

/-- The lines of a text, without their line feeds. -/
def lines (s : Text) : List Text := fields (· == '\n') s

/-- The runs of non-blank characters. -/
def words (s : Text) : List Text := (fields isBlank s).filter (!·.isEmpty)

/-- The words of a text with one space between them. -/
def collapse (s : Text) : Text := [' '].intercalate (words s)

/-- The bytes left once blank characters at both ends are cut off. -/
def trimmedSpan (s : Text) : Span :=
  let start := width s - width (trimStart isBlank s)
  ⟨start, max (width (trimEnd isBlank s)) start⟩

end Text

end MarkupSync
