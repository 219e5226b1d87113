import MarkupSync.Text.Blank
import MarkupSync.Text.Entity
import MarkupSync.Text.Search
import MarkupSync.Dialect

/-!
# White space in running text

How a run of text between tags reads as document text.

* `collapsed?`: words with single spaces, the rule of HTML;
* `joinedLines?`: lines trimmed where they touch a line break and joined by a space, the rule of
  JSX;
* `flowText?`: the document text of a run in either flavor, `none` if nothing is left of it.
-/

namespace MarkupSync

/-- The words of a text with single spaces; `none` if there are no words. -/
def collapsed? (s : Text) : Option Text :=
  let t := Text.collapse s
  if t = [] then none else some t

/-- A line without the blanks that touch its line breaks. -/
def trimLine (isFirst isLast : Bool) (line : Text) : Text :=
  let s := Text.trimEnd (· == '\r') line
  let s := if isFirst then s else Text.trimStart isIndent s
  if isLast then s else Text.trimEnd isIndent s

/-- The lines of a text, each without the blanks that touch its line breaks. -/
def trimLines (isFirst : Bool) : List Text → List Text
  | [] => []
  | [line] => [trimLine isFirst true line]
  | line :: rest => trimLine isFirst false line :: trimLines false rest

/-- The lines of a text without the blanks around line breaks, joined by a space; `none` if only
white space is left. -/
def joinedLines? (s : Text) : Option Text :=
  let t := [' '].intercalate ((trimLines true (Text.lines s)).filter (!·.isEmpty))
  if t.all isSpace then none else some t

/-- The document text of a run between tags; `none` if nothing is left of it. -/
def flowText? : Flavor → Text → Option Text
  | .html, s => collapsed? (decodeEntities s)
  | .jsx, s => (joinedLines? s).map decodeEntities

end MarkupSync
