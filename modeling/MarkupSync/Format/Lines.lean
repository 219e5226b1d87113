import MarkupSync.Format.Options
import MarkupSync.Text.Search

/-!
# Formatting lines

* `formatLines`: line ends, indentation, white space at the ends of lines and the last line break.
  Lines that start inside `<pre>`, `<textarea>` or a template of a script stay as they are;
* `Verbatim`: what the next line starts inside.
-/

namespace MarkupSync

/-- What the next line starts inside. -/
structure Verbatim where
  /-- An element whose lines are kept. -/
  element : Option Text
  /-- A template of a script. -/
  isTemplate : Bool
  deriving Repr, DecidableEq

namespace Verbatim

/-- Nothing whose lines are kept. -/
def outside : Verbatim := ⟨none, false⟩

/-- Whether the next line is kept as it is. -/
def keepsLine (v : Verbatim) : Bool := v.element.isSome || v.isTemplate

/-- The elements whose lines are kept. -/
def keptTags : List Text := ["pre".toList, "textarea".toList]

/-- The text behind the first open tag of an element, if its name ends there. -/
def afterOpen? (tag s : Text) : Option Text :=
  match Text.cut? ('<' :: tag) s with
  | some (_, c :: r) => if c = '>' || isBlank c then some (c :: r) else none
  | _ => none

theorem length_of_afterOpen? {tag s r : Text} (h : afterOpen? tag s = some r) :
    r.length < s.length := by
  simp only [afterOpen?] at h
  split at h
  next p c t ht =>
    split at h
    · cases h
      have := congrArg List.length (Text.eq_of_cut?_eq_some ht)
      simp only [List.length_append, List.length_cons] at this ⊢
      omega
    · cases h
  · cases h

/-- The first of the elements whose lines are kept that is opened in a text, and what follows. -/
def opened? (tags : List Text) (s : Text) : Option (Text × Text) :=
  match tags with
  | [] => none
  | tag :: rest =>
    match afterOpen? tag s with
    | some r => some (tag, r)
    | none => opened? rest s

theorem length_of_opened? {tags : List Text} {tag s r : Text} (h : opened? tags s = some (tag, r)) :
    r.length < s.length := by
  induction tags with
  | nil => cases h
  | cons t ts ih =>
    simp only [opened?] at h
    split at h
    next q hq => cases h; exact length_of_afterOpen? hq
    next => exact ih h

/-- The element that a line ends inside; letters are in lower case. -/
def elementAfter (element : Option Text) (s : Text) : Option Text :=
  match element with
  | some tag =>
    match _h : Text.cut? ('<' :: '/' :: tag) s with
    | none => some tag
    | some (_, r) => elementAfter none r
  | none =>
    match _h : opened? keptTags s with
    | none => none
    | some (tag, r) => elementAfter (some tag) r
termination_by s.length
decreasing_by
  · have := congrArg List.length (Text.eq_of_cut?_eq_some _h)
    simp only [List.length_append, List.length_cons] at this
    omega
  · exact length_of_opened? _h

/-- Whether a line ends inside a template of a script. -/
def templateAfter (isTemplate escaped : Bool) : Text → Bool
  | [] => isTemplate
  | c :: s =>
    if escaped then templateAfter isTemplate false s
    else if c = '\\' then templateAfter isTemplate true s
    else templateAfter (if c = '\x60' then !isTemplate else isTemplate) false s

/-- What the line behind a line starts inside. -/
def next (v : Verbatim) (hasScripts : Bool) (line : Text) : Verbatim :=
  ⟨elementAfter v.element (Text.lower line),
    if hasScripts then templateAfter v.isTemplate false line else v.isTemplate⟩

end Verbatim

/-- The columns that an indentation takes. -/
def indentColumns (o : FormatOptions) (indent : Text) : Nat :=
  (indent.map fun c => if c = '\t' then o.columns else 1).foldl (· + ·) 0

/-- The indentation of a number of columns. -/
def indentOf (o : FormatOptions) (columns : Nat) : Text :=
  if o.useTabs then
    List.replicate (columns / o.columns) '\t' ++ List.replicate (columns % o.columns) ' '
  else List.replicate columns ' '

/-- A line with its indentation written as the options say, and nothing behind its last word. -/
def formatLine (o : FormatOptions) (line : Text) : Text :=
  let line := Text.trimEnd isSpace line
  match line.dropWhile isIndent with
  | [] => []
  | body => indentOf o (indentColumns o (line.takeWhile isIndent)) ++ body

/-- Format lines, the first of which starts inside `v`. -/
def formatAll (o : FormatOptions) (hasScripts : Bool) (v : Verbatim) : List Text → List Text
  | [] => []
  | line :: rest =>
    (if v.keepsLine then line else formatLine o line) ::
      formatAll o hasScripts (v.next hasScripts line) rest

/-- One line break at the end of a text. -/
def endWithNewline (s : Text) : Text := Text.trimEnd (· == '\n') s ++ ['\n']

/-- The lines of a text formatted; `hasScripts` says whether there can be templates of scripts. -/
def formatLines (o : FormatOptions) (hasScripts : Bool) (s : Text) : Text :=
  let lines := Text.lines (Text.replaceAll ['\r', '\n'] ['\n'] s)
  let output := ['\n'].intercalate (formatAll o hasScripts .outside lines)
  if o.finalNewline then endWithNewline output else output

end MarkupSync
