import MarkupSync.Document.Source
import MarkupSync.Format.Lines
import MarkupSync.Splice

/-!
# Formatting that keeps the document

* `Formatter`, `Formatter.standard`: what formats the text of a file;
* `Formatter.checked`: the formatted text, unless its document is another one. Of a single-file
  component only the template is formatted.
-/

namespace MarkupSync

/-- Why a text cannot be formatted. -/
inductive FormatError
  | failed (reason : Text)
  | semanticsChanged (dialect : Dialect)
  | parse (e : ParseError)
  deriving Repr, DecidableEq

/-- The wording of an error. -/
def FormatError.message : FormatError → String
  | failed reason => "Formatter failed: " ++ String.ofList reason
  | semanticsChanged dialect =>
    "Formatting changed the document tree of a " ++ dialect.name ++ " file"
  | parse e => "Parse error: " ++ e.message

/-- What formats the text of a file. -/
abbrev Formatter := Dialect → FormatOptions → Text → Except FormatError Text

namespace Formatter

/-- The formatter of lines. -/
def standard : Formatter := fun dialect options s =>
  .ok (formatLines options (dialect != .html) s)

/-- The text with the template of a single-file component formatted. -/
def template (f : Formatter) (options : FormatOptions) (s : Text) : Except FormatError Text :=
  match Sections.split s with
  | .error e => .error (.parse e)
  | .ok sections =>
    match sections.template with
    | none => .ok s
    | some block =>
      (f .html { options with finalNewline := false } (s.at block.content)).map fun formatted =>
        Text.before block.content.start s ++ formatted ++ Text.after block.content.stop s

/-- The formatted text, not yet checked. -/
def unchecked (f : Formatter) (dialect : Dialect) (options : FormatOptions) (s : Text) :
    Except FormatError Text :=
  if dialect.isSectioned then f.template options s else f dialect options s

/-- The formatted text, if it has the same document. -/
def checked (f : Formatter) (dialect : Dialect) (options : FormatOptions) (s : Text) :
    Except FormatError Text :=
  match f.unchecked dialect options s with
  | .error e => .error e
  | .ok formatted =>
    if formatted = s then .ok s
    else
      match Document.ofSource dialect s, Document.ofSource dialect formatted with
      | .error e, _ => .error (.parse e)
      | .ok _, .error e => .error (.parse e)
      | .ok before, .ok after =>
        if before.root.same after.root then .ok formatted else .error (.semanticsChanged dialect)

end Formatter

end MarkupSync
