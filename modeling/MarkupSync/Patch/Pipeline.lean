import MarkupSync.Format.Checked
import MarkupSync.Patch.Component

/-!
# Patching and formatting source files

* `patchSource`: a file of any dialect after edits of its document;
* `Pipeline`, `Pipeline.run`: a file after edits of its document, formatted if there is a formatter
  and formatting succeeds.
-/

namespace MarkupSync

/-- An HTML text after edits of its document. -/
def patchMarkupFile (source : Text) (edits : List Edit) (options : FormatOptions) :
    Except PatchError Text :=
  match Document.read .html source with
  | .error e => .error (.source e)
  | .ok d => patchText source d edits .html options

/-- A file after edits of its document. -/
def patchSource (dialect : Dialect) (source : Text) (edits : List Edit) (options : FormatOptions) :
    Except PatchError Text :=
  if edits.isEmpty then .ok source
  else
    match dialect with
    | .html => patchMarkupFile source edits options
    | .jsx => patchScript source edits options
    | .tsx => patchScript source edits options
    | .vue => patchComponent source { template := edits } options

/-- How files are patched and formatted. -/
structure Pipeline where
  dialect : Dialect
  options : FormatOptions
  formatter : Option Formatter

/-- A patched text, and whether it is formatted. -/
structure Patched where
  text : Text
  isFormatted : Bool
  deriving Repr, DecidableEq

/-- Format a text; if that fails it stays as it is. -/
def Pipeline.format (p : Pipeline) (s : Text) : Patched :=
  match p.formatter with
  | none => ⟨s, false⟩
  | some f =>
    match f.checked p.dialect p.options s with
    | .ok formatted => ⟨formatted, true⟩
    | .error _ => ⟨s, false⟩

/-- A file after edits of its document. -/
def Pipeline.run (p : Pipeline) (source : Text) (edits : List Edit) : Except PatchError Patched :=
  (patchSource p.dialect source edits p.options).map p.format

end MarkupSync
