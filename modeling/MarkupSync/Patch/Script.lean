import MarkupSync.Patch.Markup
import MarkupSync.Patch.Splices
import MarkupSync.Script.Component

/-!
# Patching script modules

* `ScriptModule`: a module with its markup as a syntax tree, and the code in front of it and behind
  it;
* `ScriptModule.print`: the module with its markup printed at its old indentation;
* `patchScript`: a module after edits of its markup: by its syntax tree or, where that cannot
  express an edit, in place.
-/

namespace MarkupSync

/-- A script module with its markup. -/
structure ScriptModule where
  front : Text
  markup : Markup
  back : Text
  /-- The indentation of the line on which the markup starts. -/
  indent : Text
  deriving Repr

namespace ScriptModule

/-- A module whose document `d` stands in the bytes `region`. -/
def ofDocument (source : Text) (d : Document) (region : Span) : ScriptModule where
  front := Text.before region.start source
  markup := .ofRoot d.root
  back := Text.after region.stop source
  indent := Text.lineIndent region.start source

/-- Read a module. -/
def read (source : Text) : Except ParseError ScriptModule :=
  (Document.readScript source).map fun (d, region) => ofDocument source d region

/-- The module after an edit. -/
def apply (m : ScriptModule) (e : Edit) : Outcome ScriptModule PatchError :=
  let after := m.markup.apply e
  ⟨{ m with markup := after.state }, after.error⟩

/-- The module after edits in order, up to the first that fails. -/
def applyAll (m : ScriptModule) (edits : List Edit) : Outcome ScriptModule PatchError :=
  .run apply m edits

/-- The text of a module. -/
def print (options : FormatOptions) (m : ScriptModule) : Text :=
  m.front ++ Text.indented m.indent ((options.printer .jsx).print m.markup.toNode) ++ m.back

end ScriptModule

/-- A module after edits of its syntax tree. -/
def patchMarkup (source : Text) (edits : List Edit) (options : FormatOptions) :
    Except PatchError Text :=
  match ScriptModule.read source with
  | .error e => .error (.source e)
  | .ok m => ((m.applyAll edits).result).map (ScriptModule.print options)

/-- A module after edits of its markup in place. -/
def patchMarkupText (source : Text) (edits : List Edit) (options : FormatOptions) :
    Except PatchError Text :=
  match Document.readScript source with
  | .error e => .error (.source e)
  | .ok (d, _) => patchText source d edits .jsx options

/-- A module after edits of its markup: by its syntax tree, or else in place. -/
def patchScript (source : Text) (edits : List Edit) (options : FormatOptions) :
    Except PatchError Text :=
  match patchMarkup source edits options with
  | .ok text => .ok text
  | .error _ => patchMarkupText source edits options

end MarkupSync
