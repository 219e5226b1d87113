import MarkupSync.Document.Source
import MarkupSync.Edit.Apply
import MarkupSync.Patch.Script
import MarkupSync.Format.Options

/-!
# Patching single-file components

* `ComponentPatch`: what to change in each section;
* `patchComponent`: a component after a patch. Every section keeps the bytes around its content; a
  missing template is put in front and a missing style behind.
-/

namespace MarkupSync

/-- What to change in a single-file component. -/
structure ComponentPatch where
  /-- Edits of the template. -/
  template : List Edit := []
  /-- Edits of the markup that the script renders. -/
  script : List Edit := []
  /-- The new content of the style section. -/
  style : Option Text := none
  deriving Repr, Inhabited

/-- Whether there is nothing to change. -/
def ComponentPatch.isEmpty (p : ComponentPatch) : Bool :=
  p.template.isEmpty && p.script.isEmpty && p.style.isNone

namespace Component

/-- Check that splices stay within a section. -/
def confine (content : Span) (splices : List Splice) : Except PatchError (List Splice) :=
  match splices.find? fun s => s.span.start < content.start || content.stop < s.span.stop with
  | some s => .error (.invalidSplice ⟨s.span, .outsideSection content⟩)
  | none => .ok splices

/-- The splices that carry out edits of the template. -/
def templateSplices (source : Text) (block : Option Section) (edits : List Edit)
    (options : FormatOptions) : Except PatchError (List Splice) :=
  if edits.isEmpty then .ok []
  else
    match block with
    | some block =>
      match Document.readWithin .html block.content source with
      | .error e => .error (.source e)
      | .ok d =>
        match textSplices source d edits .html options with
        | .error e => .error e
        | .ok splices => confine block.content splices
    | none =>
      match ((Node.root []).applyAll edits).result with
      | .error e => .error (.unresolved e.path)
      | .ok n => .ok [⟨⟨0, 0⟩, Dialect.vue.printFile options n⟩]

/-- The splices that carry out edits of the markup that the script renders. -/
def scriptSplices (source : Text) (block : Option Section) (edits : List Edit)
    (options : FormatOptions) : Except PatchError (List Splice) :=
  if edits.isEmpty then .ok []
  else
    match block with
    | none => .error (.unsupported [] .noScript)
    | some block =>
      (patchScript (source.at block.content) edits options).map fun text => [⟨block.content, text⟩]

/-- A style section with line breaks around its content. -/
def styleBlock (content : Text) : Text :=
  let front := if Text.startsWith ['\n'] content then content else '\n' :: content
  let body := if Text.endsWith ['\n'] front then front else front ++ ['\n']
  "<style>".toList ++ body ++ "</style>\n".toList

/-- The splice that gives the style section another content. -/
def styleSplice (source : Text) (block : Option Section) (content : Text) : Splice :=
  match block with
  | some block => ⟨block.content, content⟩
  | none =>
    let stop := width source
    let separator := if source = [] ∨ Text.endsWith ['\n'] source then [] else ['\n']
    ⟨⟨stop, stop⟩, separator ++ styleBlock content⟩

end Component

/-- The splices that carry out a patch of a component with the given sections. -/
def componentSplices (source : Text) (sections : Sections) (p : ComponentPatch)
    (options : FormatOptions) : Except PatchError (List Splice) :=
  match Component.templateSplices source sections.template p.template options with
  | .error e => .error e
  | .ok inTemplate =>
    match Component.scriptSplices source sections.script p.script options with
    | .error e => .error e
    | .ok inScript =>
      .ok (inTemplate ++ inScript ++
        (p.style.map (Component.styleSplice source sections.style)).toList)

/-- A component after a patch. -/
def patchComponent (source : Text) (p : ComponentPatch) (options : FormatOptions) :
    Except PatchError Text :=
  match Sections.split source with
  | .error e => .error (.source e)
  | .ok sections =>
    match componentSplices source sections p options with
    | .error e => .error e
    | .ok splices => (Splice.applyAll splices source).mapError .invalidSplice

end MarkupSync
