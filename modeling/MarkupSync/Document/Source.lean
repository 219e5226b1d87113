import MarkupSync.Script.Component
import MarkupSync.Section

/-!
# Documents of source files

* `Document.ofSource`: the markup document of a file of any dialect. A single-file component has
  the document of its template, and an empty one without a template.
-/

namespace MarkupSync

/-- The bytes of a component's template; the end of the text if there is none. -/
def Sections.templateSpan (sections : Sections) (s : Text) : Span :=
  match sections.template with
  | some block => block.content
  | none => ⟨width s, width s⟩

/-- The document of the template of a single-file component. -/
def Document.readTemplate (s : Text) : Except ParseError Document :=
  match Sections.split s with
  | .error e => .error e
  | .ok sections => Document.readWithin .html (sections.templateSpan s) s

/-- The markup document of a file. -/
def Document.ofSource : Dialect → Text → Except ParseError Document
  | .html, s => Document.read .html s
  | .vue, s => Document.readTemplate s
  | .jsx, s => (Document.readScript s).map Prod.fst
  | .tsx, s => (Document.readScript s).map Prod.fst

end MarkupSync
