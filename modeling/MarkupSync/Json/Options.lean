import MarkupSync.Canvas.Adapt
import MarkupSync.Format.Options
import MarkupSync.Json.Record

/-!
# Options in JSON

* `FormatOptions.toJson`, `FormatOptions.ofJson?`;
* `Decoration.toJson`, `Decoration.ofJson?`.
-/

namespace MarkupSync

namespace QuoteStyle

/-- The name of a quote style. -/
def name : QuoteStyle → Text
  | double => "double".toList
  | single => "single".toList

/-- The quote style of a name. -/
def ofName? (s : Text) : Option QuoteStyle := [double, single].find? fun q => q.name == s

/-- The quote style that a value stands for: its name, or an entry of that name without value. -/
def ofJson? : Json → Option QuoteStyle
  | .object [(key, .null)] => (Json.unquote? key).bind ofName?
  | j => j.text?.bind ofName?

end QuoteStyle

namespace FormatOptions

/-- Options as a value. -/
def toJson (o : FormatOptions) : Json :=
  .object [Json.entry "indentWidth" (.ofNat o.indentWidth),
    Json.entry "useTabs" (.bool o.useTabs), Json.entry "quote" (.ofText o.quote.name),
    Json.entry "finalNewline" (.bool o.finalNewline)]

/-- The options that a value stands for. -/
def ofJson? (j : Json) : Option FormatOptions := do
  let r ← j.record? ["indentWidth", "useTabs", "quote", "finalNewline"]
  let d : FormatOptions := {}
  return ⟨← r.orElse? "indentWidth" Json.nat? d.indentWidth,
    ← r.orElse? "useTabs" Json.bool? d.useTabs, ← r.orElse? "quote" QuoteStyle.ofJson? d.quote,
    ← r.orElse? "finalNewline" Json.bool? d.finalNewline⟩

end FormatOptions

namespace Decoration

/-- What tells decoration as a value. -/
def toJson (d : Decoration) : Json :=
  .object [Json.entry "stripClasses" (.ofList .ofText d.classes),
    Json.entry "stripElementClasses" (.ofList .ofText d.elementClasses),
    Json.entry "stripAttributes" (.ofList .ofText d.attributes),
    Json.entry "markerAttribute" (.ofText d.marker)]

/-- What tells decoration, as a value says. -/
def ofJson? (j : Json) : Option Decoration := do
  let r ← j.record? ["stripClasses", "stripElementClasses",
    "stripAttributes", "markerAttribute"]
  let texts := Json.list? Json.text?
  return ⟨← r.orElse? "stripClasses" texts standard.classes,
    ← r.orElse? "stripElementClasses" texts standard.elementClasses,
    ← r.orElse? "stripAttributes" texts standard.attributes,
    ← r.orElse? "markerAttribute" Json.text? standard.marker⟩

end Decoration

end MarkupSync
