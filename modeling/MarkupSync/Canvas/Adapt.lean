import MarkupSync.Attrs
import MarkupSync.Canvas.Basic
import MarkupSync.Node
import MarkupSync.Printer
import MarkupSync.Text.Blank
import MarkupSync.Text.Flow

/-!
# The document on a canvas

An editor adds elements of its own to the canvas, and classes and attributes to elements of the
document. The canvas is read back as the document that its markup would have: without decoration and
comments, and with the white space of texts as a reader of the flavor sees it.

* `Decoration`: how decoration is told from the document;
* `Decoration.marks`: the elements of the editor;
* `Decoration.cleanClass?`, `Decoration.editorClasses`: the two parts of a class list;
* `Decoration.adaptNode`, `Decoration.adaptAll`: elements and lists of children;
* `Canvas.adapt`: the document on a canvas.
-/

namespace MarkupSync

/-! ## Decoration -/

/-- How decoration is told from the document. -/
structure Decoration where
  /-- Classes that the editor puts on elements of the document. -/
  classes : List Text
  /-- Classes of the editor's own elements. -/
  elementClasses : List Text
  /-- Attributes that the editor puts on elements of the document. -/
  attributes : List Text
  /-- An attribute of the editor's own elements. -/
  marker : Text
  deriving Repr, DecidableEq, Inhabited

namespace Decoration

/-- The customary decoration. -/
def standard : Decoration where
  classes := ["selected".toList, "multi-selected".toList, "canvas-element".toList,
    "dragging".toList, "drag-over".toList]
  elementClasses := ["delete-btn".toList, "resize-handle".toList, "selection-outline".toList]
  attributes := ["contenteditable".toList, "draggable".toList, "data-component-type".toList]
  marker := "data-editor-ui".toList

/-- Whether an attribute belongs to the editor. -/
def hidesAttribute (d : Decoration) (name : Text) : Bool := d.attributes.contains name

/-- Whether a class belongs to the editor. -/
def hidesClass (d : Decoration) (name : Text) : Bool := d.classes.contains name

/-- Whether an element with these attributes belongs to the editor. -/
def marks (d : Decoration) (attributes : Attrs) : Bool :=
  attributes.entries.any fun e =>
    e.1 == d.marker ||
      (e.1 == className && (Text.words e.2).any fun name => d.elementClasses.contains name)

/-- The classes of the editor in a list of classes. -/
def editorClasses (d : Decoration) (value : Text) : List Text :=
  (Text.words value).filter d.hidesClass

/-- A list of classes without those of the editor; none if there were only such. -/
def cleanClass? (d : Decoration) (value : Text) : Option Text :=
  if isExpression value then some value
  else if (d.editorClasses value).isEmpty then some (Text.collapse value)
  else
    let kept := (Text.words value).filter fun name => !d.hidesClass name
    if kept.isEmpty then none else some ([' '].intercalate kept)

/-! ## Reading the canvas back -/

/-- The attributes and the style of an element in a document. -/
structure Head where
  attributes : Attrs
  style : Attrs
  deriving Repr

/-- Add an attribute that an element has on the canvas. -/
def addAttribute (d : Decoration) (h : Head) (e : Entry) : Head :=
  if d.hidesAttribute e.1 || h.attributes.has e.1 then h
  else if e.1 = className then
    match d.cleanClass? e.2 with
    | some value => { h with attributes := h.attributes.insert e.1 value }
    | none => h
  else if e.1 = styleName ∧ !isExpression e.2 then { h with style := Style.readDeclarations e.2 }
  else { h with attributes := h.attributes.insert e.1 e.2 }

/-- The attributes and the style of an element that has these attributes on the canvas. -/
def head (d : Decoration) (attributes : Attrs) : Head :=
  attributes.entries.foldl d.addAttribute ⟨.empty, .empty⟩

/-- The text of a run on the canvas; none if nothing is left of it. -/
def runText? (raw : Bool) (run : Text) : Option Text :=
  if raw then
    let kept := Text.trimmedSpan run
    if kept.length = 0 then none else some (run.at kept)
  else collapsed? run

/-- The node of a run on the canvas, if something is left of it. -/
def runNodes (raw : Bool) (run : Text) : List Node := ((runText? raw run).map Node.text).toList

mutual

/-- The node of a document that a node of the canvas shows. -/
def adaptNode (d : Decoration) (flavor : Flavor) : Live → Node
  | .text _ content => .text content
  | .comment _ content => .text content
  | .element _ tag attributes children =>
    let h := d.head attributes
    .element tag h.attributes h.style (d.adaptAll flavor (isRaw tag) [] children)

/-- The nodes of a document that a list of children shows, behind the text `run`. -/
def adaptAll (d : Decoration) (flavor : Flavor) (raw : Bool) (run : Text) : List Live → List Node
  | [] => runNodes raw run
  | n :: ns =>
    match n with
    | .comment _ _ => d.adaptAll flavor raw run ns
    | .text _ content =>
      if flavor = .jsx ∧ !raw then
        ((joinedLines? content).map Node.text).toList ++ d.adaptAll flavor raw run ns
      else d.adaptAll flavor raw (run ++ content) ns
    | .element _ _ attributes _ =>
      if d.marks attributes then d.adaptAll flavor raw run ns
      else runNodes raw run ++ d.adaptNode flavor n :: d.adaptAll flavor raw [] ns

end

end Decoration

/-- The children of a node of the canvas. -/
def Live.children : Live → List Live
  | .element _ _ _ children => children
  | .text _ _ | .comment _ _ => []

/-- The document on a canvas. -/
def Canvas.adapt (c : Canvas) (d : Decoration) (flavor : Flavor) : Node :=
  .ofTopLevel (d.adaptAll flavor false [] c.view.children)

end MarkupSync
