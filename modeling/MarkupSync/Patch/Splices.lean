import MarkupSync.Format.Options
import MarkupSync.Patch.Shadow
import MarkupSync.Text.Blank
import MarkupSync.Text.Search

/-!
# Patching texts in place

The source of a document is changed where edits changed the document and nowhere else.

* a changed attribute is written anew, a removed one goes with the blanks in front of it, new ones
  come behind the last;
* a changed text replaces the old one;
* where the list of children changed, the range from the first to the last child is written anew:
  kept children as they are in the source, with their own changes, and new ones printed.

Main definitions: `Patcher.splices` and `patchText`.
-/

namespace MarkupSync

/-- What patches depend on. -/
structure Patcher where
  source : Text
  flavor : Flavor
  options : FormatOptions
  deriving Repr

namespace Patcher

/-! ## Attributes -/

/-- Remove a range and the blanks in front of it. -/
def removal (source : Text) (r : Span) : Splice :=
  ⟨⟨width (Text.trimEnd isBlank (Text.before r.start source)), r.stop⟩, []⟩

/-- An element without its children. -/
structure Head where
  attributes : Attrs
  style : Attrs
  deriving Repr

/-- Whether an element has an attribute in place of a style. -/
def Head.hasStyleAttribute (h : Head) : Bool := h.attributes.has styleName

/-- The change of an attribute that is in the source, if it changed. -/
def attributeSplice (p : Patcher) (old new : Head) (a : AttrPlace) : List Splice :=
  let printer := p.options.printer p.flavor
  if a.key = styleName ∧ !old.hasStyleAttribute then
    if new.style.same old.style then []
    else if new.style.isEmpty then [removal p.source a.span]
    else [⟨a.span, printer.styleAttribute new.style⟩]
  else
    match new.attributes.find? a.key with
    | none => [removal p.source a.span]
    | some value =>
      if old.attributes.find? a.key = some value then []
      else [⟨a.span, printer.attr a.key value⟩]

/-- The attributes that are not in the source, a space before each. -/
def addedAttributes (p : Patcher) (old new : Head) (place : ElementPlace) : Text :=
  let printer := p.options.printer p.flavor
  let added := new.attributes.entries.filter fun e =>
    !old.attributes.has e.1 && (place.attribute? e.1).isNone
  let isWritten := (place.attribute? styleName).isSome && !old.hasStyleAttribute
  added.flatMap (fun e => ' ' :: printer.attr e.1 e.2) ++
    if new.style.isEmpty || isWritten then [] else ' ' :: printer.styleAttribute new.style

/-- The changes in an open tag. -/
def tagSplices (p : Patcher) (old new : Head) (place : ElementPlace) : List Splice :=
  if old.attributes.same new.attributes && old.style.same new.style then []
  else
    let added := p.addedAttributes old new place
    place.attributes.flatMap (p.attributeSplice old new) ++
      if added = [] then [] else [⟨⟨place.attrsEnd, place.attrsEnd⟩, added⟩]

/-! ## Children -/

/-- A new node, to be put on a line with the given indentation. -/
def fresh (p : Patcher) (raw : Bool) (indent : Text) (n : Node) : Text :=
  let printer := p.options.printer p.flavor
  Text.indented indent
    (match n with
      | .text content => printer.text raw content
      | .element .. => printer.print n)

/-- Whether the children of a shadow are the children of its origin in their order. -/
def keepsChildren (path : NodePath) (count : Nat) (children : List Shadow) : Bool :=
  (children.map fun s => s.origin.map Origin.path) ==
    (List.range count).map fun i => some (path.child i)

/-- How children are put where other children were: the range, the text between two children and
the indentation of new ones. -/
structure Arrangement where
  span : Span
  front : Text
  separator : Text
  indent : Text
  back : Text
  deriving Repr

/-- New children in place of others: they are divided as the first two were. -/
def rearranged (p : Patcher) (first last : Place) (second : Option Place) : Arrangement :=
  let indent := Text.indentBefore? first.outer.start p.source
  let line := match indent with
    | some indent => '\n' :: indent
    | none => []
  let gap := second.map fun second => p.source.at ⟨first.outer.stop, second.outer.start⟩
  let separator := match gap with
    | some gap => if gap.all isBlank then gap else line
    | none => line
  ⟨⟨first.outer.start, last.outer.stop⟩, [], separator, indent.getD [], []⟩

/-- Whether the children of an element that had none go on lines of their own. -/
def breaksLines (flavor : Flavor) (children : List Shadow) : Bool :=
  match flavor with
  | .html => children.any Shadow.isElement
  | .jsx => children.all Shadow.isElement

/-- Children of an element that had none. -/
def arranged (p : Patcher) (place : ElementPlace) (inner : Span) (children : List Shadow) :
    Arrangement :=
  if breaksLines p.flavor children then
    let outerIndent := Text.lineIndent place.outer.start p.source
    if place.openTag = none ∧ inner.start = 0 then
      ⟨inner, [], '\n' :: outerIndent, outerIndent, []⟩
    else
      let indent := outerIndent ++ p.options.unit
      ⟨inner, '\n' :: indent, '\n' :: indent, indent, '\n' :: outerIndent⟩
  else ⟨inner, [], [], [], []⟩

/-- How the new children of an element are put into the source. -/
def arrangement (p : Patcher) (place : ElementPlace) (inner : Span) (old : List Place)
    (children : List Shadow) : Arrangement :=
  match old with
  | [] => p.arranged place inner children
  | first :: rest => p.rearranged first (rest.getLastD first) rest.head?

/-- Children put together. -/
def Arrangement.splice (a : Arrangement) (parts : List Text) : Splice :=
  ⟨a.span, a.front ++ a.separator.intercalate parts ++ a.back⟩

/-- Whether the content of an element is written as it is. -/
def keepsContent (p : Patcher) (tag : Text) : Bool := p.flavor == .html && isRaw tag

mutual

/-- The changes inside a node that has an origin. -/
def splices (p : Patcher) (raw : Bool) : Shadow → Except PatchError (List Splice)
  | .text none _ => .ok []
  | .text (some origin) content =>
    match origin.place with
    | .element place _ => .error (.invalidSplice ⟨place.outer, .wrongKind⟩)
    | .text span =>
      match origin.node with
      | .text old =>
        if old = content then .ok []
        else .ok [⟨span, (p.options.printer p.flavor).text raw content⟩]
      | .element .. => .ok [⟨span, (p.options.printer p.flavor).text raw content⟩]
  | .element none .. => .ok []
  | .element (some origin) tag attributes style children =>
    match origin.place, origin.node with
    | .text span, _ => .error (.invalidSplice ⟨span, .wrongKind⟩)
    | .element place _, .text _ => .error (.invalidSplice ⟨place.outer, .wrongKind⟩)
    | .element place old, .element _ oldAttributes oldStyle _ =>
      let changed := !keepsChildren origin.path old.length children
      let inTag := p.tagSplices ⟨oldAttributes, oldStyle⟩ ⟨attributes, style⟩ place
      match place.inner with
      | none =>
        if changed then
          let node := .element tag attributes style (Shadow.toNodes children)
          .ok [⟨place.outer, p.fresh false (Text.lineIndent place.outer.start p.source) node⟩]
        else .ok inTag
      | some inner =>
        let inTag := if place.openTag.isSome then inTag else []
        let raw := p.keepsContent tag
        if !changed then (p.splicesAll raw children).map (inTag ++ ·)
        else if children.isEmpty then .ok (inTag ++ [⟨inner, []⟩])
        else
          let a := p.arrangement place inner old children
          (p.parts raw a.indent children).map fun parts => inTag ++ [a.splice parts]

/-- The changes inside nodes. -/
def splicesAll (p : Patcher) (raw : Bool) : List Shadow → Except PatchError (List Splice)
  | [] => .ok []
  | s :: ss =>
    match p.splices raw s with
    | .error e => .error e
    | .ok here => (p.splicesAll raw ss).map (here ++ ·)

/-- The texts of children: of kept ones from the source, with the changes inside them. -/
def parts (p : Patcher) (raw : Bool) (indent : Text) : List Shadow → Except PatchError (List Text)
  | [] => .ok []
  | s :: ss =>
    let part : Except PatchError Text :=
      match s.origin with
      | none => .ok (p.fresh raw indent s.toNode)
      | some origin =>
        match p.splices raw s with
        | .error e => .error e
        | .ok here =>
          let outer := origin.place.outer
          let shifted := here.map fun splice =>
            ⟨⟨splice.span.start - outer.start, splice.span.stop - outer.start⟩, splice.replacement⟩
          (Splice.applyAll shifted (p.source.at outer)).mapError .invalidSplice
    match part with
    | .error e => .error e
    | .ok text => (p.parts raw indent ss).map (text :: ·)

end

/-- The range that a new root replaces: the document without the blanks around it. -/
def documentSpan (place : Place) : Span :=
  match place with
  | .element e (first :: rest) =>
    if e.openTag = none then ⟨first.outer.start, (rest.getLastD first).outer.stop⟩ else e.outer
  | place => place.outer

/-- The changes of a source whose root is at `place`. -/
def rootSplices (p : Patcher) (place : Place) (root : Shadow) : Except PatchError (List Splice) :=
  match root.origin with
  | some _ => p.splices false root
  | none =>
    let span := documentSpan place
    .ok [⟨span, p.fresh false (Text.lineIndent span.start p.source) root.toNode⟩]

end Patcher

/-- The splices of a source that carry out edits of its document. -/
def textSplices (source : Text) (d : Document) (edits : List Edit) (flavor : Flavor)
    (options : FormatOptions) : Except PatchError (List Splice) :=
  match (Shadow.ofDocument d).applyAll edits with
  | .error e => .error e
  | .ok root => (Patcher.mk source flavor options).rootSplices d.place root

/-- The source after edits of its document. -/
def patchText (source : Text) (d : Document) (edits : List Edit) (flavor : Flavor)
    (options : FormatOptions) : Except PatchError Text :=
  match textSplices source d edits flavor options with
  | .error e => .error e
  | .ok splices => (Splice.applyAll splices source).mapError .invalidSplice

end MarkupSync
