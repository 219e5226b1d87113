import MarkupSync.Edit.Apply
import MarkupSync.Outcome
import MarkupSync.Patch.Error
import MarkupSync.Printer

/-!
# Markup syntax trees

JSX markup as a tree that is edited and printed again.

* `Markup`, `MarkupAttr`: elements, texts and expressions; a fragment is an element without a name;
* `Markup.ofNode`, `Markup.toNode`: from document trees and back;
* `Markup.apply`: edits. Attributes of an element with spread properties cannot be changed.
-/

namespace MarkupSync

/-- An attribute of an element. -/
inductive MarkupAttr
  | named (name value : Text)
  /-- `{...properties}`, with the braces. -/
  | spread (text : Text)
  deriving Repr, DecidableEq

/-- JSX markup. -/
inductive Markup
  | element (name : Text) (attributes : List MarkupAttr) (style : Attrs) (children : List Markup)
  | text (content : Text)
  /-- `{expression}`, with the braces. -/
  | expression (content : Text)
  deriving Repr, Inhabited

namespace MarkupAttr

/-- How spread properties start. -/
def spreadSign : Text := ['\x7b', '.', '.', '.']

/-- An attribute of a document. -/
def ofEntry (e : Entry) : MarkupAttr :=
  if Text.startsWith spreadSign e.1 then .spread e.1 else .named e.1 e.2

/-- The attribute of a document. -/
def entry : MarkupAttr → Entry
  | .named name value => (name, value)
  | .spread text => (text, [])

/-- Whether properties are spread. -/
def isSpread : MarkupAttr → Bool
  | .named _ _ => false
  | .spread _ => true

/-- Whether an attribute has a name of its own, which is `name`. -/
def isNamed (name : Text) : MarkupAttr → Bool
  | .named n _ => n == name
  | .spread _ => false

/-- Give an attribute a value in place, or append it. -/
def set (name value : Text) : List MarkupAttr → List MarkupAttr
  | [] => [.named name value]
  | a :: as => if a.isNamed name then .named name value :: as else a :: set name value as

/-- Drop an attribute. -/
def erase (name : Text) (as : List MarkupAttr) : List MarkupAttr :=
  as.filter fun a => !a.isNamed name

end MarkupAttr

namespace Markup

instance : Tree Markup where
  children?
    | .element _ _ _ children => some children
    | .text _ | .expression _ => none
  withChildren children
    | .element name attributes style _ => .element name attributes style children
    | .text content => .text content
    | .expression content => .expression content

/-- Text between tags: an expression if it stands in braces. -/
def ofText (content : Text) : Markup :=
  if isExpression content then .expression content else .text content

mutual

/-- The markup of a document. -/
def ofNode : Node → Markup
  | .text content => ofText content
  | .element tag attributes style children =>
    if tag = Node.rootTag then .element [] [] .empty (ofNodes children)
    else .element tag (attributes.entries.map .ofEntry) style (ofNodes children)

/-- The markup of documents. -/
def ofNodes : List Node → List Markup
  | [] => []
  | n :: ns => ofNode n :: ofNodes ns

end

/-- The markup of a whole document: a text is put into a fragment. -/
def ofRoot : Node → Markup
  | .text content => .element [] [] .empty [ofText content]
  | n => ofNode n

mutual

/-- The document that markup stands for. -/
def toNode : Markup → Node
  | .text content => .text content
  | .expression content => .text content
  | .element name attributes style children =>
    if name = [] then Node.root (toNodes children)
    else .element name (.ofList (attributes.map MarkupAttr.entry)) style (toNodes children)

/-- The documents that markup stands for. -/
def toNodes : List Markup → List Node
  | [] => []
  | m :: ms => toNode m :: toNodes ms

end

/-! ## Edits -/

/-- An element under change: its attributes and its style. -/
abbrev Head := List MarkupAttr × Attrs

/-- Give an attribute a value; the text of a style becomes declarations. -/
def assign (h : Head) (e : Entry) : Head :=
  if e.1 = styleName ∧ !isExpression e.2 then (h.1, Style.readDeclarations e.2)
  else (MarkupAttr.set e.1 e.2 h.1, h.2)

/-- Change the attributes and the style of the element at a path. -/
def withDeltas (path : NodePath) (attributes style : Delta) : Markup → Except PatchError Markup
  | .text _ | .expression _ => .error (.unresolved path)
  | .element name as st children =>
    if as.any MarkupAttr.isSpread then .error (.unsupported path .spreadUpdate)
    else
      let kept := attributes.removed.foldl (fun as name => MarkupAttr.erase name as) as
      let (as, st) := attributes.assignments.foldl assign (kept, st)
      .ok (.element name as (style.apply st) children)

/-- The markup after an edit of the node in a list of children. -/
def replaceIn (m : Markup) (path : NodePath) (f : Markup → Except PatchError Markup) :
    Except PatchError Markup :=
  match Tree.slot m path with
  | .error e => .error (.ofEdit .rootHasNoParent e)
  | .ok s =>
    match f s.node with
    | .error e => .error e
    | .ok new => .ok (Tree.modifyAt (Tree.withChildren (s.siblings.set s.index new)) s.parent m)

/-- The markup after a change of the element at a path. -/
def updateElement (m : Markup) (path : NodePath) (f : Markup → Except PatchError Markup) :
    Except PatchError Markup :=
  match Tree.descend m path with
  | none => .error (.unresolved path)
  | some old =>
    match f old with
    | .error e => .error e
    | .ok new => .ok (Tree.modifyAt (fun _ => new) path m)

/-- A text with other content. -/
def withContent (path : NodePath) (content : Text) : Markup → Except PatchError Markup
  | .element .. => .error (.unresolved path)
  | .text _ | .expression _ => .ok (ofText content)

/-- An outcome with the errors of patches. -/
def patched (o : Outcome Markup EditError) : Outcome Markup PatchError :=
  ⟨o.state, o.error.map (.ofEdit .rootHasNoParent)⟩

/-- The markup after an edit. -/
def apply (m : Markup) : Edit → Outcome Markup PatchError
  | .insert parent index node => patched (.ofExcept m (Tree.insertAt m parent index (ofNode node)))
  | .remove path => patched (.ofExcept m ((Tree.detach m path).map Prod.snd))
  | .replace path node =>
    if path = [] then ⟨ofRoot node, none⟩
    else .ofExcept m (m.replaceIn path fun _ => .ok (ofNode node))
  | .updateAttributes path attributes style =>
    .ofExcept m (m.updateElement path (withDeltas path attributes style))
  | .updateText path content => .ofExcept m (m.replaceIn path (withContent path content))
  | .move source parent index => patched (Tree.move m source parent index)

end Markup

end MarkupSync
