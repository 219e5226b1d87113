import MarkupSync.Document.Place
import MarkupSync.Lexeme.Scan
import MarkupSync.Style.Object
import MarkupSync.Text.Flow

/-!
# Reading documents

Markup is read by a stack of open elements and fragments, one lexeme at a time.

* `TagContent.add`: what an attribute adds to an element; of two attributes of a name the first
  counts;
* `Reader`, `Reader.step`: the nodes read so far and what is still open around them;
* `Document.read`: the document of a whole text;
* `Document.readRootAt`: the document of the one element or fragment that a text starts with, and
  where it ends.
-/

namespace MarkupSync

/-! ## Attributes -/

/-- What the attributes of a tag say. -/
structure TagContent where
  attributes : Attrs
  style : Attrs
  places : List AttrPlace
  deriving Repr

/-- What an attribute says. -/
inductive AttrMeaning
  | value (text : Text)
  | declarations (style : Attrs)
  deriving Repr

/-- What the attribute named `key` says with a value as it is written. -/
def AttrMeaning.of (key : Text) : Option RawValue → AttrMeaning
  | none => .value []
  | some raw =>
    if raw.quoting = .braces then
      match if key = styleName then Style.readObject? raw.text else none with
      | some style => .declarations style
      | none => .value ('\x7b' :: raw.text ++ ['\x7d'])
    else if key = styleName then .declarations (Style.readDeclarations (decodeEntities raw.text))
    else if key = className then .value (Text.collapse (decodeEntities raw.text))
    else .value (decodeEntities raw.text)

/-- Add an attribute, unless there is one of its name. -/
def TagContent.add (flavor : Flavor) (t : TagContent) (raw : RawAttribute) : TagContent :=
  let key := flavor.key raw.name
  if t.attributes.has key || (key == styleName && !t.style.isEmpty) then t
  else
    let places := t.places ++ [⟨key, raw.span, raw.value.map RawValue.span⟩]
    match AttrMeaning.of key raw.value with
    | .value value => { t with attributes := t.attributes.insert key value, places }
    | .declarations style => { t with style, places }

/-- What the attributes of an open tag say. -/
def OpenTag.content (flavor : Flavor) (t : OpenTag) : TagContent :=
  t.attributes.foldl (TagContent.add flavor) ⟨.empty, .empty, []⟩

/-- The bytes of an open tag. -/
def OpenTag.span (t : OpenTag) : Span := ⟨t.nameSpan.start, t.closing.stop⟩

/-- Where the attributes of an open tag end. -/
def OpenTag.attrsEnd (t : OpenTag) : Nat :=
  match t.attributes.getLast? with
  | none => t.nameSpan.stop
  | some a => a.span.stop

/-- The element of an open tag, up to byte `stop`. -/
def OpenTag.element (flavor : Flavor) (t : OpenTag) (stop : Nat) (inner : Option Span)
    (children : List (Node × Place)) : Node × Place :=
  let content := t.content flavor
  (.element t.name content.attributes content.style (children.map Prod.fst),
    .element ⟨⟨t.nameSpan.start, stop⟩, some t.span, t.attrsEnd, inner, content.places⟩
      (children.map Prod.snd))

/-- The child of an element whose content is kept as written: the content without the blanks
around it. -/
def OpenTag.rawChild (t : OpenTag) : List (Node × Place) :=
  match t.raw with
  | none => []
  | some (content, span) =>
    let kept := Text.trimmedSpan content
    if kept.length = 0 then []
    else [(.text (content.at kept), .text (kept.shift span.start))]

/-! ## Texts -/

/-- The bytes of a piece of text that starts at byte `start`, without the blanks around it; none if
it is blank. -/
def trimmedPiece? (piece : Text × Nat) : Option Span :=
  let kept := Text.trimmedSpan piece.1
  if kept.length = 0 then none else some (kept.shift piece.2)

/-- Where the text of a run of pieces stands: from the first piece that is not blank to the last. -/
def runSpan (pieces : List (Text × Nat)) : Span :=
  match pieces.findSome? trimmedPiece?, pieces.reverse.findSome? trimmedPiece? with
  | some first, some last => ⟨first.start, last.stop⟩
  | _, _ =>
    match pieces with
    | [] => ⟨0, 0⟩
    | (piece, start) :: _ => ⟨start, start + width piece⟩

/-- The node of a run of text that only comments divide. -/
def runNode? (flavor : Flavor) (pieces : List (Text × Nat)) : Option (Node × Place) :=
  (flowText? flavor (pieces.flatMap Prod.fst)).map fun content =>
    (.text content, .text (runSpan pieces))

/-! ## The reader -/

/-- Something whose end has not been read. -/
inductive Opened
  | element (tag : OpenTag)
  | fragment (span : Span)
  deriving Repr

/-- The error of something that is never closed. -/
def Opened.unclosed : Opened → ParseError
  | element tag => ⟨.openElement tag.name, tag.nameSpan.start⟩
  | fragment span => ⟨.openFragment, span.start⟩

/-- The nodes read so far: those of the innermost open element, last one first, and for every open
element the nodes in front of it. -/
structure Reader where
  nodes : List (Node × Place)
  run : List (Text × Nat)
  stack : List (Opened × List (Node × Place))
  deriving Repr

namespace Reader

/-- Nothing read yet. -/
def start : Reader := ⟨[], [], []⟩

/-- Add a node behind the others. -/
def push (r : Reader) (n : Node × Place) : Reader := { r with nodes := n :: r.nodes }

/-- End the run of text. -/
def flush (flavor : Flavor) (r : Reader) : Reader :=
  if r.run = [] then r
  else
    match runNode? flavor r.run with
    | none => { r with run := [] }
    | some n => { r with nodes := n :: r.nodes, run := [] }

/-- Read a lexeme that is no text, behind a run that has ended. -/
def stepTag (flavor : Flavor) (r : Reader) : Lexeme → Except ParseError Reader
  | .text content span => .ok { r with run := r.run ++ [(content, span.start)] }
  | .expression content span => .ok (r.push (.text content, .text span))
  | .fragmentOpen span => .ok { r with nodes := [], stack := (.fragment span, r.nodes) :: r.stack }
  | .fragmentClose span =>
    match r.stack with
    | (.fragment _, before) :: stack => .ok { r with nodes := r.nodes ++ before, stack }
    | _ => .error ⟨.strayFragmentClose, span.start⟩
  | .openTag tag =>
    if tag.selfClosing || isVoid tag.name then
      .ok (r.push (tag.element flavor tag.closing.stop none []))
    else .ok { r with nodes := tag.rawChild, stack := (.element tag, r.nodes) :: r.stack }
  | .closeTag name span =>
    match r.stack with
    | (.element tag, before) :: stack =>
      if flavor.closes tag.name name then
        let inner : Span := ⟨tag.closing.stop, span.start⟩
        let n := tag.element flavor span.stop (some inner) r.nodes.reverse
        .ok { r with nodes := n :: before, stack }
      else .error ⟨.mismatch tag.name name, span.start⟩
    | _ => .error ⟨.strayClose name, span.start⟩

/-- Read a lexeme: anything but text ends the run of text. -/
def step (flavor : Flavor) (r : Reader) (l : Lexeme) : Except ParseError Reader :=
  match l with
  | .text .. => r.stepTag flavor l
  | _ => (r.flush flavor).stepTag flavor l

/-- Read lexemes one after another. -/
def steps (flavor : Flavor) : Reader → List Lexeme → Except ParseError Reader
  | r, [] => .ok r
  | r, l :: ls =>
    match r.step flavor l with
    | .error e => .error e
    | .ok r => r.steps flavor ls

/-- The nodes at the end of the text. -/
def finish (flavor : Flavor) (r : Reader) : Except ParseError (List (Node × Place)) :=
  match r.stack with
  | (opened, _) :: _ => .error opened.unclosed
  | [] => .ok (r.flush flavor).nodes.reverse

/-- The error of a text that ends too early. -/
def ended (r : Reader) (fault : Option ParseError) : ParseError :=
  match fault, r.stack with
  | some e, _ => e
  | none, (opened, _) :: _ => opened.unclosed
  | none, [] => ⟨.noElement, 0⟩

/-- Read lexemes until everything is closed: the nodes, and the last lexeme. -/
def untilClosed (flavor : Flavor) (fault : Option ParseError) :
    Reader → List Lexeme → Except ParseError (List (Node × Place) × Lexeme)
  | r, [] => .error (r.ended fault)
  | r, l :: ls =>
    match r.step flavor l with
    | .error e => .error e
    | .ok r => if r.stack.isEmpty then .ok (r.nodes.reverse, l) else untilClosed flavor fault r ls

end Reader

/-- The nodes of a scanned text. -/
def Scan.nodes (flavor : Flavor) (scan : Scan) : Except ParseError (List (Node × Place)) :=
  match Reader.start.steps flavor scan.lexemes with
  | .error e => .error e
  | .ok r =>
    match scan.fault with
    | some e => .error e
    | none => r.finish flavor

/-- The end of a lexeme. -/
def Lexeme.stop : Lexeme → Nat
  | openTag tag =>
    match tag.raw with
    | none => tag.closing.stop
    | some (_, span) => span.stop
  | closeTag _ span | fragmentOpen span | fragmentClose span | text _ span | expression _ span =>
    span.stop

/-- The document of a text that starts at byte `start`. -/
def Document.readAt (flavor : Flavor) (start : Nat) (s : Text) : Except ParseError Document :=
  let region : Span := ⟨start, start + width s⟩
  ((scan flavor start s).nodes flavor).map (Document.ofTopLevel region region)

/-- The document of a text. -/
def Document.read (flavor : Flavor) (s : Text) : Except ParseError Document :=
  Document.readAt flavor 0 s

/-- The document of a part of a text. -/
def Document.readWithin (flavor : Flavor) (region : Span) (s : Text) : Except ParseError Document :=
  Document.readAt flavor region.start (s.at region)

/-- The bytes of the close of a fragment. -/
def fragmentCloseWidth : Nat := 3

/-- The document of the element or fragment that a text starts with, and where it ends. The text
starts at byte `start`. -/
def Document.readRootAt (flavor : Flavor) (start : Nat) (s : Text) :
    Except ParseError (Document × Nat) :=
  let scanned := scan flavor start s
  match scanned.lexemes with
  | [] => .error (scanned.fault.getD ⟨.noElement, start⟩)
  | first :: _ =>
    match first with
    | .openTag _ =>
      (Reader.start.untilClosed flavor scanned.fault scanned.lexemes).map fun (nodes, last) =>
        let region : Span := ⟨start, last.stop⟩
        (.ofTopLevel region region nodes, last.stop)
    | .fragmentOpen span =>
      (Reader.start.untilClosed flavor scanned.fault scanned.lexemes).map fun (nodes, last) =>
        let inner : Span := ⟨span.stop, last.stop - fragmentCloseWidth⟩
        (.ofTopLevel ⟨span.start, last.stop⟩ inner nodes, last.stop)
    | _ => .error ⟨.noElement, start⟩

/-- The document of the element or fragment that a part of a text starts with, and where it
ends. -/
def Document.readRootWithin (flavor : Flavor) (region : Span) (s : Text) :
    Except ParseError (Document × Nat) :=
  Document.readRootAt flavor region.start (s.at region)

end MarkupSync
