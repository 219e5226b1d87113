import MarkupSync.Dialect

/-!
# Lexemes of markup

* `Lexeme`: a tag with all it carries, a text between tags or an expression in braces, with the
  bytes it was read from;
* `Token`, `Lexeme.tokens`: the same in smaller steps, an open tag as its name, its attributes, its
  end and the raw text behind it;
* `Fault`, `ParseError`: why markup cannot be read, and where.
-/

namespace MarkupSync

/-! ## Errors -/

/-- The kinds of parse errors. -/
inductive FaultKind
  | unclosedTag
  | mismatchedTag
  | invalidSection
  deriving Repr, DecidableEq

/-- What a kind of error is called in messages. -/
def FaultKind.label : FaultKind → String
  | .unclosedTag => "unclosed tag"
  | .mismatchedTag => "mismatched tag"
  | .invalidSection => "invalid section"

/-- Why a text cannot be read as markup. -/
inductive Fault
  | unexpectedInput
  | openComment
  | malformedTag (tag : Text)
  | openTag (tag : Text)
  | openElement (tag : Text)
  | openFragment
  | mismatch (expected found : Text)
  | strayClose (tag : Text)
  | strayFragmentClose
  | noElement
  | openSectionTag (tag : Text)
  | openSection (tag : Text)
  | noMarkup
  | invalidScript
  deriving Repr, DecidableEq

namespace Fault

/-- The kind of a fault. -/
def kind : Fault → FaultKind
  | unexpectedInput | openComment | malformedTag _ | openTag _ | openElement _ | openFragment =>
    .unclosedTag
  | mismatch _ _ | strayClose _ | strayFragmentClose => .mismatchedTag
  | noElement | openSectionTag _ | openSection _ | noMarkup | invalidScript => .invalidSection

/-- The wording of a fault. -/
def message : Fault → String
  | unexpectedInput => "unexpected input"
  | openComment => "comment is never closed"
  | malformedTag tag => "malformed <" ++ String.ofList tag ++ "> tag"
  | openTag tag => "<" ++ String.ofList tag ++ "> tag is never closed"
  | openElement tag => "<" ++ String.ofList tag ++ "> is never closed"
  | openFragment => "fragment is never closed"
  | mismatch expected found =>
    "expected </" ++ String.ofList expected ++ ">, found </" ++ String.ofList found ++ ">"
  | strayClose tag => "</" ++ String.ofList tag ++ "> has no matching open tag"
  | strayFragmentClose => "</> has no matching fragment"
  | noElement => "expected an element"
  | openSectionTag tag => "<" ++ String.ofList tag ++ "> tag is never closed"
  | openSection tag => "<" ++ String.ofList tag ++ "> has no closing tag"
  | noMarkup => "the module renders no JSX markup"
  | invalidScript => "script does not parse"

end Fault

/-- A fault and the byte at which it was noticed. -/
structure ParseError where
  fault : Fault
  position : Nat
  deriving Repr, DecidableEq

namespace ParseError

/-- The wording of an error. -/
def message (e : ParseError) : String :=
  e.fault.kind.label ++ " at " ++ toString e.position ++ ": " ++ e.fault.message

/-- The error in a text that starts `n` bytes further on. -/
def shift (n : Nat) (e : ParseError) : ParseError := { e with position := e.position + n }

end ParseError

/-! ## Lexemes -/

/-- How an attribute value is written. -/
inductive Quoting
  | double
  | single
  | bare
  | braces
  deriving Repr, DecidableEq

/-- An attribute value as written: its text without quotes or braces, and its bytes with them. -/
structure RawValue where
  text : Text
  span : Span
  quoting : Quoting
  deriving Repr, DecidableEq

/-- An attribute as written. A spread `{...}` is a name with its braces. -/
structure RawAttribute where
  name : Text
  nameSpan : Span
  value : Option RawValue
  deriving Repr, DecidableEq

/-- The bytes of an attribute, from its name to the end of its value. -/
def RawAttribute.span (a : RawAttribute) : Span :=
  match a.value with
  | none => a.nameSpan
  | some v => ⟨a.nameSpan.start, v.span.stop⟩

/-- An open tag. -/
structure OpenTag where
  name : Text
  /-- The bytes of `<` and the name. -/
  nameSpan : Span
  attributes : List RawAttribute
  /-- The bytes of the closing `>` or `/>`. -/
  closing : Span
  selfClosing : Bool
  /-- Content that is kept as it is written. -/
  raw : Option (Text × Span)
  deriving Repr, DecidableEq

/-- A piece of markup. -/
inductive Lexeme
  | openTag (tag : OpenTag)
  | closeTag (name : Text) (span : Span)
  | fragmentOpen (span : Span)
  | fragmentClose (span : Span)
  | text (content : Text) (span : Span)
  | expression (content : Text) (span : Span)
  deriving Repr, DecidableEq

/-! ## Tokens -/

/-- A part of a lexeme. -/
inductive Token
  | openTag (name : Text)
  | attr (a : RawAttribute)
  | tagEnd (selfClosing : Bool)
  | closeTag (name : Text)
  | fragmentOpen
  | fragmentClose
  | text (content : Text)
  | raw (content : Text)
  | expression (content : Text)
  deriving Repr, DecidableEq

/-- The parts of an open tag, with their bytes. -/
def OpenTag.tokens (t : OpenTag) : List (Token × Span) :=
  (.openTag t.name, t.nameSpan) :: t.attributes.map (fun a => (.attr a, a.span)) ++
    (.tagEnd t.selfClosing, t.closing) ::
      match t.raw with
      | none => []
      | some (content, span) => [(.raw content, span)]

/-- The parts of a lexeme, with their bytes. -/
def Lexeme.tokens : Lexeme → List (Token × Span)
  | openTag t => t.tokens
  | closeTag name span => [(.closeTag name, span)]
  | fragmentOpen span => [(.fragmentOpen, span)]
  | fragmentClose span => [(.fragmentClose, span)]
  | text content span => [(.text content, span)]
  | expression content span => [(.expression content, span)]

/-- Whether a token continues the open tag before it. -/
def Token.continuesTag : Token → Bool
  | .attr _ | .tagEnd _ | .raw _ => true
  | _ => false

/-- The positions from which the tokens are read, the first of them from `start`: inside a tag its
own start, elsewhere the end of the token before it. -/
def Token.readFrom (start : Nat) : List (Token × Span) → List Nat
  | [] => []
  | (token, span) :: rest =>
    (if token.continuesTag then span.start else start) :: readFrom span.stop rest

end MarkupSync
