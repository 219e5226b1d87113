import MarkupSync.Node
import MarkupSync.Style.Object
import MarkupSync.Text.Entity

/-!
# Printing documents

The canonical text of a tree. It starts in the current column; further lines are indented for the
level of the line it is put on.

* `Printer`: flavor, indentation and quotes;
* `Printer.attr`, `Printer.styleAttribute`: attributes as they are written;
* `Printer.print`: the text of a tree.
-/

namespace MarkupSync

/-- Whether a value is an expression in braces. -/
def isExpression : Text → Bool
  | '\x7b' :: s => s.getLast? == some '\x7d'
  | _ => false

/-- How trees are printed. -/
structure Printer where
  flavor : Flavor
  /-- The indentation of one level. -/
  unit : Text := [' ', ' ']
  quote : Char := '"'
  deriving Repr, DecidableEq

namespace Printer

/-- A value in quotes. -/
def quoted (p : Printer) (value : Text) : Text := p.quote :: escapeQuoted p.quote value ++ [p.quote]

/-- An attribute as it is written; a name with an open brace is a spread. -/
def attr (p : Printer) (name value : Text) : Text :=
  if name.head? = some '\x7b' then name
  else
    p.flavor.written name ++
      if value = [] then []
      else '=' :: if p.flavor = .jsx ∧ isExpression value then value else p.quoted value

/-- The `style` attribute of a style. -/
def styleAttribute (p : Printer) (style : Attrs) : Text :=
  styleName ++ ['='] ++
    match p.flavor with
    | .html => p.quoted (Style.writeDeclarations style)
    | .jsx => Style.writeObject p.quote style

/-- The attributes of an element, a space before each. -/
def attrs (p : Printer) (attributes style : Attrs) : Text :=
  attributes.entries.flatMap (fun e => ' ' :: p.attr e.1 e.2) ++
    if style.isEmpty then [] else ' ' :: p.styleAttribute style

/-- A text between tags; `raw` content is kept as it is. -/
def text (p : Printer) (raw : Bool) (content : Text) : Text :=
  if raw then content
  else
    match p.flavor with
    | .html => escapeText content
    | .jsx => if isExpression content then content else escapeExpressionText content

/-- A line break with the indentation of a level. -/
def newline (p : Printer) (level : Nat) : Text := '\n' :: (List.replicate level p.unit).flatten

/-- Whether children stay on one line. HTML breaks lines unless there is only text; JSX, where line
breaks next to text have no meaning, breaks them unless there is text. -/
def isInline (p : Printer) (children : List Node) : Bool :=
  match p.flavor with
  | .html => children.all Node.isText
  | .jsx => children.any Node.isText

/-- The end of an open tag without children. -/
def emptyEnd (p : Printer) (tag : Text) : Text :=
  match p.flavor with
  | .jsx => [' ', '/', '>']
  | .html => if isVoid tag then ['>'] else ['>', '<', '/'] ++ tag ++ ['>']

/-- Whether the content of an element is printed as it is. -/
def keepsContent (p : Printer) (tag : Text) : Bool := p.flavor == .html && isRaw tag

/-- What stands between the tags of an element, from the texts of its children. -/
def content (p : Printer) (level : Nat) (isOneLine : Bool) (texts : List Text) : Text :=
  if isOneLine then texts.flatten
  else texts.flatMap (p.newline (level + 1) ++ ·) ++ p.newline level

/-- The level on which children are printed. -/
def contentLevel (level : Nat) (isOneLine : Bool) : Nat := if isOneLine then level else level + 1

mutual

/-- The text of a node on a line of the given level. -/
def printNode (p : Printer) (level : Nat) (raw : Bool) : Node → Text
  | .text content => p.text raw content
  | .element tag attributes style children =>
    let isOneLine := p.isInline children
    if tag = Node.rootTag then
      match p.flavor with
      | .html => (p.newline level).intercalate (printAll p level false children)
      | .jsx =>
        ['<', '>'] ++
          p.content level isOneLine (printAll p (contentLevel level isOneLine) false children) ++
          ['<', '/', '>']
    else if children.isEmpty then
      '<' :: tag ++ p.attrs attributes style ++ p.emptyEnd tag
    else
      '<' :: tag ++ p.attrs attributes style ++ ['>'] ++
        p.content level isOneLine
          (printAll p (contentLevel level isOneLine) (p.keepsContent tag) children) ++
        ['<', '/'] ++ tag ++ ['>']

/-- The texts of nodes on lines of the given level. -/
def printAll (p : Printer) (level : Nat) (raw : Bool) : List Node → List Text
  | [] => []
  | n :: ns => printNode p level raw n :: printAll p level raw ns

end

/-- The text of a tree on a line of the given level. -/
def print (p : Printer) (n : Node) (level : Nat := 0) : Text := p.printNode level false n

end Printer

/-- The text of a tree with the customary indentation and quotes. -/
def Node.print (flavor : Flavor) (n : Node) : Text := Printer.print ⟨flavor, [' ', ' '], '"'⟩ n

end MarkupSync
