import MarkupSync.Printer

/-!
# Formatting options

* `FormatOptions`: indentation, quotes and the end of files;
* `FormatOptions.printer`: how trees are printed with these options;
* `Dialect.printFile`: a whole file of a dialect that shows a document: plain HTML, the module of
  a component that returns the markup, or a single-file component with a template.
-/

namespace MarkupSync

/-! ## Options -/

/-- The quotes of JSX strings. HTML always has double quotes. -/
inductive QuoteStyle
  | double
  | single
  deriving Repr, DecidableEq, Inhabited

/-- How files are formatted. -/
structure FormatOptions where
  indentWidth : Nat := 2
  useTabs : Bool := false
  quote : QuoteStyle := .double
  finalNewline : Bool := true
  deriving Repr, DecidableEq, Inhabited

namespace FormatOptions

/-- The columns of one level of indentation. -/
def columns (o : FormatOptions) : Nat := max o.indentWidth 1

/-- The indentation of one level. -/
def unit (o : FormatOptions) : Text := if o.useTabs then ['\t'] else List.replicate o.columns ' '

/-- The quote of a flavor. -/
def quoteChar (o : FormatOptions) (flavor : Flavor) : Char :=
  if flavor = .jsx ∧ o.quote = .single then '\'' else '"'

/-- How trees are printed. -/
def printer (o : FormatOptions) (flavor : Flavor) : Printer where
  flavor
  unit := o.unit
  quote := o.quoteChar flavor

end FormatOptions

/-! ## Files -/

/-- A module whose component returns markup. -/
def printModule (options : FormatOptions) (n : Node) : Text :=
  let unit := options.unit
  "export default function Component() ".toList ++ ['\x7b', '\n'] ++ unit ++ "return (\n".toList ++
    unit ++ unit ++ (options.printer .jsx).print n 2 ++ ['\n'] ++ unit ++ ");\n".toList ++
    ['\x7d', '\n']

/-- A single-file component with a template. -/
def printTemplate (options : FormatOptions) (n : Node) : Text :=
  let content :=
    if n.isRoot && n.children.isEmpty then []
    else options.unit ++ (options.printer .html).print n 1 ++ ['\n']
  "<template>\n".toList ++ content ++ "</template>\n".toList

/-- A file that shows a document. -/
def Dialect.printFile (options : FormatOptions) (n : Node) : Dialect → Text
  | .html => (options.printer .html).print n ++ ['\n']
  | .jsx => printModule options n
  | .tsx => printModule options n
  | .vue => printTemplate options n

end MarkupSync
