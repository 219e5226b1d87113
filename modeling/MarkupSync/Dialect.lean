import MarkupSync.Text.Blank
import MarkupSync.Text.Search

/-!
# Markup flavors and file dialects

* `Flavor`: the two markup grammars, and what they say of attribute and tag names;
* `Dialect`: the kinds of source files, chosen by file extension;
* `Path`: the parts of a file path that choose a dialect.
-/

namespace MarkupSync

/-- A markup grammar. Templates of single-file components are HTML. -/
inductive Flavor
  | html
  | jsx
  deriving Repr, DecidableEq, Inhabited

namespace Flavor

/-- The names that JSX writes differently: as written, and as the document names them. -/
def renamed : List (Text × Text) :=
  [("className".toList, "class".toList), ("htmlFor".toList, "for".toList)]

/-- The document's name of an attribute written as `name`. -/
def key : Flavor → Text → Text
  | .html, name => name
  | .jsx, name => (renamed.lookup name).getD name

/-- How the attribute `key` of the document is written. -/
def written : Flavor → Text → Text
  | .html, key => key
  | .jsx, key => ((renamed.map Prod.swap).lookup key).getD key

/-- Whether a close tag named `close` ends an element opened as `tag`: letter case counts in JSX
only. -/
def closes : Flavor → Text → Text → Bool
  | .html, tag, close => Text.lower tag == Text.lower close
  | .jsx, tag, close => tag == close

end Flavor

/-- A kind of source file. -/
inductive Dialect
  | html
  | jsx
  | tsx
  | vue
  deriving Repr, DecidableEq, Inhabited

namespace Dialect

/-- The file extensions of a dialect, the customary one first. -/
def extensions : Dialect → List Text
  | .html => ["html".toList, "htm".toList]
  | .jsx => ["jsx".toList]
  | .tsx => ["tsx".toList]
  | .vue => ["vue".toList]

/-- All dialects. -/
def all : List Dialect := [.html, .jsx, .tsx, .vue]

/-- The name of a dialect. -/
def name : Dialect → String
  | .html => "html"
  | .jsx => "jsx"
  | .tsx => "tsx"
  | .vue => "vue"

/-- The dialect of a file extension, in any letter case. -/
def ofExtension? (extension : Text) : Option Dialect :=
  all.find? fun d => d.extensions.contains (Text.lower extension)

/-- Whether a file is made of template, script and style sections. -/
def isSectioned : Dialect → Bool
  | .vue => true
  | _ => false

/-- The grammar of a dialect's markup. -/
def flavor : Dialect → Flavor
  | .html => .html
  | .vue => .html
  | .jsx => .jsx
  | .tsx => .jsx

end Dialect

/-! ## File paths -/

namespace Path

/-- The components of a path: the parts between slashes, without empty ones and without single
dots behind the first. -/
def components (path : Text) : List Text :=
  match Text.fields (· == '/') path with
  | [] => []
  | first :: rest =>
    (if first = [] then [] else [first]) ++ rest.filter fun c => c != [] && c != ['.']

/-- The last component of a path, unless it stands for a directory. -/
def fileName? (path : Text) : Option Text :=
  match (components path).getLast? with
  | none => none
  | some name => if name = ['.'] ∨ name = ['.', '.'] then none else some name

/-- What follows the last dot of the file name; a dot in front does not count. -/
def extension? (path : Text) : Option Text :=
  match fileName? path with
  | none => none
  | some name =>
    let extension := name.reverse.takeWhile (· != '.')
    if extension.length + 1 < name.length then some extension.reverse else none

end Path

/-- The dialect of a file, by its extension. -/
def Dialect.ofPath? (path : Text) : Option Dialect := (Path.extension? path).bind ofExtension?

/-- The endings of backups and of files that editors keep for themselves. -/
def transientExtensions : List Text :=
  ["bck".toList, "bak".toList, "backup".toList, "swp".toList, "swo".toList, "tmp".toList]

/-- Whether changes of a file are of no interest: backups, swap files and hidden files. -/
def Path.isIgnored (path : Text) : Bool :=
  let name := (fileName? path).getD []
  transientExtensions.contains ((extension? path).getD []) || name.getLast? == some '~' ||
    name.head? == some '.'

/-- Where the former content of a file is kept. -/
def Path.backup (path : Text) : Text := path ++ ".backup".toList

end MarkupSync
