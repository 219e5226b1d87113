import MarkupSync.Dialect
import MarkupSync.Outcome
import MarkupSync.Patch.Pipeline
import MarkupSync.Format.Options

/-!
# Folders and writing files

The files under a folder. A file can only be written where its parent folder is. The former content
of a file can be kept in a backup beside it.

* `Item`, `Folder`: files and folders by path;
* `Folder.read?`, `Folder.write?`, `Folder.copy?`, `Folder.remove`: files;
* `Folder.addFolder`: a folder with the folders above it;
* `Folder.save`: write a file, with a backup of what was there;
* `Folder.restore`: the backup takes the place of the file;
* `Writer.write`: print a document into a file.
-/

namespace MarkupSync

/-! ## Folders -/

/-- What a path leads to. -/
inductive Item
  | file (content : Text)
  | folder
  deriving Repr, DecidableEq

namespace Path

/-- The steps of a path from the folder that it starts in. -/
def steps (path : Text) : List Text := (components path).filter (· != ['.'])

end Path

/-- Files and folders by the steps of their paths; no steps lead to the folder itself. -/
structure Folder where
  items : List (List Text × Item)
  deriving Repr, DecidableEq

namespace Folder

/-- A folder without files. -/
def empty : Folder := ⟨[([], .folder)]⟩

/-- The folder is not there any more. -/
def removed : Folder := ⟨[]⟩

/-- What a path leads to. -/
def get? (f : Folder) (path : Text) : Option Item := f.items.lookup (Path.steps path)

/-- Whether a path leads to something. -/
def has (f : Folder) (path : Text) : Bool := (f.get? path).isSome

/-- The content of a file. -/
def read? (f : Folder) (path : Text) : Option Text :=
  match f.get? path with
  | some (.file content) => some content
  | _ => none

/-- Put something where the steps of a path lead. -/
def put (f : Folder) (steps : List Text) (item : Item) : Folder :=
  ⟨(steps, item) :: f.items.filter fun e => e.1 != steps⟩

/-- Whether there can be a file at a path: its parent is a folder, and no folder is there. -/
def admits (f : Folder) (path : Text) : Bool :=
  f.get? path != some .folder && f.items.lookup (Path.steps path).dropLast == some .folder

/-- Write a file. -/
def write? (f : Folder) (path content : Text) : Option Folder :=
  if f.admits path then some (f.put (Path.steps path) (.file content)) else none

/-- Copy a file over another. -/
def copy? (f : Folder) (source target : Text) : Option Folder :=
  match f.read? source with
  | none => none
  | some content => f.write? target content

/-- Remove a file. -/
def remove (f : Folder) (path : Text) : Folder :=
  ⟨f.items.filter fun e => e.1 != Path.steps path⟩

/-- Add a folder and the folders above it. -/
def addFolder (f : Folder) (path : Text) : Folder :=
  let steps := Path.steps path
  (List.range (steps.length + 1)).foldl (fun f n => f.put (steps.take n) .folder) f

end Folder

/-! ## Writing -/

/-- Why a file is not written. -/
inductive WriteError
  | failed (path : Text)
  | noBackup (path : Text)
  | unknownDialect (dialect : Dialect)
  deriving Repr, DecidableEq

/-- The wording of an error. -/
def WriteError.message : WriteError → String
  | failed path => "Failed to write " ++ String.ofList path
  | noBackup path => "No backup exists for " ++ String.ofList path
  | unknownDialect dialect => "No dialect registered for " ++ dialect.name

/-- How files are written. -/
structure WriteOptions where
  /-- Keep the former content in a backup. -/
  backup : Bool := true
  /-- Format what is written. -/
  format : Bool := true
  deriving Repr, DecidableEq, Inhabited

namespace Folder

/-- Copy a file to its backup, if it can be copied. -/
def keepBackup (f : Folder) (path : Text) : Folder := (f.copy? path (Path.backup path)).getD f

/-- Write a file; `backup` says whether the former content is kept. -/
def save (f : Folder) (path content : Text) (backup : Bool) : Outcome Folder WriteError :=
  let f := if backup then f.keepBackup path else f
  match f.write? path content with
  | some f => ⟨f, none⟩
  | none => ⟨f, some (.failed path)⟩

/-- Put the backup of a file in its place. -/
def restore (f : Folder) (path : Text) : Outcome Folder WriteError :=
  if f.has (Path.backup path) then
    match f.copy? (Path.backup path) path with
    | some f => ⟨f.remove (Path.backup path), none⟩
    | none => ⟨f, some (.failed path)⟩
  else ⟨f, some (.noBackup path)⟩

end Folder

/-- What prints documents into files. -/
structure Writer where
  dialects : List Dialect := Dialect.all
  formatter : Formatter := .standard
  options : FormatOptions := {}

namespace Writer

/-- The text of a file that shows a document; it is formatted if it can be. -/
def print (w : Writer) (dialect : Dialect) (tree : Node) (format : Bool) : Text :=
  let pipeline : Pipeline := ⟨dialect, w.options, if format then some w.formatter else none⟩
  (pipeline.format (dialect.printFile w.options tree)).text

/-- Print a document into a file. -/
def write (w : Writer) (f : Folder) (path : Text) (dialect : Dialect) (tree : Node)
    (o : WriteOptions) : Outcome Folder WriteError :=
  if w.dialects.contains dialect then f.save path (w.print dialect tree o.format) o.backup
  else ⟨f, some (.unknownDialect dialect)⟩

end Writer

end MarkupSync
