import MarkupSync.Canvas.Patch
import MarkupSync.Diff.Basic
import MarkupSync.Folder.Writer
import MarkupSync.Session.Debounce

/-!
# Sessions

A session keeps the source text of a document and the canvas consistent.

* `Settings`: what the sessions of a project have in common;
* `SyncError`, `SyncEvent`, `Metrics`: what a session tells about itself;
* `Session`: the state of a session;
* `Session.start?`, `Session.load?`: sessions of texts and of files.
-/

namespace MarkupSync

/-- What the sessions of a project have in common. Times are in milliseconds. -/
structure Settings where
  options : FormatOptions := {}
  formatter : Formatter := .standard
  decoration : Decoration := .standard
  write : WriteOptions := {}
  /-- How long a change waits for the next one. -/
  window : Nat := 150
  /-- How long a cycle should take at most. -/
  budget : Nat := 100

/-- What can go wrong in a session. -/
inductive SyncError
  | parse (e : ParseError)
  | patch (e : PatchError)
  | unreadable (path : Text)
  | unknownDialect (path : Text)
  | closed
  deriving Repr, DecidableEq

/-- The wording of an error. -/
def SyncError.message : SyncError → String
  | parse e => "Parse error: " ++ e.message
  | patch e => "Patch error: " ++ e.message
  | unreadable path => "Failed to read " ++ String.ofList path
  | unknownDialect path => "No dialect for " ++ String.ofList path
  | closed => "Sync session is closed"

/-- The trees of a written source and of the canvas still differ by a number of edits. -/
structure Divergence where
  edits : Nat
  deriving Repr, DecidableEq

/-- The wording of a divergence. -/
def Divergence.message (d : Divergence) : String :=
  "Trees still differ after a sync cycle (" ++ toString d.edits ++ " pending operations)"

/-- What a session tells while it works. -/
inductive SyncEvent
  /-- The canvas follows the source. -/
  | canvasUpdated (edits : List Edit)
  /-- The source follows the canvas. -/
  | sourceUpdated (text : Text) (edits : List Edit)
  | cycleAborted (direction : Direction) (error : SyncError)
  /-- The file is stale. -/
  | writeFailed (path : Text) (error : WriteError)
  | diverged (what : Divergence)
  deriving Repr

/-- What a session has done. -/
structure Metrics where
  toCanvas : Nat := 0
  toSource : Nat := 0
  /-- Source changes that were none. -/
  echoes : Nat := 0
  aborted : Nat := 0
  deriving Repr, DecidableEq

namespace Metrics

/-- The number of cycles. -/
def cycles (m : Metrics) : Nat := m.toCanvas + m.toSource

/-- Count a cycle. -/
def record (m : Metrics) : Direction → Metrics
  | .toCanvas => { m with toCanvas := m.toCanvas + 1 }
  | .toSource => { m with toSource := m.toSource + 1 }

end Metrics

/-- The state of a session. The canvas and the folder can change without the session. -/
structure Session where
  settings : Settings
  dialect : Dialect
  /-- The file of the document; a document without one is never written. -/
  path : Option Text
  /-- The source as it was last known. -/
  source : Text
  /-- The document of the source. -/
  sourceTree : Node
  /-- The document on the canvas as it was last known. -/
  canvasTree : Node
  /-- The template of a single-file component as it was last known. -/
  template : Option Text
  canvas : Canvas
  folder : Folder
  debouncer : Debouncer
  metrics : Metrics
  now : Nat
  isClosed : Bool

/-- The template of a single-file component; empty if it has none. -/
def Dialect.templateText? (dialect : Dialect) (source : Text) : Option Text :=
  if dialect.isSectioned then
    match Sections.split source with
    | .ok sections => some (source.at (sections.templateSpan source))
    | .error _ => none
  else none

namespace Session

/-- Whether the trees of the two sides are equal. -/
def inSync (s : Session) : Bool := s.sourceTree.same s.canvasTree

/-- A session of a text: its document is shown on the canvas. -/
def start? (settings : Settings) (dialect : Dialect) (path : Option Text) (source : Text)
    (canvas : Canvas) (folder : Folder) : Except SyncError Session :=
  match Document.ofSource dialect source with
  | .error e => .error (.parse e)
  | .ok document =>
    match (canvas.render settings.decoration document.root).result with
    | .error e => .error (.patch (.canvas e))
    | .ok canvas => .ok {
        settings, dialect, path, source, canvas, folder
        sourceTree := document.root
        canvasTree := document.root
        template := dialect.templateText? source
        debouncer := .idle settings.window
        metrics := {}
        now := 0
        isClosed := false }

/-- A session of a file. -/
def load? (settings : Settings) (path : Text) (canvas : Canvas) (folder : Folder) :
    Except SyncError Session :=
  match Dialect.ofPath? path with
  | none => .error (.unknownDialect path)
  | some dialect =>
    match folder.read? path with
    | none => .error (.unreadable path)
    | some source => start? settings dialect path source canvas folder

end Session

end MarkupSync
