import MarkupSync.Session.Basic

/-!
# Runs of sessions

A cycle carries a change over to the other side. After a cycle the trees of the two sides are equal,
so that the next difference is empty.

* `Session.followSource`: the canvas follows the source;
* `Session.followCanvas`: the source follows the canvas, and the file is written;
* `Session.cycle`: what is done about a change;
* `Input`: what happens to a session;
* `Session.step`: the session afterwards, and what it tells;
* `Session.run`: inputs one after another.
-/

namespace MarkupSync

/-! ## Cycles -/

/-- How the work on a change ended. -/
inductive Ending
  /-- A cycle was completed. -/
  | completed
  /-- There was nothing to do. -/
  | skipped
  | aborted (e : SyncError)
  deriving Repr

/-- A session after work on a change, and what it told. -/
structure Cycle where
  session : Session
  events : List SyncEvent
  ending : Ending

namespace Session

/-- Work that ends with an error. -/
def abort (s : Session) (e : SyncError) : Cycle := ⟨s, [], .aborted e⟩

/-- Carry edits over to the canvas. If one fails the canvas shows the whole document anew. -/
def redraw (s : Session) (tree : Node) (edits : List Edit) : Outcome Canvas CanvasError :=
  let display := Display.applyAll s.settings.decoration (.of s.canvas s.canvasTree) edits
  match display.error with
  | none => ⟨display.state.canvas, none⟩
  | some _ => display.state.canvas.render s.settings.decoration tree

/-- The canvas follows the source. -/
def followSource (s : Session) (text : Text) : Cycle :=
  if text = s.source then
    ⟨{ s with metrics.echoes := s.metrics.echoes + 1 }, [], .skipped⟩
  else
    let template := s.dialect.templateText? text
    if template.isSome ∧ template = s.template then ⟨{ s with source := text }, [], .skipped⟩
    else
      match Document.ofSource s.dialect text with
      | .error e => s.abort (.parse e)
      | .ok document =>
        let edits := s.canvasTree.diff document.root
        let drawn := s.redraw document.root edits
        let s := { s with canvas := drawn.state }
        match drawn.error with
        | some e => s.abort (.patch (.canvas e))
        | none =>
          let s := { s with
            source := text, template
            sourceTree := document.root, canvasTree := document.root }
          ⟨s, [.canvasUpdated edits], .completed⟩

/-- How the source is patched. -/
def pipeline (s : Session) : Pipeline where
  dialect := s.dialect
  options := s.settings.options
  formatter := if s.settings.write.format then some s.settings.formatter else none

/-- Write the file of the document, if it has one. -/
def writeFile (s : Session) (text : Text) : Outcome Folder WriteError :=
  match s.path with
  | none => ⟨s.folder, none⟩
  | some path => s.folder.save path text s.settings.write.backup

/-- What is told of the edits that a written document still lacks. -/
def divergences (written adapted : Node) : List SyncEvent :=
  match (written.diff adapted).length with
  | 0 => []
  | n + 1 => [.diverged ⟨n + 1⟩]

/-- Take over a source that was written for the document on the canvas. -/
def adopt (s : Session) (adapted : Node) (text : Text) (edits : List Edit) : Cycle :=
  match Document.ofSource s.dialect text with
  | .error e => s.abort (.parse e)
  | .ok document =>
    let events := divergences document.root adapted ++ [.sourceUpdated text edits]
    let s := { s with
      source := text
      template := s.dialect.templateText? text
      sourceTree := document.root, canvasTree := adapted }
    ⟨s, events, .completed⟩

/-- The source follows the canvas. -/
def followCanvas (s : Session) : Cycle :=
  let adapted := s.canvas.adapt s.settings.decoration s.dialect.flavor
  let edits := s.sourceTree.diff adapted
  if edits.isEmpty then ⟨{ s with canvasTree := adapted }, [], .skipped⟩
  else
    match s.pipeline.run s.source edits with
    | .error e => s.abort (.patch e)
    | .ok patched =>
      let written := s.writeFile patched.text
      let s := { s with folder := written.state }
      match s.path, written.error with
      | some path, some e =>
        ⟨{ s with canvasTree := adapted }, [.writeFailed path e], .completed⟩
      | _, _ => s.adopt adapted patched.text edits

/-- Work on a change. -/
def follow (s : Session) : Change → Cycle
  | .source text => s.followSource text
  | .canvas => s.followCanvas

/-- What is done about a change: the session afterwards, and what it tells. -/
def cycle (s : Session) (change : Change) : Session × List SyncEvent :=
  let done := s.follow change
  match done.ending with
  | .completed =>
    ({ done.session with metrics := done.session.metrics.record change.direction }, done.events)
  | .skipped => (done.session, done.events)
  | .aborted e =>
    ({ done.session with metrics.aborted := done.session.metrics.aborted + 1 },
      done.events ++ [.cycleAborted change.direction e])

/-- Changes one after another. -/
def cycles (s : Session) : List Change → Session × List SyncEvent
  | [] => (s, [])
  | change :: changes =>
    let (s, events) := s.cycle change
    let (s, more) := s.cycles changes
    (s, events ++ more)

end Session

/-! ## Runs -/

/-- What happens to a session. -/
inductive Input
  /-- The source was edited. -/
  | source (text : Text)
  /-- There is word that the canvas was edited. -/
  | canvas
  /-- Nothing shall wait any more. -/
  | flush
  /-- Milliseconds pass. -/
  | sleep (time : Nat)
  /-- The user leaves the canvas like this. -/
  | draw (canvas : Canvas)
  /-- Others leave the folder like this. -/
  | store (folder : Folder)
  | close

namespace Session

/-- What an open session does. Changes wait until a flush or the time lets them go; those that wait
are dropped when the session is closed. -/
def handle (s : Session) : Input → Session × List SyncEvent
  | .source text => ({ s with debouncer := s.debouncer.pushSource s.now text }, [])
  | .canvas => ({ s with debouncer := s.debouncer.pushCanvas s.now }, [])
  | .flush =>
    let (changes, debouncer) := s.debouncer.drain
    { s with debouncer }.cycles changes
  | .sleep time =>
    let now := s.now + time
    let (changes, debouncer) := s.debouncer.takeDue now
    { s with debouncer, now }.cycles changes
  | .draw canvas => ({ s with canvas }, [])
  | .store folder => ({ s with folder }, [])
  | .close => ({ s with isClosed := true, debouncer := .idle s.debouncer.window }, [])

/-- What a closed session refuses. -/
def refuses : Input → Bool
  | .source _ | .canvas | .flush => true
  | .sleep _ | .draw _ | .store _ | .close => false

/-- The session after an input, and what it tells. -/
def step (s : Session) (input : Input) : Except SyncError (Session × List SyncEvent) :=
  if s.isClosed && refuses input then .error .closed else .ok (s.handle input)

/-- Inputs one after another, up to the first that is refused. -/
def run (s : Session) : List Input → Except SyncError (Session × List SyncEvent)
  | [] => .ok (s, [])
  | input :: inputs =>
    match s.step input with
    | .error e => .error e
    | .ok (s, events) => (s.run inputs).map fun (s, more) => (s, events ++ more)

end Session

end MarkupSync
