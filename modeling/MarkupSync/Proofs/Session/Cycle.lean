import MarkupSync.Session.Run

/-!
# What a cycle and a run can do

* `Session.Follows`: the ways in which work on a change can end, each with what led to it;
* **`Session.follow_follows`**: work on a change ends in one of these ways;
* `Session.released`: the changes that an input lets go, and the session that works on them
  (`Session.handle_eq`);
* `Work`: a session in front of a change that it works on, with the session afterwards and what it
  tells;
* `Session.log`: the work of a run, in order;
* **`Session.run_induction`**: what every cycle and every input keeps, a run keeps;
* **`Session.run_induction_of`**: so it is with inputs of a kind and the changes that they bring;
* `Debouncer.Waits`: all changes that wait are of a kind;
* `Debouncer.Waits.takeDue`, `Debouncer.Waits.drain`: then so are those that are let go;
* `Session.cycle_fixed`: what work on a change leaves as it is;
* **`Session.waits_released`**: a session that hears only of changes of a kind works only on such;
* `Folder.read?_of_save`: a file that was saved;
* **`Session.unchanged_of_aborted`**: a cycle that is aborted changes neither texts nor trees, and
  it changes the file only if the source it has written cannot be read;
* `Session.not_unchanged_of_aborted`: then the file is not the one from before.
-/

namespace MarkupSync.Session

/-! ## Ends of work -/

/-- The document on the canvas as the session sees it. -/
def adapted (s : Session) : Node := s.canvas.adapt s.settings.decoration s.dialect.flavor

/-- The edits that carry the canvas over to the source. -/
def pending (s : Session) : List Edit := s.sourceTree.diff s.adapted

/-- The ways in which work on a change can end. -/
inductive Follows (s : Session) : Change → Cycle → Prop
  /-- The source is the one that is known. -/
  | echo : Follows s (.source s.source)
      ⟨{ s with metrics.echoes := s.metrics.echoes + 1 }, [], .skipped⟩
  /-- Only other sections of a component have changed. -/
  | sameTemplate {text template : Text} (hnew : s.dialect.templateText? text = some template)
      (hold : s.template = some template) :
      Follows s (.source text) ⟨{ s with source := text }, [], .skipped⟩
  /-- The source cannot be read. -/
  | unread {text : Text} {e : ParseError} (h : Document.ofSource s.dialect text = .error e) :
      Follows s (.source text) (s.abort (.parse e))
  /-- The document cannot be shown. -/
  | undrawn {text : Text} (canvas : Canvas) (e : CanvasError) :
      Follows s (.source text) ({ s with canvas }.abort (.patch (.canvas e)))
  /-- The canvas shows the document of the source. -/
  | drawn {text : Text} {document : Document} (canvas : Canvas)
      (h : Document.ofSource s.dialect text = .ok document) :
      Follows s (.source text)
        ⟨{ s with
            canvas, source := text, template := s.dialect.templateText? text
            sourceTree := document.root, canvasTree := document.root },
          [.canvasUpdated (s.canvasTree.diff document.root)], .completed⟩
  /-- The canvas shows the document of the source already. -/
  | equal (h : s.pending = []) :
      Follows s .canvas ⟨{ s with canvasTree := s.adapted }, [], .skipped⟩
  /-- The source cannot be patched. -/
  | unpatched (hpending : s.pending ≠ []) (e : PatchError) :
      Follows s .canvas (s.abort (.patch e))
  /-- The file cannot be written. -/
  | unwritten {patched : Patched} {path : Text} {e : WriteError} (hpending : s.pending ≠ [])
      (hpatched : s.pipeline.run s.source s.pending = .ok patched) (hpath : s.path = some path)
      (herror : (s.writeFile patched.text).error = some e) :
      Follows s .canvas
        ⟨{ s with folder := (s.writeFile patched.text).state, canvasTree := s.adapted },
          [.writeFailed path e], .completed⟩
  /-- The patched source is written, or there is no file, and it cannot be read. -/
  | unreadable {patched : Patched} {e : ParseError} (hpending : s.pending ≠ [])
      (hpatched : s.pipeline.run s.source s.pending = .ok patched)
      (hwritten : s.path = none ∨ (s.writeFile patched.text).error = none)
      (h : Document.ofSource s.dialect patched.text = .error e) :
      Follows s .canvas
        ({ s with folder := (s.writeFile patched.text).state }.abort (.parse e))
  /-- The patched source is taken over. -/
  | adopted {patched : Patched} {document : Document} (hpending : s.pending ≠ [])
      (hpatched : s.pipeline.run s.source s.pending = .ok patched)
      (hwritten : s.path = none ∨ (s.writeFile patched.text).error = none)
      (h : Document.ofSource s.dialect patched.text = .ok document) :
      Follows s .canvas
        ⟨{ s with
            folder := (s.writeFile patched.text).state, source := patched.text
            template := s.dialect.templateText? patched.text
            sourceTree := document.root, canvasTree := s.adapted },
          divergences document.root s.adapted ++ [.sourceUpdated patched.text s.pending],
          .completed⟩

theorem followSource_follows (s : Session) (text : Text) :
    s.Follows (.source text) (s.followSource text) := by
  rw [followSource]
  split
  next h =>
    subst h
    exact .echo
  next =>
    extract_lets template
    split
    next h =>
      obtain ⟨t, ht⟩ := Option.isSome_iff_exists.1 h.1
      exact .sameTemplate ht (h.2 ▸ ht)
    next =>
      split
      next e h => exact .unread h
      next document h =>
        extract_lets edits drawn s'
        split
        · exact .undrawn _ _
        · exact .drawn _ h

theorem adopt_follows {s : Session} {patched : Patched} (hpending : s.pending ≠ [])
    (hpatched : s.pipeline.run s.source s.pending = .ok patched)
    (hwritten : s.path = none ∨ (s.writeFile patched.text).error = none) :
    s.Follows .canvas ({ s with folder := (s.writeFile patched.text).state }.adopt s.adapted
      patched.text s.pending) := by
  rw [adopt]
  split
  next e h => exact .unreadable hpending hpatched hwritten h
  next document h => exact .adopted hpending hpatched hwritten h

theorem followCanvas_follows (s : Session) : s.Follows .canvas s.followCanvas := by
  rw [followCanvas]
  split
  next h => exact .equal (List.isEmpty_iff.1 h)
  next h =>
    replace h : s.pending ≠ [] := mt List.isEmpty_iff.2 h
    split
    next e _ => exact .unpatched h e
    next patched hpatched =>
      extract_lets written s'
      split
      next path e hpath herror => exact .unwritten h hpatched hpath herror
      next hwritten =>
        refine adopt_follows h hpatched ?_
        cases hpath : s.path with
        | none => exact .inl rfl
        | some path => exact .inr (Option.eq_none_iff_forall_ne_some.2 (hwritten path · hpath))

/-- **Work on a change ends in one of these ways.** -/
theorem follow_follows (s : Session) (change : Change) : s.Follows change (s.follow change) := by
  cases change with
  | source text => exact s.followSource_follows text
  | canvas => exact s.followCanvas_follows

/-- The session once work is done, and what it tells. -/
def closed (direction : Direction) (done : Cycle) : Session × List SyncEvent :=
  match done.ending with
  | .completed =>
    ({ done.session with metrics := done.session.metrics.record direction }, done.events)
  | .skipped => (done.session, done.events)
  | .aborted e =>
    ({ done.session with metrics.aborted := done.session.metrics.aborted + 1 },
      done.events ++ [.cycleAborted direction e])

theorem cycle_eq (s : Session) (change : Change) :
    s.cycle change = closed change.direction (s.follow change) := rfl

/-! ## Inputs -/

/-- The changes that an input lets go, and the session that works on them. -/
def released (s : Session) : Input → Session × List Change
  | .source text => ({ s with debouncer := s.debouncer.pushSource s.now text }, [])
  | .canvas => ({ s with debouncer := s.debouncer.pushCanvas s.now }, [])
  | .flush => ({ s with debouncer := s.debouncer.drain.2 }, s.debouncer.drain.1)
  | .sleep time =>
    ({ s with debouncer := (s.debouncer.takeDue (s.now + time)).2, now := s.now + time },
      (s.debouncer.takeDue (s.now + time)).1)
  | .draw canvas => ({ s with canvas }, [])
  | .store folder => ({ s with folder }, [])
  | .close => ({ s with isClosed := true, debouncer := .idle s.debouncer.window }, [])

/-- A session works on the changes that an input lets go. -/
theorem handle_eq (s : Session) (input : Input) :
    s.handle input = (s.released input).1.cycles (s.released input).2 := by
  cases input <;> rfl

end MarkupSync.Session

/-! ## Runs cycle by cycle -/

namespace MarkupSync

/-- A session in front of a change that it works on. -/
structure Work where
  session : Session
  change : Change

namespace Work

/-- The session after the work. -/
def after (w : Work) : Session := (w.session.cycle w.change).1

/-- What the session tells about the work. -/
def events (w : Work) : List SyncEvent := (w.session.cycle w.change).2

end Work

namespace Session

/-- The work on changes one after another. -/
def works (s : Session) : List Change → List Work
  | [] => []
  | change :: changes => ⟨s, change⟩ :: (Work.after ⟨s, change⟩).works changes

/-- The work of a run. -/
def log (s : Session) : List Input → List Work
  | [] => []
  | input :: inputs => (s.released input).1.works (s.released input).2 ++ (s.handle input).1.log inputs

section Induction

variable {I : Input → Prop} {C : Change → Prop} {P : List Work → Session → Prop}
  (hrelease : ∀ log s input, I input → P log s → P log (s.released input).1 ∧
    ∀ change ∈ (s.released input).2, C change)
  (hcycle : ∀ log s change, C change → P log s →
    P (log ++ [⟨s, change⟩]) (Work.after ⟨s, change⟩))

include hcycle in
theorem cycles_induction {before : List Work} {s : Session} (hs : P before s)
    {changes : List Change} (hchanges : ∀ change ∈ changes, C change) :
    P (before ++ s.works changes) (s.cycles changes).1 ∧
      (s.cycles changes).2 = (s.works changes).flatMap Work.events := by
  induction changes generalizing before s with
  | nil =>
    rw [works, List.append_nil]
    exact ⟨hs, rfl⟩
  | cons change changes ih =>
    obtain ⟨hchange, hchanges⟩ := List.forall_mem_cons.1 hchanges
    obtain ⟨hlast, hevents⟩ := ih (hcycle before s change hchange hs) hchanges
    rw [List.append_assoc] at hlast
    refine ⟨hlast, ?_⟩
    rw [works, List.flatMap_cons, ← hevents]
    rfl

include hrelease hcycle in
/-- **What every cycle and every input of a kind keeps, a run of such inputs keeps**; and a run
tells what its cycles tell. -/
theorem run_induction_of (before : List Work) {s t : Session} (hs : P before s)
    {inputs : List Input} (hinputs : ∀ input ∈ inputs, I input) {events : List SyncEvent}
    (hrun : s.run inputs = .ok (t, events)) :
    P (before ++ s.log inputs) t ∧ events = (s.log inputs).flatMap Work.events := by
  induction inputs generalizing before s events with
  | nil =>
    cases hrun
    rw [log, List.append_nil]
    exact ⟨hs, rfl⟩
  | cons input inputs ih =>
    obtain ⟨hinput, hinputs⟩ := List.forall_mem_cons.1 hinputs
    rw [run, step] at hrun
    split at hrun
    next => cases hrun
    next u first hstep =>
      split at hstep
      · cases hstep
      · cases hrest : u.run inputs with
        | error e =>
          rw [hrest] at hrun
          cases hrun
        | ok last =>
          rw [hrest] at hrun
          cases hrun
          have hhandle : s.handle input = (u, first) := Except.ok.inj hstep
          obtain ⟨hreleased, hchanges⟩ := hrelease before s input hinput hs
          obtain ⟨hcycles, hfirst⟩ := cycles_induction hcycle hreleased hchanges
          rw [← handle_eq, hhandle] at hcycles hfirst
          obtain ⟨hlast, hmore⟩ := ih _ hcycles hinputs hrest
          rw [log, hhandle, List.flatMap_append, ← hfirst, ← List.append_assoc, ← hmore]
          exact ⟨hlast, rfl⟩

end Induction

/-- **What every cycle and every input keeps, a run keeps**; and a run tells what its cycles
tell. -/
theorem run_induction {P : List Work → Session → Prop}
    (hrelease : ∀ log s input, P log s → P log (s.released input).1)
    (hcycle : ∀ log s change, P log s → P (log ++ [⟨s, change⟩]) (Work.after ⟨s, change⟩))
    (before : List Work) {s t : Session} (hs : P before s) {inputs : List Input}
    {events : List SyncEvent} (hrun : s.run inputs = .ok (t, events)) :
    P (before ++ s.log inputs) t ∧ events = (s.log inputs).flatMap Work.events :=
  run_induction_of (I := fun _ => True) (C := fun _ => True)
    (fun log s input _ h => ⟨hrelease log s input h, fun _ _ => trivial⟩)
    (fun log s change _ h => hcycle log s change h) before hs (fun _ _ => trivial) hrun

end Session

/-! ## Changes that wait -/

namespace Debouncer

variable {P : Change → Prop} {d rest : Debouncer} {now : Nat} {change : Change}

/-- All changes that wait are of a kind. -/
structure Waits (P : Change → Prop) (d : Debouncer) : Prop where
  source : ∀ due text, d.source = some (due, text) → P (.source text)
  canvas : ∀ due, d.canvas = some due → P .canvas

namespace Waits

theorem of_isEmpty (h : d.isEmpty = true) : d.Waits P := by
  obtain ⟨hsource, hcanvas⟩ := Bool.and_eq_true_iff.1 h
  rw [Option.isNone_iff_eq_none] at hsource hcanvas
  constructor
  · intro due text h
    cases hsource.symm.trans h
  · intro due h
    cases hcanvas.symm.trans h

theorem idle (window : Nat) : (Debouncer.idle window).Waits P := of_isEmpty rfl

theorem dropSource (h : d.Waits P) : { d with source := none }.Waits P := by
  refine ⟨?_, h.canvas⟩
  rintro due text ⟨⟩

theorem dropCanvas (h : d.Waits P) : { d with canvas := none }.Waits P := by
  refine ⟨h.source, ?_⟩
  rintro due ⟨⟩

theorem mono (h : d.Waits P) {Q : Change → Prop} (hPQ : ∀ change, P change → Q change) :
    d.Waits Q :=
  ⟨fun due text hs => hPQ _ (h.source due text hs), fun due hc => hPQ _ (h.canvas due hc)⟩

theorem pushSource (h : d.Waits P) {text : Text} (htext : P (.source text)) (now : Nat) :
    (d.pushSource now text).Waits P := by
  refine ⟨fun due new hnew => ?_, h.canvas⟩
  obtain ⟨-, rfl⟩ := Prod.ext_iff.1 (Option.some.inj hnew)
  exact htext

theorem pushCanvas (h : d.Waits P) (hcanvas : P .canvas) (now : Nat) :
    (d.pushCanvas now).Waits P :=
  ⟨h.source, fun _ _ => hcanvas⟩

theorem of_take? (h : d.Waits P) (htake : d.take? now = some (change, rest)) :
    P change ∧ rest.Waits P := by
  rw [take?] at htake
  split at htake
  · rw [takeCanvas?] at htake
    split at htake
    next due hdue =>
      split at htake <;> cases htake
      exact ⟨h.canvas due hdue, h.dropCanvas⟩
    next => cases htake
  · rw [takeSource?] at htake
    split at htake
    next due text htext =>
      split at htake <;> cases htake
      exact ⟨h.source due text htext, h.dropSource⟩
    next => cases htake

/-- The changes that are due are of the kind, and so are those that wait on. -/
theorem takeDue (h : d.Waits P) (now : Nat) :
    (∀ change ∈ (d.takeDue now).1, P change) ∧ (d.takeDue now).2.Waits P := by
  fun_induction Debouncer.takeDue d now with
  | case1 d => exact ⟨List.forall_mem_nil _, h⟩
  | case2 d change rest htake changes last hrest ih =>
    obtain ⟨hchange, hwaits⟩ := h.of_take? htake
    obtain ⟨hchanges, hlast⟩ := ih hwaits
    rw [hrest] at hchanges hlast
    exact ⟨List.forall_mem_cons.2 ⟨hchange, hchanges⟩, hlast⟩

/-- The changes that are let go at once are of the kind. -/
theorem drain (h : d.Waits P) : (∀ change ∈ d.drain.1, P change) ∧ d.drain.2.Waits P := by
  fun_induction Debouncer.drain d with
  | case1 d | case2 d => exact ⟨List.forall_mem_nil _, h⟩
  | case3 d due hdue change rest htake changes last hrest ih =>
    obtain ⟨hchange, hwaits⟩ := h.of_take? htake
    obtain ⟨hchanges, hlast⟩ := ih hwaits
    rw [hrest] at hchanges hlast
    exact ⟨List.forall_mem_cons.2 ⟨hchange, hchanges⟩, hlast⟩

end Waits

end Debouncer

/-- An input brings no change that is not of a kind. -/
def Input.Brings (P : Change → Prop) : Input → Prop
  | .source text => P (.source text)
  | .canvas => P .canvas
  | .flush | .sleep _ | .draw _ | .store _ | .close => True

namespace Session

variable {s : Session} {P : Change → Prop}

/-- Work on a change leaves the settings, the dialect and the changes that wait as they are. -/
theorem cycle_fixed (s : Session) (change : Change) :
    (s.cycle change).1.settings = s.settings ∧ (s.cycle change).1.dialect = s.dialect ∧
      (s.cycle change).1.debouncer = s.debouncer := by
  have h := s.follow_follows change
  rw [cycle_eq]
  generalize s.follow change = done at h
  cases h <;> exact ⟨rfl, rfl, rfl⟩

/-- **A session that hears only of changes of a kind works only on such.** -/
theorem waits_released (hs : s.debouncer.Waits P) {input : Input} (hinput : input.Brings P) :
    (s.released input).1.debouncer.Waits P ∧ ∀ change ∈ (s.released input).2, P change := by
  cases input with
  | source text => exact ⟨hs.pushSource hinput s.now, List.forall_mem_nil _⟩
  | canvas => exact ⟨hs.pushCanvas hinput s.now, List.forall_mem_nil _⟩
  | flush => exact hs.drain.symm
  | sleep time => exact (hs.takeDue _).symm
  | draw | store => exact ⟨hs, List.forall_mem_nil _⟩
  | close => exact ⟨.idle _, List.forall_mem_nil _⟩

end Session

/-! ## Cycles that are aborted -/

namespace Folder

theorem read?_of_write? {f g : Folder} {path content : Text} (h : f.write? path content = some g) :
    g.read? path = some content := by
  rw [write?] at h
  split at h
  · cases h
    simp [read?, get?, put]
  · cases h

/-- A file that was saved has its new content. -/
theorem read?_of_save {f : Folder} {path content : Text} {backup : Bool}
    (h : (f.save path content backup).error = none) :
    (f.save path content backup).state.read? path = some content := by
  simp only [save] at h ⊢
  generalize (if backup = true then f.keepBackup path else f) = g at h ⊢
  cases hg : g.write? path content with
  | none => simp [hg] at h
  | some written => exact read?_of_write? hg

end Folder

namespace Session

/-- Whether a session tells of an aborted cycle. -/
def tellsAbort (events : List SyncEvent) : Bool :=
  events.any fun
    | .cycleAborted .. => true
    | _ => false

theorem exists_cycleAborted {events : List SyncEvent} (h : tellsAbort events = true) :
    ∃ direction e, .cycleAborted direction e ∈ events := by
  obtain ⟨event, hevent, haborted⟩ := List.any_eq_true.1 h
  cases event with
  | cycleAborted direction e => exact ⟨direction, e, hevent⟩
  | _ => cases haborted

/-- **A cycle that is aborted changes neither texts nor trees and counts as aborted.** The file
stays as well, unless the patched source has been written and cannot be read. -/
theorem unchanged_of_aborted {s : Session} {change : Change} {direction : Direction} {e : SyncError}
    (h : .cycleAborted direction e ∈ (s.cycle change).2) :
    let t := (s.cycle change).1
    t.source = s.source ∧ t.template = s.template ∧ t.sourceTree = s.sourceTree ∧
      t.canvasTree = s.canvasTree ∧
      t.metrics = { s.metrics with aborted := s.metrics.aborted + 1 } ∧
      (t.folder = s.folder ∨ ∃ path patched fault, s.path = some path ∧ change = .canvas ∧
        s.pipeline.run s.source s.pending = .ok patched ∧
        Document.ofSource s.dialect patched.text = .error fault ∧ e = .parse fault ∧
        t.folder.read? path = some patched.text) := by
  have hfollows := s.follow_follows change
  rw [cycle_eq] at h ⊢
  generalize s.follow change = done at hfollows h ⊢
  cases hfollows with
  | echo | sameTemplate | drawn | equal | unwritten => simp [closed] at h
  | adopted =>
    simp only [closed, divergences] at h
    split at h <;> simp at h
  | unread | undrawn | unpatched => exact ⟨rfl, rfl, rfl, rfl, rfl, .inl rfl⟩
  | @unreadable patched fault hpending hpatched hwritten hdocument =>
    obtain ⟨-, rfl⟩ : _ ∧ e = _ := by simpa [closed, abort] using h
    refine ⟨rfl, rfl, rfl, rfl, rfl, ?_⟩
    cases hpath : s.path with
    | none => exact .inl (by simp [closed, abort, writeFile, hpath])
    | some path =>
      have hsaved := hwritten.resolve_left (by simp [hpath])
      refine .inr ⟨path, patched, fault, rfl, rfl, hpatched, hdocument, rfl, ?_⟩
      simp only [closed, abort, writeFile, hpath] at hsaved ⊢
      exact Folder.read?_of_save hsaved

/-- A source that cannot be read. -/
theorem unchanged_of_aborted_unclosed :
    ∃ s direction e, start? {} .html none "<p>a</p>".toList .empty .empty = .ok s ∧
      .cycleAborted direction e ∈ (s.cycle (.source "<p>".toList)).2 ∧
      (s.cycle (.source "<p>".toList)).1.source = s.source := by
  have haborts : ((start? {} .html none "<p>a</p>".toList .empty .empty).toOption.map fun s =>
      tellsAbort (s.cycle (.source "<p>".toList)).2) = some true := by
    decide +kernel
  obtain ⟨s, hstart, haborts⟩ := Option.map_eq_some_iff.1 haborts
  obtain ⟨direction, e, haborted⟩ := exists_cycleAborted haborts
  exact ⟨s, direction, e, eq_ok_of_toOption hstart, haborted, (unchanged_of_aborted haborted).1⟩

/-- Whether work on the canvas is aborted and leaves another file. -/
def breaksFile (s : Session) (path : Text) : Bool :=
  tellsAbort (s.cycle .canvas).2 && (s.cycle .canvas).1.folder.read? path != s.folder.read? path

theorem exists_of_breaksFile {s : Session} {path : Text} (h : s.breaksFile path = true) :
    (∃ direction e, .cycleAborted direction e ∈ (s.cycle .canvas).2) ∧
      (s.cycle .canvas).1.folder.read? path ≠ s.folder.read? path := by
  obtain ⟨hany, hne⟩ := Bool.and_eq_true_iff.1 h
  exact ⟨exists_cycleAborted hany, bne_iff_ne.1 hne⟩

/-- A close tag is typed into a text that is kept as it is written: the cycle is aborted, and the
file has a content that cannot be read. -/
theorem not_unchanged_of_aborted :
    let path := "a.html".toList
    let folder := Folder.empty.put (Path.steps path) (.file "<pre>x</pre>".toList)
    let canvas := Canvas.ofNode (.element "pre".toList .empty .empty [.text "</pre>".toList])
    ∃ s t, load? {} path .empty folder = .ok s ∧ s.run [.draw canvas] = .ok (t, []) ∧
      (∃ direction e, .cycleAborted direction e ∈ (t.cycle .canvas).2) ∧
      (t.cycle .canvas).1.folder.read? path ≠ t.folder.read? path := by
  intro path folder canvas
  have hbreaks : ((load? {} path .empty folder).toOption.map fun s =>
      ({ s with canvas } : Session).breaksFile path) = some true := by
    decide +kernel
  obtain ⟨s, hload, hbreaks⟩ := Option.map_eq_some_iff.1 hbreaks
  refine ⟨s, { s with canvas }, eq_ok_of_toOption hload, ?_, exists_of_breaksFile hbreaks⟩
  simp [run, step, refuses, handle, Except.map]

end Session

end MarkupSync
