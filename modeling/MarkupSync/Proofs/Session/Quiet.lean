import MarkupSync.Proofs.Canvas.Legible
import MarkupSync.Proofs.Diff.Same
import MarkupSync.Proofs.Session.Cycle
import MarkupSync.Proofs.Session.Invariants

/-!
# Changes that tell nothing new

Word of a canvas that shows its document, and the source that has just been written.

* `Input.IsNotice`: word that the canvas was edited, and the time in which it is worked on;
* `Debouncer.takeDue_of_source`, `Debouncer.drain_of_source`: without a source change only word of
  the canvas is let go;
* `Session.IsQuiet`: a session whose canvas shows the document of the source;
* `Session.IsQuiet.run`: word of the canvas of such a session changes nothing;
* **`Session.run_notices`**: so it is with a session that has just shown its document;
* `Input.Repeats`: the source that is known, word of the canvas, and the time that lets them go;
* `Session.IsSettled`: an open session whose source lacks nothing of its canvas;
* `Session.IsSettled.cycle`, `Session.IsSettled.step`, `Session.IsSettled.run`: it only counts how
  often it hears its own source;
* **`Session.run_repeats`**: so it is with a session that has just written its source;
* `Session.not_run_repeats`: of two deliveries within the window of the debouncer only one is heard.
-/

namespace MarkupSync

/-- Word that the canvas was edited, or time that lets it go. -/
def Input.IsNotice : Input → Prop
  | .canvas | .flush | .sleep _ => True
  | .source _ | .draw _ | .store _ | .close => False

/-! ## Changes that wait -/

namespace Debouncer

variable {d : Debouncer}

/-- Without a source change there is only word of the canvas. -/
theorem waits_canvas_iff : d.Waits (· = .canvas) ↔ d.source = none := by
  constructor
  · intro h
    cases hs : d.source with
    | none => rfl
    | some waiting => cases h.source waiting.1 waiting.2 hs
  · intro h
    exact ⟨fun _ _ hs => absurd (h.symm.trans hs) nofun, fun _ _ => rfl⟩

theorem takeDue_of_source (hd : d.source = none) (now : Nat) :
    (∀ change ∈ (d.takeDue now).1, change = .canvas) ∧ (d.takeDue now).2.source = none :=
  ((waits_canvas_iff.2 hd).takeDue now).imp id waits_canvas_iff.1

theorem drain_of_source (hd : d.source = none) :
    (∀ change ∈ d.drain.1, change = .canvas) ∧ d.drain.2.source = none :=
  (waits_canvas_iff.2 hd).drain.imp id waits_canvas_iff.1

end Debouncer

namespace Session

/-! ## Nothing to do -/

/-- The canvas of an open session shows the document of the source, and no source change waits. -/
structure IsQuiet (s : Session) : Prop where
  isOpen : s.isClosed = false
  source : s.debouncer.source = none
  adapted : s.adapted = s.sourceTree
  canvasTree : s.canvasTree = s.sourceTree

namespace IsQuiet

variable {s : Session} (h : s.IsQuiet)
include h

/-- The state of a quiet session apart from the time and the changes that wait. -/
theorem wait {debouncer : Debouncer} (hd : debouncer.source = none) (now : Nat) :
    ({ s with debouncer, now } : Session).IsQuiet :=
  ⟨h.isOpen, hd, h.adapted, h.canvasTree⟩

/-- **Work on the canvas finds nothing to do.** -/
theorem cycle : s.cycle .canvas = (s, []) := by
  have hpending : s.pending = [] := by
    rw [pending, h.adapted]
    exact Node.diff_of_same (Node.Same.refl _)
  have hequal : s.followCanvas = ⟨{ s with canvasTree := s.adapted }, [], .skipped⟩ :=
    if_pos (List.isEmpty_iff.2 hpending)
  rw [h.adapted.trans h.canvasTree.symm] at hequal
  rw [cycle_eq, follow, hequal]
  rfl

theorem cycles {changes : List Change} (hchanges : ∀ change ∈ changes, change = .canvas) :
    s.cycles changes = (s, []) := by
  induction changes with
  | nil => rfl
  | cons change changes ih =>
    obtain ⟨rfl, hrest⟩ := List.forall_mem_cons.1 hchanges
    rw [Session.cycles, h.cycle]
    simp only [ih hrest, List.append_nil]

/-- **One input that says nothing but that the canvas was edited.** -/
theorem step {input : Input} (hinput : input.IsNotice) : ∃ debouncer now,
    s.step input = .ok ({ s with debouncer, now }, []) ∧ debouncer.source = none := by
  have hstep : s.step input = .ok (s.handle input) := by
    rw [Session.step, h.isOpen]
    rfl
  rw [hstep, handle_eq]
  cases input with
  | canvas => exact ⟨s.debouncer.pushCanvas s.now, s.now, rfl, h.source⟩
  | flush =>
    obtain ⟨hchanges, hrest⟩ := Debouncer.drain_of_source h.source
    exact ⟨_, s.now, congrArg Except.ok ((h.wait hrest s.now).cycles hchanges), hrest⟩
  | sleep time =>
    obtain ⟨hchanges, hrest⟩ := Debouncer.takeDue_of_source h.source (s.now + time)
    exact ⟨_, s.now + time, congrArg Except.ok ((h.wait hrest _).cycles hchanges), hrest⟩
  | source | draw | store | close => exact hinput.elim

/-- **Word of the canvas changes nothing and tells nothing.** -/
theorem run {inputs : List Input} (hinputs : ∀ input ∈ inputs, input.IsNotice) :
    ∃ debouncer now, s.run inputs = .ok ({ s with debouncer, now }, []) := by
  induction inputs generalizing s with
  | nil => exact ⟨s.debouncer, s.now, rfl⟩
  | cons input inputs ih =>
    obtain ⟨hinput, hinputs⟩ := List.forall_mem_cons.1 hinputs
    obtain ⟨debouncer, now, hstep, hsource⟩ := h.step hinput
    obtain ⟨debouncer', now', hrun⟩ := ih (h.wait hsource now) hinputs
    refine ⟨debouncer', now', ?_⟩
    rw [Session.run, hstep]
    simp only [hrun]
    rfl

end IsQuiet

/-! ## Sessions that have just started -/

section Start

variable {settings : Settings} {dialect : Dialect} {path : Option Text} {source : Text}
  {canvas : Canvas} {folder : Folder} {s : Session}

/-- A session that shows a document without decoration is quiet. -/
theorem isQuiet_of_start? (hcanvas : canvas.IsBuilt)
    (hstart : start? settings dialect path source canvas folder = .ok s)
    (hfree : s.sourceTree.Everywhere settings.decoration.IsUndecorated)
    (hlegible : s.sourceTree.Everywhere (Node.IsLegible dialect.flavor)) : s.IsQuiet := by
  rw [start?] at hstart
  split at hstart
  · cases hstart
  next document hread =>
    split at hstart
    · cases hstart
    next shown hrender =>
      cases hstart
      exact ⟨rfl, rfl, Document.adapt_render hread hcanvas.isSound hfree hlegible hrender, rfl⟩

/-- **Word of a canvas that nobody has edited changes nothing.** A session has shown a document in
which nothing is the editor's and which says the same on the canvas: it tells nothing, writes
nothing and stays as it is, apart from the time and the changes that wait. -/
theorem run_notices (hcanvas : canvas.IsBuilt)
    (hstart : start? settings dialect path source canvas folder = .ok s)
    (hfree : s.sourceTree.Everywhere settings.decoration.IsUndecorated)
    (hlegible : s.sourceTree.Everywhere (Node.IsLegible dialect.flavor)) {inputs : List Input}
    (hinputs : ∀ input ∈ inputs, input.IsNotice) :
    ∃ debouncer now, s.run inputs = .ok ({ s with debouncer, now }, []) :=
  (isQuiet_of_start? hcanvas hstart hfree hlegible).run hinputs

/-- Classes with more than one space between them, and an inline style. -/
theorem run_notices_classes :
    let source := "<p class=\"a  b\" style=\"color:red\">x <b>y</b></p>".toList
    let inputs : List Input := [.canvas, .flush, .sleep 200]
    ∃ s debouncer now, start? {} .html (some "a.html".toList) source .empty .empty = .ok s ∧
      s.run inputs = .ok ({ s with debouncer, now }, []) := by
  intro source inputs
  have hstarts : ((start? {} .html (some "a.html".toList) source .empty .empty).toOption.map
      fun s => decide (s.sourceTree.Everywhere Decoration.standard.IsUndecorated ∧
        s.sourceTree.Everywhere (Node.IsLegible .html))) = some true := by
    decide +kernel
  obtain ⟨s, hstart, hdecide⟩ := Option.map_eq_some_iff.1 hstarts
  obtain ⟨hfree, hlegible⟩ := of_decide_eq_true hdecide
  replace hstart := eq_ok_of_toOption hstart
  have hinputs : ∀ input ∈ inputs, input.IsNotice := by simp [inputs, Input.IsNotice]
  obtain ⟨debouncer, now, hrun⟩ := run_notices .empty hstart hfree hlegible hinputs
  exact ⟨s, debouncer, now, hstart, hrun⟩

/-- An attribute of the editor's in the source is taken out of it. -/
theorem not_run_notices :
    ∃ s t events, start? {} .html none "<p draggable=\"true\">x</p>".toList .empty .empty = .ok s ∧
      s.run [.canvas, .flush] = .ok (t, events) ∧ events ≠ [] ∧ t.source ≠ s.source := by
  have hruns : ((start? {} .html none "<p draggable=\"true\">x</p>".toList .empty
      .empty).toOption.bind fun s => (s.run [.canvas, .flush]).toOption.map fun r =>
        !r.2.isEmpty && r.1.source != s.source) = some true := by
    decide +kernel
  obtain ⟨s, hstart, hruns⟩ := Option.bind_eq_some_iff.1 hruns
  obtain ⟨⟨t, events⟩, hrun, hrewrites⟩ := Option.map_eq_some_iff.1 hruns
  obtain ⟨hevents, hsource⟩ := Bool.and_eq_true_iff.1 hrewrites
  refine ⟨s, t, events, eq_ok_of_toOption hstart, eq_ok_of_toOption hrun, ?_, bne_iff_ne.1 hsource⟩
  simpa using hevents

end Start

end Session

/-! ## The source that was written -/

/-- The source that is known, word that the canvas was edited, or time that lets them go. -/
def Input.Repeats (text : Text) : Input → Prop
  | .source new => new = text
  | .canvas | .flush | .sleep _ => True
  | .draw _ | .store _ | .close => False

/-- The source that is known, or word that the canvas was edited. -/
def Change.Repeats (text : Text) (change : Change) : Prop := change = .source text ∨ change = .canvas

theorem Input.Repeats.brings {text : Text} {input : Input} (h : input.Repeats text) :
    input.Brings (Change.Repeats text) := by
  cases input with
  | source new => exact .inl (congrArg Change.source h)
  | canvas => exact .inr rfl
  | flush | sleep => trivial
  | draw | store | close => exact h.elim

/-- The work does nothing. -/
def Work.IsSkipped (w : Work) : Prop := (w.session.follow w.change).ending = .skipped

/-- How many of the changes worked on are source changes. -/
def deliveries (log : List Work) : Nat := log.countP (·.change.direction = .toCanvas)

@[simp] theorem deliveries_nil : deliveries [] = 0 := rfl

@[simp] theorem deliveries_append (log rest : List Work) :
    deliveries (log ++ rest) = deliveries log + deliveries rest :=
  List.countP_append

namespace Session

/-- The session once it has heard its own source a number of times. -/
def hears (s : Session) (n : Nat) : Session :=
  { s with metrics.echoes := s.metrics.echoes + n }

theorem hears_zero (s : Session) : s.hears 0 = s := rfl

theorem hears_hears (s : Session) (m n : Nat) : (s.hears m).hears n = s.hears (m + n) := by
  simp only [hears, Nat.add_assoc]

/-! ## Nothing to do on either side -/

/-- The source of an open session lacks nothing of the canvas, and no other source waits. -/
structure IsSettled (s : Session) : Prop where
  isOpen : s.isClosed = false
  waits : s.debouncer.Waits (Change.Repeats s.source)
  pending : s.pending = []
  canvasTree : s.canvasTree = s.adapted

namespace IsSettled

variable {s : Session} (h : s.IsSettled)
include h

theorem hears (n : Nat) : (s.hears n).IsSettled := ⟨h.isOpen, h.waits, h.pending, h.canvasTree⟩

theorem wait {debouncer : Debouncer} (hd : debouncer.Waits (Change.Repeats s.source)) (now : Nat) :
    ({ s with debouncer, now } : Session).IsSettled :=
  ⟨h.isOpen, hd, h.pending, h.canvasTree⟩

/-- **Work on its own source or on its canvas finds nothing to do.** -/
theorem cycle {change : Change} (hchange : change.Repeats s.source) :
    Work.IsSkipped ⟨s, change⟩ ∧ s.cycle change = (s.hears (deliveries [⟨s, change⟩]), []) := by
  rcases hchange with rfl | rfl
  · have hecho : s.follow (.source s.source) = ⟨s.hears 1, [], .skipped⟩ := if_pos rfl
    rw [Work.IsSkipped, cycle_eq, hecho]
    exact ⟨rfl, rfl⟩
  · have hequal : s.follow .canvas = ⟨{ s with canvasTree := s.adapted }, [], .skipped⟩ :=
      if_pos (List.isEmpty_iff.2 h.pending)
    rw [← h.canvasTree] at hequal
    rw [Work.IsSkipped, cycle_eq, hequal]
    exact ⟨rfl, rfl⟩

theorem cycles {changes : List Change} (hchanges : ∀ change ∈ changes, change.Repeats s.source) :
    (∀ w ∈ s.works changes, w.IsSkipped) ∧
      s.cycles changes = (s.hears (deliveries (s.works changes)), []) := by
  induction changes generalizing s with
  | nil =>
    rw [works, deliveries_nil, hears_zero]
    exact ⟨List.forall_mem_nil _, rfl⟩
  | cons change changes ih =>
    obtain ⟨hchange, hrest⟩ := List.forall_mem_cons.1 hchanges
    obtain ⟨hskipped, hcycle⟩ := h.cycle hchange
    have hafter : Work.after ⟨s, change⟩ = s.hears (deliveries [⟨s, change⟩]) :=
      congrArg Prod.fst hcycle
    obtain ⟨hmore, hcycles⟩ := ih (h.hears _) hrest
    rw [works, hafter, Session.cycles, hcycle]
    refine ⟨List.forall_mem_cons.2 ⟨hskipped, hmore⟩, ?_⟩
    simp only [hcycles, hears_hears, ← deliveries_append, List.singleton_append, List.nil_append]

/-- What an input lets go, and what waits behind it. -/
theorem released {input : Input} (hinput : input.Repeats s.source) :
    ∃ debouncer now, (s.released input).1 = { s with debouncer, now } ∧
      debouncer.Waits (Change.Repeats s.source) ∧
      ∀ change ∈ (s.released input).2, change.Repeats s.source := by
  obtain ⟨hwaits, hchanges⟩ := waits_released h.waits hinput.brings
  cases input with
  | source | canvas | flush | sleep => exact ⟨_, _, rfl, hwaits, hchanges⟩
  | draw | store | close => exact hinput.elim

/-- **One input that brings nothing new.** -/
theorem step {input : Input} (hinput : input.Repeats s.source) :
    let heard := (s.released input).1.works (s.released input).2
    (∀ w ∈ heard, w.IsSkipped) ∧ ∃ debouncer now,
      s.step input = .ok ({ s.hears (deliveries heard) with debouncer, now }, []) ∧
      debouncer.Waits (Change.Repeats s.source) := by
  obtain ⟨debouncer, now, hreleased, hwaits, hchanges⟩ := h.released hinput
  have hstep : s.step input = .ok (s.handle input) := by
    rw [Session.step, h.isOpen]
    rfl
  rw [hstep, handle_eq, hreleased]
  obtain ⟨hskipped, hcycles⟩ := (h.wait hwaits now).cycles hchanges
  exact ⟨hskipped, debouncer, now, congrArg Except.ok hcycles, hwaits⟩

/-- **Nothing new changes nothing and tells nothing**: every delivery that is let go is counted. -/
theorem run {inputs : List Input} (hinputs : ∀ input ∈ inputs, input.Repeats s.source) :
    (∀ w ∈ s.log inputs, w.IsSkipped) ∧ ∃ debouncer now,
      s.run inputs = .ok ({ s.hears (deliveries (s.log inputs)) with debouncer, now }, []) := by
  induction inputs generalizing s with
  | nil =>
    rw [log, deliveries_nil, hears_zero]
    exact ⟨List.forall_mem_nil _, s.debouncer, s.now, rfl⟩
  | cons input inputs ih =>
    obtain ⟨hinput, hinputs⟩ := List.forall_mem_cons.1 hinputs
    obtain ⟨hskipped, debouncer, now, hstep, hwaits⟩ := h.step hinput
    have hhandle := hstep
    rw [Session.step, h.isOpen] at hhandle
    replace hhandle := Except.ok.inj hhandle
    obtain ⟨hmore, debouncer', now', hrun⟩ := ih ((h.hears _).wait hwaits now) hinputs
    rw [log, hhandle]
    refine ⟨List.forall_mem_append.2 ⟨hskipped, hmore⟩, debouncer', now', ?_⟩
    rw [Session.run, hstep]
    simp only [hrun, deliveries_append, ← hears_hears]
    rfl

end IsSettled

/-! ## Sources that were just written -/

/-- A source that was written and lacks nothing of the canvas. -/
theorem isSettled_of_sourceUpdated {s : Session} {text : Text} {edits : List Edit}
    (hopen : s.isClosed = false) (hidle : s.debouncer.isEmpty = true)
    (hupdated : .sourceUpdated text edits ∈ (s.cycle .canvas).2)
    (hagrees : ∀ what, .diverged what ∉ (s.cycle .canvas).2) :
    (s.cycle .canvas).1.IsSettled ∧ (s.cycle .canvas).1.source = text := by
  have hfollows := s.follow_follows .canvas
  rw [cycle_eq] at hupdated hagrees ⊢
  generalize s.follow .canvas = done at hfollows hupdated hagrees ⊢
  cases hfollows with
  | equal | unpatched | unwritten | unreadable => simp [closed, abort] at hupdated
  | @adopted patched document hpending hpatched hwritten h =>
    have hdiff : document.root.diff s.adapted = [] := by
      by_contra hdiff
      obtain ⟨what, hwhat⟩ := diverged_mem_divergences hdiff
      exact hagrees what (List.mem_append_left _ hwhat)
    have hnone : divergences document.root s.adapted = [] := by rw [divergences, hdiff]; rfl
    rw [closed, hnone, List.nil_append, List.mem_singleton] at hupdated
    obtain ⟨rfl, -⟩ : text = _ ∧ _ := by simpa using hupdated
    exact ⟨⟨hopen, .of_isEmpty hidle, hdiff, rfl⟩, rfl⟩

/-- **Behind a source that was written there is nothing to do.** Work on the canvas has written the
source, the source lacks nothing of it, and nothing else waits. The source is delivered and there is
word of the canvas, in any order and any number of times: all work is skipped, the session tells
nothing and stays as it is, apart from the time, the changes that wait and the number of deliveries
it has heard, which are those that the debouncer lets go. -/
theorem run_repeats {s : Session} {text : Text} {edits : List Edit} (hopen : s.isClosed = false)
    (hidle : s.debouncer.isEmpty = true)
    (hupdated : .sourceUpdated text edits ∈ (s.cycle .canvas).2)
    (hagrees : ∀ what, .diverged what ∉ (s.cycle .canvas).2) {inputs : List Input}
    (hinputs : ∀ input ∈ inputs, input.Repeats text) :
    let t := (s.cycle .canvas).1
    (∀ w ∈ t.log inputs, w.IsSkipped) ∧ ∃ debouncer now,
      t.run inputs = .ok ({ t.hears (deliveries (t.log inputs)) with debouncer, now }, []) := by
  obtain ⟨hsettled, rfl⟩ := isSettled_of_sourceUpdated hopen hidle hupdated hagrees
  exact hsettled.run hinputs

/-- Whether a session tells of a text as its source, and of nothing else. -/
def tellsSource (text : Text) : List SyncEvent → Bool
  | [.sourceUpdated new _] => new = text
  | _ => false

theorem eq_of_tellsSource {text : Text} {events : List SyncEvent}
    (h : tellsSource text events = true) : ∃ edits, events = [.sourceUpdated text edits] := by
  unfold tellsSource at h
  split at h
  next new edits => exact ⟨edits, by rw [of_decide_eq_true h]⟩
  next => cases h

/-- A text is typed into the canvas. Then the source is delivered, there is word of the canvas, and
both once more. -/
theorem run_repeats_paragraph :
    let text := "<p>b</p>\n".toList
    let canvas := Canvas.ofNode (.element "p".toList .empty .empty [.text "b".toList])
    let inputs : List Input :=
      [.source text, .flush, .canvas, .flush, .canvas, .source text, .sleep 150]
    ∃ s edits debouncer now, start? {} .html none "<p>a</p>".toList .empty .empty = .ok s ∧
      .sourceUpdated text edits ∈ (Session.cycle { s with canvas } .canvas).2 ∧
      let t := (Session.cycle { s with canvas } .canvas).1
      t.run inputs = .ok ({ t.hears 2 with debouncer, now }, []) := by
  intro text canvas inputs
  have hwrites : ((start? {} .html none "<p>a</p>".toList .empty .empty).toOption.map fun s =>
      !s.isClosed && s.debouncer.isEmpty &&
        let done := Session.cycle { s with canvas } .canvas
        tellsSource text done.2 && deliveries (done.1.log inputs) == 2) = some true := by
    decide +kernel
  obtain ⟨s, hstart, hwrites⟩ := Option.map_eq_some_iff.1 hwrites
  simp only [Bool.and_eq_true, Bool.not_eq_true', beq_iff_eq] at hwrites
  obtain ⟨⟨hopen, hidle⟩, htells, htwo⟩ := hwrites
  obtain ⟨edits, hevents⟩ := eq_of_tellsSource htells
  have hinputs : ∀ input ∈ inputs, input.Repeats text := by simp [inputs, Input.Repeats]
  obtain ⟨-, debouncer, now, hrun⟩ := run_repeats (s := { s with canvas }) hopen hidle
    (by rw [hevents]; exact List.mem_singleton_self _) (by simp [hevents]) hinputs
  rw [htwo] at hrun
  exact ⟨s, edits, debouncer, now, eq_ok_of_toOption hstart,
    by rw [hevents]; exact List.mem_singleton_self _, hrun⟩

/-- Two deliveries within the window of the debouncer are heard as one. -/
theorem not_run_repeats :
    let text := "<p>b</p>\n".toList
    let canvas := Canvas.ofNode (.element "p".toList .empty .empty [.text "b".toList])
    ∃ s t u edits, start? {} .html none "<p>a</p>".toList .empty .empty = .ok s ∧
      s.run [.draw canvas, .canvas, .flush] = .ok (t, [.sourceUpdated text edits]) ∧
      t.debouncer.isEmpty = true ∧
      t.run [.source text, .source text, .flush] = .ok (u, []) ∧
      u.metrics.echoes ≠ t.metrics.echoes + 2 := by
  intro text canvas
  have hruns : ((start? {} .html none "<p>a</p>".toList .empty .empty).toOption.bind fun s =>
      (s.run [.draw canvas, .canvas, .flush]).toOption.bind fun r =>
        (r.1.run [.source text, .source text, .flush]).toOption.map fun q =>
          tellsSource text r.2 && r.1.debouncer.isEmpty && q.2.isEmpty &&
            q.1.metrics.echoes != r.1.metrics.echoes + 2) = some true := by
    decide +kernel
  obtain ⟨s, hstart, hruns⟩ := Option.bind_eq_some_iff.1 hruns
  obtain ⟨⟨t, first⟩, hfirst, hruns⟩ := Option.bind_eq_some_iff.1 hruns
  obtain ⟨⟨u, second⟩, hsecond, hruns⟩ := Option.map_eq_some_iff.1 hruns
  simp only [Bool.and_eq_true, bne_iff_ne, List.isEmpty_iff] at hruns
  obtain ⟨⟨⟨htells, hidle⟩, rfl⟩, hechoes⟩ := hruns
  obtain ⟨edits, rfl⟩ := eq_of_tellsSource htells
  exact ⟨s, t, u, edits, eq_ok_of_toOption hstart, eq_ok_of_toOption hfirst, hidle,
    eq_ok_of_toOption hsecond, hechoes⟩

end Session

end MarkupSync
