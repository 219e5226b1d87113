import MarkupSync.Proofs.Diff.Reach
import MarkupSync.Proofs.Document.Shift
import MarkupSync.Proofs.Session.Cycle

/-!
# What holds in every run

* `Work.Settles`, `Work.Fails`: work that makes both sides agree, and work with a fault;
* `Session.FailedSince`: a fault that no work has settled;
* **`Session.agrees_or_failedSince`**: in a run the trees of both sides agree, or there is such a
  fault;
* `Dialect.exists_ofSource`: the tree of a component depends only on the text of its template;
* `Session.ReadsSource`: the source tree and the template of a session are those of its source;
* **`Session.readsSource_of_run`**: so it is in every run.
-/

namespace MarkupSync

namespace Work

/-- The canvas was updated, the source was updated and lacks nothing, or the canvas was found equal
to the source. -/
def Settles (w : Work) : Prop :=
  (∃ edits, .canvasUpdated edits ∈ w.events) ∨
    ((∃ text edits, .sourceUpdated text edits ∈ w.events) ∧ ∀ what, .diverged what ∉ w.events) ∨
    (w.change = .canvas ∧ w.session.pending = [])

/-- The file was not written, or the source that was written still lacks edits. -/
def Fails (w : Work) : Prop :=
  (∃ path e, .writeFailed path e ∈ w.events) ∨ ∃ what, .diverged what ∈ w.events

end Work

namespace Session

/-- There was a fault, and no work behind it has made both sides agree. -/
def FailedSince (log : List Work) : Prop :=
  ∃ before w after, log = before ++ w :: after ∧ w.Fails ∧ ∀ v ∈ after, ¬ v.Settles

theorem FailedSince.of_fails {w : Work} (h : w.Fails) (log : List Work) :
    FailedSince (log ++ [w]) :=
  ⟨log, w, [], rfl, h, fun _ hv => absurd hv List.not_mem_nil⟩

theorem FailedSince.append {log : List Work} (h : FailedSince log) {w : Work}
    (hw : ¬ w.Settles) : FailedSince (log ++ [w]) := by
  obtain ⟨before, v, after, rfl, hv, hafter⟩ := h
  refine ⟨before, v, after ++ [w], by simp, hv, fun u hu => ?_⟩
  rcases List.mem_append.1 hu with hu | hu
  · exact hafter u hu
  · rw [List.mem_singleton.1 hu]
    exact hw

/-- The trees of both sides are equal up to the order of attributes and declarations. -/
def Agrees (s : Session) : Prop := s.sourceTree.Same s.canvasTree

theorem inSync_iff (s : Session) : s.inSync = true ↔ s.Agrees := Node.same_iff ..

theorem diverged_mem_divergences {written adapted : Node} (h : written.diff adapted ≠ []) :
    ∃ what, .diverged what ∈ divergences written adapted := by
  rw [divergences]
  cases hlen : (written.diff adapted).length with
  | zero => exact absurd (List.length_eq_zero_iff.1 hlen) h
  | succ n => exact ⟨⟨n + 1⟩, List.mem_singleton_self _⟩

/-- Work makes both sides agree, or it has a fault, or it leaves both trees as they were and settles
nothing. -/
theorem agrees_or_fails (w : Work) : w.after.Agrees ∨ w.Fails ∨
    (w.after.sourceTree = w.session.sourceTree ∧ w.after.canvasTree = w.session.canvasTree ∧
      ¬ w.Settles) := by
  obtain ⟨s, change⟩ := w
  have h := s.follow_follows change
  simp only [Work.after, Work.Fails, Work.Settles, Work.events, cycle_eq]
  generalize s.follow change = done at h
  cases h with
  | drawn canvas _ => exact .inl (Node.Same.refl _)
  | equal h => exact .inl (Node.same_of_diff_eq_nil h)
  | unwritten hpending hpatched hpath herror => exact .inr (.inl (.inl ⟨_, _, List.mem_singleton_self _⟩))
  | @adopted patched document hpending hpatched h =>
    by_cases hdiff : document.root.diff s.adapted = []
    · exact .inl (Node.same_of_diff_eq_nil hdiff)
    · obtain ⟨what, hwhat⟩ := diverged_mem_divergences hdiff
      exact .inr (.inl (.inr ⟨what, List.mem_append_left _ hwhat⟩))
  | echo | sameTemplate | unread | undrawn => simp [closed, abort]
  | unpatched hpending | unreadable hpending => simp [closed, abort, hpending]

/-- What a session starts with agrees. -/
theorem agrees_of_start? {settings : Settings} {dialect : Dialect} {path : Option Text}
    {source : Text} {canvas : Canvas} {folder : Folder} {s : Session}
    (h : start? settings dialect path source canvas folder = .ok s) : s.Agrees := by
  rw [start?] at h
  split at h
  · cases h
  · split at h
    · cases h
    · cases h
      exact Node.Same.refl _

/-- **In a run the trees of both sides agree, unless the file was not written or a written source
still lacks edits, and nothing has made both sides agree since.** -/
theorem agrees_or_failedSince {settings : Settings} {dialect : Dialect} {path : Option Text}
    {source : Text} {canvas : Canvas} {folder : Folder} {s t : Session}
    (hstart : start? settings dialect path source canvas folder = .ok s) {inputs : List Input}
    {events : List SyncEvent} (hrun : s.run inputs = .ok (t, events)) :
    events = (s.log inputs).flatMap Work.events ∧ (t.Agrees ∨ FailedSince (s.log inputs)) := by
  have hcycle (log : List Work) (s : Session) (change : Change) (h : s.Agrees ∨ FailedSince log) :
      (Work.after ⟨s, change⟩).Agrees ∨ FailedSince (log ++ [⟨s, change⟩]) := by
    rcases agrees_or_fails ⟨s, change⟩ with hagrees | hfails | ⟨hsource, hcanvas, hsettles⟩
    · exact .inl hagrees
    · exact .inr (.of_fails hfails log)
    · rw [Agrees, hsource, hcanvas]
      exact h.imp id fun h => h.append hsettles
  have hrelease (log : List Work) (s : Session) (input : Input) (h : s.Agrees ∨ FailedSince log) :
      (s.released input).1.Agrees ∨ FailedSince log := by
    cases input <;> exact h
  obtain ⟨hlast, hevents⟩ :=
    run_induction hrelease hcycle [] (.inl (agrees_of_start? hstart)) hrun
  exact ⟨hevents, hlast⟩

/-- A source change that is shown, then a change of the canvas whose file cannot be written. -/
theorem agrees_or_failedSince_unwritten :
    let inputs : List Input := [.source "<p>b</p>".toList, .flush, .draw .empty, .canvas, .flush]
    ∃ s t events,
      start? {} .html (some "a.html".toList) "<p>a</p>".toList .empty .removed = .ok s ∧
        s.run inputs = .ok (t, events) ∧ ¬ t.Agrees ∧ FailedSince (s.log inputs) := by
  intro inputs
  have hruns : ((start? {} .html (some "a.html".toList) "<p>a</p>".toList .empty
      .removed).toOption.bind fun s => (s.run inputs).toOption.map fun r => r.1.inSync) =
        some false := by
    decide +kernel
  obtain ⟨s, hstart, hruns⟩ := Option.bind_eq_some_iff.1 hruns
  obtain ⟨⟨t, events⟩, hrun, hsync⟩ := Option.map_eq_some_iff.1 hruns
  replace hstart := eq_ok_of_toOption hstart
  replace hrun := eq_ok_of_toOption hrun
  have hagrees : ¬ t.Agrees := fun h => nomatch hsync.symm.trans (t.inSync_iff.2 h)
  exact ⟨s, t, events, hstart, hrun, hagrees,
    (agrees_or_failedSince hstart hrun).2.resolve_left hagrees⟩

end Session

/-! ## The source tree -/

/-- Two components with the same template text have the same tree. -/
theorem Dialect.exists_ofSource {dialect : Dialect} {old new template : Text} {d : Document}
    (hold : dialect.templateText? old = some template)
    (hnew : dialect.templateText? new = some template) (h : Document.ofSource dialect old = .ok d) :
    ∃ d', Document.ofSource dialect new = .ok d' ∧ d'.root = d.root := by
  cases dialect with
  | html | jsx | tsx => cases hold
  | vue =>
    have hvue : Dialect.vue.isSectioned = true := rfl
    rw [templateText?, if_pos hvue] at hold hnew
    rw [Document.ofSource, Document.readTemplate] at h ⊢
    split at hold
    next sections hsections =>
      split at hnew
      next sections' hsections' =>
        rw [hsections] at h
        rw [hsections']
        have hat : new.at (sections'.templateSpan new) = old.at (sections.templateSpan old) :=
          Option.some.inj (hnew.trans hold.symm)
        exact Document.exists_readWithin hat h
      next => cases hnew
    next => cases hold

namespace Session

/-- The source tree is the tree of the source, and the template is the one of the source. -/
structure ReadsSource (s : Session) : Prop where
  tree : (Document.ofSource s.dialect s.source).map Document.root = .ok s.sourceTree
  template : s.template = s.dialect.templateText? s.source

theorem ReadsSource.exists_document {s : Session} (h : s.ReadsSource) :
    ∃ d, Document.ofSource s.dialect s.source = .ok d ∧ d.root = s.sourceTree := by
  have htree := h.tree
  cases hd : Document.ofSource s.dialect s.source with
  | error e =>
    rw [hd] at htree
    cases htree
  | ok d =>
    rw [hd] at htree
    exact ⟨d, rfl, Except.ok.inj htree⟩

theorem map_root_of_ok {dialect : Dialect} {source : Text} {d : Document}
    (h : Document.ofSource dialect source = .ok d) :
    (Document.ofSource dialect source).map Document.root = .ok d.root := by
  rw [h]
  rfl

/-- What work on a change keeps. -/
theorem ReadsSource.follow {s : Session} (hs : s.ReadsSource) (change : Change) :
    (s.follow change).session.ReadsSource ∧ (s.follow change).session.dialect = s.dialect := by
  have h := s.follow_follows change
  generalize s.follow change = done at h
  cases h with
  | echo | unread | undrawn | equal | unpatched | unwritten | unreadable =>
    exact ⟨⟨hs.tree, hs.template⟩, rfl⟩
  | @sameTemplate text template hnew hold =>
    -- the tree is not read again
    obtain ⟨d, hd, hroot⟩ := hs.exists_document
    obtain ⟨d', hd', hroot'⟩ :=
      Dialect.exists_ofSource (hs.template.symm.trans hold) hnew hd
    refine ⟨⟨?_, hold.trans hnew.symm⟩, rfl⟩
    rw [map_root_of_ok hd', hroot', hroot]
  | drawn canvas h => exact ⟨⟨map_root_of_ok h, rfl⟩, rfl⟩
  | adopted hpending hpatched hwritten h => exact ⟨⟨map_root_of_ok h, rfl⟩, rfl⟩

theorem ReadsSource.cycle {s : Session} (hs : s.ReadsSource) (change : Change) :
    (s.cycle change).1.ReadsSource ∧ (s.cycle change).1.dialect = s.dialect := by
  obtain ⟨⟨htree, htemplate⟩, hdialect⟩ := hs.follow change
  rw [cycle_eq, closed]
  split <;> exact ⟨⟨htree, htemplate⟩, hdialect⟩

/-- What a session starts with. -/
theorem readsSource_of_start? {settings : Settings} {dialect : Dialect} {path : Option Text}
    {source : Text} {canvas : Canvas} {folder : Folder} {s : Session}
    (h : start? settings dialect path source canvas folder = .ok s) :
    s.ReadsSource ∧ s.dialect = dialect := by
  rw [start?] at h
  split at h
  · cases h
  next document hdocument =>
    split at h
    · cases h
    · cases h
      exact ⟨⟨map_root_of_ok hdocument, rfl⟩, rfl⟩

/-- **In a run the source tree is the tree of the source**, also when the source was taken over
without reading it, and the template is the one of the source. -/
theorem readsSource_of_run {settings : Settings} {dialect : Dialect} {path : Option Text}
    {source : Text} {canvas : Canvas} {folder : Folder} {s t : Session}
    (hstart : start? settings dialect path source canvas folder = .ok s) {inputs : List Input}
    {events : List SyncEvent} (hrun : s.run inputs = .ok (t, events)) :
    (Document.ofSource dialect t.source).map Document.root = .ok t.sourceTree ∧
      t.template = dialect.templateText? t.source := by
  have hcycle (log : List Work) (s : Session) (change : Change)
      (h : s.ReadsSource ∧ s.dialect = dialect) :
      (Work.after ⟨s, change⟩).ReadsSource ∧ (Work.after ⟨s, change⟩).dialect = dialect :=
    ⟨(h.1.cycle change).1, (h.1.cycle change).2.trans h.2⟩
  have hrelease (log : List Work) (s : Session) (input : Input)
      (h : s.ReadsSource ∧ s.dialect = dialect) :
      (s.released input).1.ReadsSource ∧ (s.released input).1.dialect = dialect := by
    obtain ⟨⟨htree, htemplate⟩, hdialect⟩ := h
    cases input <;> exact ⟨⟨htree, htemplate⟩, hdialect⟩
  obtain ⟨⟨hreads, rfl⟩, -⟩ := run_induction (P := fun _ s => s.ReadsSource ∧ s.dialect = dialect)
    hrelease hcycle [] (readsSource_of_start? hstart) hrun
  exact ⟨hreads.tree, hreads.template⟩

/-- A component whose style changes, and then its template. -/
theorem readsSource_of_run_component :
    let inputs : List Input :=
      [.source "<style>p</style><template><p>a</p></template>".toList, .flush,
        .source "<template><p>b</p></template>".toList, .flush]
    ∃ s t events,
      start? {} .vue none "<template><p>a</p></template>".toList .empty .empty = .ok s ∧
        s.run inputs = .ok (t, events) ∧
        (Document.ofSource .vue t.source).map Document.root = .ok t.sourceTree ∧
        t.template = Dialect.vue.templateText? t.source := by
  intro inputs
  have hruns : ((start? {} .vue none "<template><p>a</p></template>".toList .empty
      .empty).toOption.bind fun s => (s.run inputs).toOption.map fun r => r.1.inSync) =
        some true := by
    decide +kernel
  obtain ⟨s, hstart, hruns⟩ := Option.bind_eq_some_iff.1 hruns
  obtain ⟨⟨t, events⟩, hrun, -⟩ := Option.map_eq_some_iff.1 hruns
  replace hstart := eq_ok_of_toOption hstart
  replace hrun := eq_ok_of_toOption hrun
  exact ⟨s, t, events, hstart, hrun, readsSource_of_run hstart hrun⟩

end Session

end MarkupSync
