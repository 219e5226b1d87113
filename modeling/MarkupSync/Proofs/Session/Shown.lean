import MarkupSync.Proofs.Canvas.Built
import MarkupSync.Proofs.Canvas.Reach
import MarkupSync.Proofs.Session.Cycle

/-!
# The canvas behind a source change

The edits of a source change are made for the document that the session remembers, and they are
carried out on the canvas as it is by then.

* `Dialect.Fits`, `Canvas.Fits`, `Input.Fits`: sources and canvases with a document that HTML can
  express and that has nothing of the editor's;
* `Work.IsInStep`, `Work.Redraws`: the canvas is as the session remembers it, or it is drawn anew;
* `Session.exists_shows_redraw`: then the canvas shows the new document;
* **`Session.same_sourceTree_of_run`**: so it is in every run;
* `Session.not_same_sourceTree_of_run`: edits that nobody has noticed stay on the canvas.
-/

namespace MarkupSync

/-! ## Sources and canvases -/

/-- The document of a text, if it has one, can be expressed in HTML and has nothing of the editor's. -/
def Dialect.Fits (dialect : Dialect) (d : Decoration) (text : Text) : Prop :=
  ∀ document, Document.ofSource dialect text = .ok document →
    document.root.IsNormalDocument ∧ d.SparesTree document.root

/-- The document on a canvas can be expressed in HTML, and every text of it is one text of the
canvas. -/
structure Canvas.Fits (c : Canvas) (d : Decoration) : Prop where
  isBuilt : c.IsBuilt
  isPlain : c.IsPlain d
  braces : ∀ x, c.Shown d x → d.HasPlainClasses (c.attributes x)
  top : ∀ x ∈ c.significant d container, c.tag? x ≠ some Node.rootTag
  isNormal : (c.adapt d .html).IsNormalDocument

instance (dialect : Dialect) (d : Decoration) (text : Text) : Decidable (dialect.Fits d text) :=
  match h : Document.ofSource dialect text with
  | .error _ => .isTrue fun _ hread => nomatch h.symm.trans hread
  | .ok document =>
    decidable_of_iff (document.root.IsNormalDocument ∧ d.SparesTree document.root) <| by
      constructor
      · rintro hfits _ hread
        cases h.symm.trans hread
        exact hfits
      · exact fun hfits => hfits document h

def Change.Fits (dialect : Dialect) (d : Decoration) : Change → Prop
  | .source text => dialect.Fits d text
  | .canvas => True

def Input.Fits (dialect : Dialect) (d : Decoration) : Input → Prop
  | .source text => dialect.Fits d text
  | .draw c => c.Fits d
  | .canvas | .flush | .sleep _ | .store _ | .close => True

theorem Input.Fits.brings {dialect : Dialect} {d : Decoration} {input : Input}
    (h : input.Fits dialect d) : input.Brings (Change.Fits dialect d) := by
  cases input with
  | source => exact h
  | canvas | flush | sleep | draw | store | close => trivial

/-! ## Work on the canvas -/

namespace Work

/-- The document on the canvas is the one that the session remembers. -/
def IsInStep (w : Work) : Prop := w.session.adapted.Same w.session.canvasTree

/-- The edits of the new document do not fit the canvas, which is drawn anew. -/
def Redraws (w : Work) : Prop :=
  ∃ text document, w.change = .source text ∧
    Document.ofSource w.session.dialect text = .ok document ∧
    (Display.applyAll w.session.settings.decoration (.of w.session.canvas w.session.canvasTree)
      (w.session.canvasTree.diff document.root)).error ≠ none

/-- The session tells that the canvas follows the source. -/
def UpdatesCanvas (w : Work) : Prop := ∃ edits, .canvasUpdated edits ∈ w.events

/-- Work leaves the canvas as it is, or it carries edits to a new document over to it. -/
theorem canvas_cases (w : Work) :
    (w.after.canvas = w.session.canvas ∧ ¬ w.UpdatesCanvas) ∨
      ∃ text document, w.change = .source text ∧
        Document.ofSource w.session.dialect text = .ok document ∧
        w.after.canvas =
          (w.session.redraw document.root (w.session.canvasTree.diff document.root)).state ∧
        (w.UpdatesCanvas → w.after.sourceTree = document.root) := by
  obtain ⟨s, change⟩ := w
  simp only [UpdatesCanvas, events, after, Session.cycle_eq]
  cases change with
  | canvas =>
    have h := s.follow_follows .canvas
    generalize s.follow .canvas = done at h
    left
    cases h with
    | equal | unpatched | unwritten | unreadable =>
      exact ⟨rfl, by simp [Session.closed, Session.abort]⟩
    | adopted =>
      refine ⟨rfl, ?_⟩
      simp only [Session.closed, Session.divergences]
      split <;> simp
  | source text =>
    rw [Session.follow, Session.followSource]
    split
    · exact .inl ⟨rfl, by simp [Session.closed]⟩
    · extract_lets template
      split
      · exact .inl ⟨rfl, by simp [Session.closed]⟩
      · split
        · exact .inl ⟨rfl, by simp [Session.closed, Session.abort]⟩
        next document hread =>
          extract_lets edits drawn s'
          refine .inr ⟨text, document, rfl, hread, ?_⟩
          split
          · exact ⟨rfl, by simp [Session.closed, Session.abort]⟩
          · exact ⟨rfl, fun _ => rfl⟩

end Work

namespace Session

variable {s : Session} {n : Node}

/-- The canvas shows a document that can be expressed in HTML. -/
structure Shows (s : Session) (n : Node) : Prop where
  isNormal : n.IsNormalDocument
  display : Display.Shows s.settings.decoration (.of s.canvas n) n

theorem Shows.same_adapted (h : s.Shows n) (hflavor : s.dialect.flavor = .html) :
    s.adapted.Same n := by
  rw [adapted, hflavor]
  exact h.display.same_adapt h.isNormal

section Built

variable (hs : s.canvas.IsBuilt)
include hs

theorem isBuilt_applyAll (edits : List Edit) :
    (Display.applyAll s.settings.decoration (.of s.canvas s.canvasTree) edits).state.IsBuilt :=
  Display.isBuilt_applyAll (s := .of s.canvas s.canvasTree) hs edits

theorem isBuilt_redraw (tree : Node) (edits : List Edit) :
    (s.redraw tree edits).state.IsBuilt := by
  rw [redraw]
  split
  · exact isBuilt_applyAll hs edits
  · exact (isBuilt_applyAll hs edits).render _ tree

end Built

/-- **The canvas shows the new document** if it was in step, or if it is drawn anew. -/
theorem exists_shows_redraw (hs : s.canvas.IsBuilt) {tree : Node} (htree : tree.IsNormalDocument)
    (hspares : s.settings.decoration.SparesTree tree)
    (h : (∃ n, s.Shows n ∧ n.Same s.canvasTree) ∨
      (Display.applyAll s.settings.decoration (.of s.canvas s.canvasTree)
        (s.canvasTree.diff tree)).error ≠ none) :
    ∃ n, n.Same tree ∧ n.IsNormalDocument ∧ Display.Shows s.settings.decoration
      (.of (s.redraw tree (s.canvasTree.diff tree)).state n) n := by
  rw [redraw]
  rcases h with ⟨n, hn, hsame⟩ | herror
  · have hshows := hn.display.same hsame (hn.isNormal.same hsame)
    rw [show Display.of s.canvas n = .of s.canvas s.canvasTree from
      congrArg (Display.mk s.canvas) hsame.isRoot] at hshows
    obtain ⟨s', k, hrun, hs', hk, -⟩ := Display.exists_applyAll_diff hshows htree hspares
    simp only [hrun]
    refine ⟨k, hk, htree.same hk.symm, ?_⟩
    rwa [show Display.of s'.canvas k = s' from congrArg (Display.mk s'.canvas) hs'.isWrapped.symm]
  · obtain ⟨e, he⟩ := Option.ne_none_iff_exists'.1 herror
    obtain ⟨c, hrender, hc⟩ := Canvas.exists_render_shows (isBuilt_applyAll hs _) htree hspares
    simp only [he]
    rw [hrender]
    exact ⟨tree, .refl tree, htree, hc⟩

/-- A canvas with such a document shows it. -/
theorem exists_shows_of_fits (h : s.canvas.Fits s.settings.decoration) : ∃ n, s.Shows n :=
  ⟨_, h.isNormal, Canvas.shows_of_adapt h.isBuilt h.isPlain h.braces h.top h.isNormal (.refl _)⟩

end Session

/-! ## One cycle -/

namespace Work

variable {w : Work}

/-- The edits of a source change fit the canvas that it finds, or the canvas is drawn anew. -/
def IsFaithful (w : Work) : Prop := w.IsInStep ∨ w.Redraws

section Cycle

variable (hflavor : w.session.dialect.flavor = .html)
  (hbuilt : w.session.canvas.IsBuilt)
  (hfits : w.change.Fits w.session.dialect w.session.settings.decoration)

include hbuilt in
theorem isBuilt_after : w.after.canvas.IsBuilt := by
  obtain ⟨hcanvas, -⟩ | ⟨text, document, -, -, hcanvas, -⟩ := w.canvas_cases
  · rwa [hcanvas]
  · rw [hcanvas]
    exact Session.isBuilt_redraw hbuilt _ _

include hflavor hbuilt hfits

/-- **Work that is faithful to the canvas leaves it showing a document**, which is the one of the
source if the canvas was updated. -/
theorem exists_shows_after (h : (∃ n, w.session.Shows n) ∧ w.IsInStep ∨ w.Redraws) :
    w.after.canvas = w.session.canvas ∧ ¬ w.UpdatesCanvas ∨
      ∃ n, w.after.Shows n ∧ (w.UpdatesCanvas → n.Same w.after.sourceTree) := by
  refine w.canvas_cases.imp_right ?_
  rintro ⟨text, document, hchange, hread, hcanvas, hsource⟩
  rw [hchange] at hfits
  obtain ⟨hnormal, hspares⟩ := hfits document hread
  obtain ⟨n, hn, hnormal', hshows⟩ := Session.exists_shows_redraw hbuilt hnormal hspares <| by
    rcases h with ⟨⟨n, hn⟩, hstep⟩ | ⟨text', document', hchange', hread', herror⟩
    · exact .inl ⟨n, hn, (hn.same_adapted hflavor).symm.trans hstep⟩
    · cases hchange.symm.trans hchange'
      cases hread.symm.trans hread'
      exact .inr herror
  have hsettings : w.after.settings = w.session.settings := (w.session.cycle_fixed w.change).1
  refine ⟨n, ⟨hnormal', ?_⟩, fun hupdates => hsource hupdates ▸ hn⟩
  rw [hsettings, hcanvas]
  exact hshows

end Cycle

end Work

/-! ## Runs -/

namespace Session

/-- Whatever changed the canvas was faithful to it. -/
def IsFaithful (log : List Work) : Prop :=
  ∀ w ∈ log, w.after.canvas ≠ w.session.canvas → w.IsFaithful

/-- The work found the canvas in step with texts as the session knows them, or it has drawn it
anew. -/
def Meets (d : Decoration) (before : List Work) (w : Work) : Prop :=
  w.Redraws ∨ w.IsInStep ∧ (w.session.canvas.Fits d ∨ IsFaithful before)

/-- What a run of a session keeps. -/
structure Displays (settings : Settings) (dialect : Dialect) (log : List Work) (s : Session) :
    Prop where
  settings_eq : s.settings = settings
  dialect_eq : s.dialect = dialect
  waits : s.debouncer.Waits (Change.Fits dialect settings.decoration)
  isBuilt : s.canvas.IsBuilt
  shows : IsFaithful log → ∃ n, s.Shows n
  updates : ∀ before w after, log = before ++ w :: after → Meets settings.decoration before w →
    w.UpdatesCanvas → w.after.adapted.Same w.after.sourceTree

namespace Displays

variable {settings : Settings} {dialect : Dialect} {log : List Work} {s : Session}
  (h : s.Displays settings dialect log)
include h

/-- One input. -/
theorem released {input : Input} (hinput : input.Fits dialect settings.decoration) :
    (s.released input).1.Displays settings dialect log ∧
      ∀ change ∈ (s.released input).2, change.Fits dialect settings.decoration := by
  obtain ⟨hwaits, hchanges⟩ := waits_released h.waits hinput.brings
  refine ⟨?_, hchanges⟩
  cases input with
  | draw c =>
    refine ⟨h.settings_eq, h.dialect_eq, hwaits, hinput.isBuilt, fun _ => ?_, h.updates⟩
    exact exists_shows_of_fits (h.settings_eq ▸ hinput)
  | source | canvas | flush | sleep | store | close =>
    refine ⟨h.settings_eq, h.dialect_eq, hwaits, h.isBuilt, fun hlog => ?_, h.updates⟩
    obtain ⟨n, hn⟩ := h.shows hlog
    exact ⟨n, hn.isNormal, hn.display⟩

/-- **One cycle.** -/
theorem cycle (hflavor : dialect.flavor = .html) {change : Change}
    (hchange : change.Fits dialect settings.decoration) :
    (Work.after ⟨s, change⟩).Displays settings dialect (log ++ [⟨s, change⟩]) := by
  obtain rfl := h.settings_eq
  obtain rfl := h.dialect_eq
  obtain ⟨hsettings, hdialect, hdebouncer⟩ := s.cycle_fixed change
  have hafter := Work.exists_shows_after (w := ⟨s, change⟩) hflavor h.isBuilt hchange
  refine ⟨hsettings, hdialect, ?_, Work.isBuilt_after h.isBuilt, fun hlog => ?_, ?_⟩
  · rw [Work.after, hdebouncer]
    exact h.waits
  · obtain ⟨n, hn⟩ := h.shows fun w hw => hlog w (List.mem_append_left _ hw)
    have hsame (hcanvas : (Work.after ⟨s, change⟩).canvas = s.canvas) :
        ∃ n, (Work.after ⟨s, change⟩).Shows n := by
      refine ⟨n, hn.isNormal, ?_⟩
      rw [hcanvas, show (Work.after ⟨s, change⟩).settings = s.settings from hsettings]
      exact hn.display
    by_cases hcanvas : (Work.after ⟨s, change⟩).canvas = s.canvas
    · exact hsame hcanvas
    · have hfaithful := hlog ⟨s, change⟩ (List.mem_append_right _ (List.mem_singleton_self _)) hcanvas
      obtain ⟨hcanvas', -⟩ | ⟨m, hm, -⟩ := hafter (hfaithful.imp_left fun hstep => ⟨⟨n, hn⟩, hstep⟩)
      · exact hsame hcanvas'
      · exact ⟨m, hm⟩
  · intro before w after hsplit hmeets hupdates
    obtain rfl | ⟨after, last, rfl⟩ := List.eq_nil_or_concat' after
    · obtain ⟨rfl, hw⟩ := List.append_inj' hsplit rfl
      obtain rfl := (List.cons.inj hw).1
      have hready : (∃ n, s.Shows n) ∧ Work.IsInStep ⟨s, change⟩ ∨ Work.Redraws ⟨s, change⟩ := by
        rcases hmeets with hredraws | ⟨hstep, hfits | hlog⟩
        · exact .inr hredraws
        · exact .inl ⟨exists_shows_of_fits hfits, hstep⟩
        · exact .inl ⟨h.shows hlog, hstep⟩
      obtain ⟨-, hnot⟩ | ⟨n, hn, hsource⟩ := hafter hready
      · exact absurd hupdates hnot
      · exact (hn.same_adapted (hdialect ▸ hflavor)).trans (hsource hupdates)
    · rw [← List.cons_append, ← List.append_assoc] at hsplit
      exact h.updates before w after (List.append_inj' hsplit rfl).1 hmeets hupdates

end Displays

section Start

variable {settings : Settings} {dialect : Dialect} {path : Option Text} {source : Text}
  {canvas : Canvas} {folder : Folder} {s t : Session}

/-- What a session starts with. -/
theorem displays_of_start? (hcanvas : canvas.IsBuilt)
    (hsource : dialect.Fits settings.decoration source)
    (hstart : start? settings dialect path source canvas folder = .ok s) :
    s.Displays settings dialect [] := by
  rw [start?] at hstart
  split at hstart
  · cases hstart
  next document hread =>
    obtain ⟨hnormal, hspares⟩ := hsource document hread
    obtain ⟨c, hrender, hshows⟩ := Canvas.exists_render_shows hcanvas hnormal hspares
    have hbuilt := hcanvas.render settings.decoration document.root
    rw [hrender] at hstart hbuilt
    cases hstart
    exact ⟨rfl, rfl, .idle _, hbuilt, fun _ => ⟨document.root, hnormal, hshows⟩,
      fun before w after h => by simp at h⟩

/-- **After a cycle that has updated the canvas, the canvas shows the new source**, in every run of a
session whose documents can be expressed in HTML and have nothing of the editor's: if the cycle has
found the canvas in step with what the session remembers and every text of it in one piece, or if
the edits did not fit and the canvas was drawn anew. The texts are in one piece as long as whatever
changed the canvas was faithful to it. -/
theorem same_sourceTree_of_run (hflavor : dialect.flavor = .html)
    (hcanvas : canvas.IsBuilt) (hsource : dialect.Fits settings.decoration source)
    (hstart : start? settings dialect path source canvas folder = .ok s) {inputs : List Input}
    (hinputs : ∀ input ∈ inputs, input.Fits dialect settings.decoration)
    {events : List SyncEvent} (hrun : s.run inputs = .ok (t, events)) :
    events = (s.log inputs).flatMap Work.events ∧
      ∀ before w after, s.log inputs = before ++ w :: after →
        Meets settings.decoration before w → w.UpdatesCanvas →
          w.after.adapted.Same w.after.sourceTree := by
  obtain ⟨hlast, hevents⟩ := run_induction_of
    (P := fun log s => s.Displays settings dialect log)
    (fun _ _ _ hinput h => h.released hinput)
    (fun _ _ _ hchange h => h.cycle hflavor hchange)
    [] (displays_of_start? hcanvas hsource hstart) hinputs hrun
  exact ⟨hevents, hlast.updates⟩

end Start

/-! ## Some cycles -/

/-- The canvas was updated. Either it was in step or not, and either it shows the new source or
not. -/
def isUpdated (steps shows : Bool) (w : Work) : Bool :=
  (w.events.any fun
    | .canvasUpdated _ => true
    | _ => false) &&
    w.session.adapted.same w.session.canvasTree == steps &&
    w.after.adapted.same w.after.sourceTree == shows

theorem of_isUpdated {steps shows : Bool} {w : Work} (h : isUpdated steps shows w = true) :
    w.UpdatesCanvas ∧ (w.IsInStep ↔ steps = true) ∧
      (w.after.adapted.Same w.after.sourceTree ↔ shows = true) := by
  simp only [isUpdated, Bool.and_eq_true, beq_iff_eq] at h
  obtain ⟨⟨hany, hsteps⟩, hshows⟩ := h
  obtain ⟨event, hevent, hupdated⟩ := List.any_eq_true.1 hany
  refine ⟨?_, by rw [← hsteps]; exact (Node.same_iff ..).symm, by rw [← hshows, Node.same_iff]⟩
  cases event with
  | canvasUpdated edits => exact ⟨edits, hevent⟩
  | _ => cases hupdated

/-- In a run of a session the canvas is updated. Either it was in step or not, and either it shows
the new source or not. -/
def HasUpdate (steps shows : Bool) (source : String) (inputs : List Input) : Prop :=
  ∃ s t events, start? {} .html none source.toList .empty .empty = .ok s ∧
    s.run inputs = .ok (t, events) ∧
    ∃ w ∈ s.log inputs, w.UpdatesCanvas ∧ (w.IsInStep ↔ steps = true) ∧
      (w.after.adapted.Same w.after.sourceTree ↔ shows = true)

theorem hasUpdate_of_any {steps shows : Bool} {source : String} {inputs : List Input}
    (h : ((start? {} .html none source.toList .empty .empty).toOption.bind fun s =>
      (s.run inputs).toOption.map fun _ => (s.log inputs).any (isUpdated steps shows)) =
        some true) : HasUpdate steps shows source inputs := by
  obtain ⟨s, hstart, hruns⟩ := Option.bind_eq_some_iff.1 h
  obtain ⟨⟨t, events⟩, hrun, hany⟩ := Option.map_eq_some_iff.1 hruns
  obtain ⟨w, hw, hupdated⟩ := List.any_eq_true.1 hany
  exact ⟨s, t, events, eq_ok_of_toOption hstart, eq_ok_of_toOption hrun, w, hw,
    of_isUpdated hupdated⟩

/-- A paragraph gets a class and an element. -/
theorem same_sourceTree_of_run_paragraph :
    let inputs : List Input := [.source "<p class=\"x\">b <b>c</b></p>".toList, .flush]
    ∃ s t events, start? {} .html none "<p>a</p>".toList .empty .empty = .ok s ∧
      s.run inputs = .ok (t, events) ∧
      ∃ w ∈ s.log inputs, w.UpdatesCanvas ∧ w.after.adapted.Same w.after.sourceTree := by
  intro inputs
  have hruns : ((start? {} .html none "<p>a</p>".toList .empty .empty).toOption.bind fun s =>
      (s.run inputs).toOption.map fun _ => (s.log inputs).map (isUpdated true true)) =
        some [true] := by
    decide +kernel
  obtain ⟨s, hstart, hruns⟩ := Option.bind_eq_some_iff.1 hruns
  obtain ⟨⟨t, events⟩, hrun, hlog⟩ := Option.map_eq_some_iff.1 hruns
  replace hstart := eq_ok_of_toOption hstart
  replace hrun := eq_ok_of_toOption hrun
  obtain ⟨w, hw⟩ := List.length_eq_one_iff.1 ((List.length_map ..).symm.trans (congrArg _ hlog))
  obtain ⟨hupdates, hstep, -⟩ := of_isUpdated (List.head_eq_of_cons_eq ((hw ▸ hlog :)))
  have hfits : Dialect.html.Fits Decoration.standard "<p>a</p>".toList ∧
      Dialect.html.Fits Decoration.standard "<p class=\"x\">b <b>c</b></p>".toList := by
    decide +kernel
  have hinputs : ∀ input ∈ inputs, input.Fits .html Decoration.standard := by
    simpa [inputs, Input.Fits] using hfits.2
  refine ⟨s, t, events, hstart, hrun, w, hw ▸ List.mem_singleton_self w, hupdates, ?_⟩
  exact (same_sourceTree_of_run rfl .empty hfits.1 hstart hinputs hrun).2 [] w [] hw
    (.inr ⟨hstep.2 rfl, .inr (List.forall_mem_nil _)⟩) hupdates

/-- A canvas with a paragraph. -/
def paragraph (cs : List Node) : Canvas := .ofNode (.element "p".toList .empty .empty cs)

theorem fits_paragraph : (paragraph [.text "b".toList]).Fits .standard where
  isBuilt := .mount .empty _
  isPlain := Canvas.isPlain_of_closed [0, 1, 2] (by decide) (by decide) (by decide) (by decide)
  braces _ _ w _ hw := by
    have hall : ∀ w ∈ Decoration.standard.classes, Decoration.IsBraceless w := by decide
    exact hall w hw
  top := by decide
  isNormal := by decide

/-- A text that was typed into the canvas, and of which there is no word yet, stays there when the
source gets a class. Two texts that such a cycle has left side by side stay apart behind the next
ones, and so do texts that were drawn in two pieces. A class list without classes is lost, and a text
of no-break spaces is passed over. -/
theorem not_same_sourceTree_of_run :
    let typed : List Input := [.draw (paragraph [.text "b".toList]),
      .source "<p class=\"x\">a</p>".toList, .flush]
    let element : Node := .element "b".toList .empty .empty []
    (Dialect.html.Fits .standard "<p>a</p>".toList ∧
      (∀ input ∈ typed, input.Fits .html .standard) ∧ HasUpdate false false "<p>a</p>" typed) ∧
    HasUpdate true false "<p><i></i><b></b></p>" [.draw (paragraph [.text "a".toList, element]),
      .source "<p><i></i>c<b></b></p>".toList, .flush, .canvas, .flush,
      .source "<p>d<b></b></p>".toList, .flush] ∧
    HasUpdate true false "<p>ab</p>" [.draw (paragraph [.text "a".toList, .text "b".toList]),
      .canvas, .flush, .source "<p>c</p>".toList, .flush] ∧
    HasUpdate true false "<p class=\"a\">x</p>" [.source "<p class=\"\">x</p>".toList, .flush] ∧
    HasUpdate true false "<p>\u00a0<b>x</b><i>z</i></p>"
      [.source "<p>\u00a0<b>y</b><i>z</i></p>".toList, .flush] := by
  intro typed element
  have hfits : Dialect.html.Fits Decoration.standard "<p>a</p>".toList ∧
      Dialect.html.Fits Decoration.standard "<p class=\"x\">a</p>".toList := by
    decide +kernel
  have hinputs : ∀ input ∈ typed, input.Fits .html Decoration.standard := by
    simpa [typed, Input.Fits] using ⟨fits_paragraph, hfits.2⟩
  refine ⟨⟨hfits.1, hinputs, ?_⟩, ?_, ?_, ?_, ?_⟩
  all_goals exact hasUpdate_of_any (by decide +kernel)

end Session

end MarkupSync
