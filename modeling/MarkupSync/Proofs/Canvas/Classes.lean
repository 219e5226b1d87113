import MarkupSync.Proofs.Canvas.Sources
import MarkupSync.Proofs.Canvas.Step

/-!
# Classes of an element on the canvas

The class list of an element on the canvas holds the classes of the document and, behind them, those
of the editor. A change of its attributes puts other classes of the document in front.

* `Delta.AsksFor`: the class list that a change of attributes asks for;
* `Decoration.Reclasses`: attributes with other classes of the document and the same of the editor;
* `Decoration.reclasses_withClasses`: one class list;
* `Decoration.reclasses_updated`: all that a change of attributes does;
* `Canvas.Reclassed`: an element of the canvas with other classes in the document;
* **`Display.exists_reclassed`**: after a change of attributes the document has the classes that it
  asks for, and the classes of the editor are still there.
-/

namespace MarkupSync

open Text

/-- The class list of an element with these attributes. -/
def Attrs.classList (live : Attrs) : Text := (live.find? className).getD []

/-- The class list that a change of attributes asks for; the empty one if it drops the attribute. -/
inductive Delta.AsksFor (a : Delta) : Text → Prop
  | assigned {v : Text} (h : a.assignments.filter (fun e => e.1 = className) = [(className, v)]) :
      a.AsksFor v
  | dropped (h : className ∈ a.removed) (h' : ∀ e ∈ a.assignments, e.1 ≠ className) : a.AsksFor []

namespace Decoration

variable {d : Decoration} {live live' : Attrs} {v : Text}

/-- The class list `v` is a list of classes or an expression with nothing of the editor's, and no
class of the editor in the class list `current` can be taken for the end of an expression that begins
with `v`. -/
structure IsWritable (d : Decoration) (v current : Text) : Prop where
  collapse_eq : collapse v = v
  not_mem : ∀ w ∈ words v, w ∉ d.classes
  getLast? : v = [] ∨ v.head? = some '\x7b' →
    ∀ w ∈ d.editorClasses current, w.getLast? ≠ some '\x7d'

/-- In place of `live`, the attributes `live'` show the class list `v` in a document, or none if it
is empty, and have the same classes of the editor. -/
structure Reclasses (d : Decoration) (live live' : Attrs) (v : Text) : Prop where
  shown : (live'.find? className).bind d.cleanClass? = if v = [] then none else some v
  words : ∀ w, w ∈ words live'.classList ↔ w ∈ words v ∨ w ∈ d.editorClasses live.classList

/-! ## One class list -/

theorem mem_editorClasses {w current : Text} :
    w ∈ d.editorClasses current ↔ w ∈ words current ∧ w ∈ d.classes := by
  simp [editorClasses, hidesClass]

theorem mem_withEditorClasses {classes : List Text} {current w : Text} :
    w ∈ d.withEditorClasses classes current ↔ w ∈ classes ∨ w ∈ d.editorClasses current := by
  rw [withEditorClasses]
  induction d.editorClasses current generalizing classes with
  | nil => simp
  | cons n ns ih =>
    rw [List.foldl_cons, ih]
    split_ifs with hn
    · have hn : n ∈ classes := by simpa using hn
      rw [List.mem_cons, ← or_assoc, or_iff_left_of_imp fun h : w = n => h ▸ hn]
    · rw [List.mem_append, List.mem_singleton, List.mem_cons, or_assoc]

theorem find?_withClasses (live : Attrs) (classes : List Text) :
    (d.withClasses live classes).find? className =
      if d.withEditorClasses classes live.classList = [] then none
      else some ([' '].intercalate (d.withEditorClasses classes live.classList)) := by
  rw [withClasses, ← Attrs.classList]
  by_cases h : d.withEditorClasses classes live.classList = []
  · simp [h]
  · simp [h, List.isEmpty_iff]

theorem words_classList_withClasses {classes : List Text} (hclasses : ∀ w ∈ classes, IsClass w) :
    words (d.withClasses live classes).classList = d.withEditorClasses classes live.classList := by
  rw [Attrs.classList, find?_withClasses]
  split_ifs with h
  · rw [h]
    rfl
  · refine words_intercalate fun w hw => ?_
    rcases mem_withEditorClasses.1 hw with hw | hw
    · exact hclasses w hw
    · exact of_mem_words (mem_editorClasses.1 hw).1

/-- What is put behind a class list with white space in between leaves its first character. -/
theorem head?_intercalate_append {classes es : List Text} (hne : [' '].intercalate classes ≠ []) :
    ([' '].intercalate (classes ++ es)).head? = ([' '].intercalate classes).head? := by
  cases classes with
  | nil => exact absurd rfl hne
  | cons w ws =>
    cases hw : w with
    | nil =>
      subst hw
      cases ws with
      | nil => exact absurd rfl hne
      | cons w ws => simp [List.intercalate_cons_cons]
    | cons c w =>
      cases ws <;> cases es <;> simp [List.intercalate_cons_cons]

theorem isExpression_eq_false_of_head? {s : Text} (h : s.head? ≠ some '\x7b') :
    isExpression s = false := by
  rw [isExpression.eq_def]
  split
  · exact absurd rfl h
  · rfl

/-- **Another class list of the document for an element.** -/
theorem reclasses_withClasses (hv : d.IsWritable v live.classList) :
    d.Reclasses live (d.withClasses live (words v)) v := by
  have hclass : ∀ w ∈ words v, IsClass w := fun w hw => of_mem_words hw
  have hvalue : [' '].intercalate (words v) = v := hv.collapse_eq
  have hnil : words v = [] ↔ v = [] := by
    refine ⟨fun h => ?_, fun h => by rw [h]; rfl⟩
    rw [← hvalue, h]
    rfl
  refine ⟨?_, fun w => by rw [words_classList_withClasses hclass, mem_withEditorClasses]⟩
  obtain ⟨es, hall, hes⟩ := d.exists_withEditorClasses (words v) live.classList
  rw [find?_withClasses, hall]
  by_cases hne : words v ++ es = []
  · rw [if_pos hne, if_pos (hnil.1 (List.append_eq_nil_iff.1 hne).1)]
    rfl
  have hwords : ∀ w ∈ words v ++ es, IsClass w := fun w hw =>
    (List.mem_append.1 hw).elim (hclass w) fun hw => of_mem_words (hes w hw).1
  have hplain (hes' : es ≠ []) : isExpression ([' '].intercalate (words v ++ es)) = false := by
    by_cases hbrace : v = [] ∨ v.head? = some '\x7b'
    · exact isExpression_intercalate hes' (fun w hw => (of_mem_words (hes w hw).1).1)
        fun w hw => hv.getLast? hbrace w (mem_editorClasses.2 (hes w hw))
    · -- the list begins as `v` does, and that is not how expressions begin
      rw [not_or, ← hvalue] at hbrace
      refine isExpression_eq_false_of_head? ?_
      rw [head?_intercalate_append hbrace.1]
      exact hbrace.2
  rw [if_neg hne, Option.bind_some,
    cleanClass?_append hwords hplain hv.not_mem (fun w hw => (hes w hw).2) hne, hvalue]
  simp only [hnil]

/-! ## All attributes -/

namespace Reclasses

variable {live'' : Attrs}

/-- The classes of the editor stay. -/
theorem editor (h : d.Reclasses live live' v) (hv : ∀ w ∈ Text.words v, w ∉ d.classes) (w : Text) :
    w ∈ d.editorClasses live'.classList ↔ w ∈ d.editorClasses live.classList := by
  rw [mem_editorClasses, h.words, mem_editorClasses]
  constructor
  · rintro ⟨hw | hw, hd⟩
    · exact absurd hd (hv w hw)
    · exact hw
  · exact fun hw => ⟨.inr hw, hw.2⟩

theorem congr (h : d.Reclasses live live' v)
    (hclass : live''.find? className = live'.find? className) : d.Reclasses live live'' v := by
  have hlist : live''.classList = live'.classList := by
    rw [Attrs.classList, hclass, Attrs.classList]
  exact ⟨by rw [hclass, h.shown], fun w => by rw [hlist, h.words]⟩

theorem of_editor (h : d.Reclasses live' live'' v) (hed : ∀ w,
    w ∈ d.editorClasses live'.classList ↔ w ∈ d.editorClasses live.classList) :
    d.Reclasses live live'' v :=
  ⟨h.shown, fun w => by rw [h.words, hed]⟩

end Reclasses

theorem IsWritable.congr {current current' : Text} (h : d.IsWritable v current)
    (hed : ∀ w, w ∈ d.editorClasses current' ↔ w ∈ d.editorClasses current) :
    d.IsWritable v current' :=
  ⟨h.collapse_eq, h.not_mem, fun hv w hw => h.getLast? hv w ((hed w).1 hw)⟩

theorem find?_dropped {n : Text} (hn : n ≠ className) :
    (d.dropped live n).find? className = live.find? className := by
  rw [dropped, if_neg hn, Attrs.find?_erase, if_neg hn.symm]

theorem find?_assigned {e : Entry} (he : e.1 ≠ className) :
    (d.assigned live e).find? className = live.find? className := by
  rw [assigned, if_neg he, Attrs.find?_insert, if_neg he.symm]

theorem find?_assignAll {es : List Entry} (hes : ∀ e ∈ es, e.1 ≠ className) :
    (es.foldl d.assigned live).find? className = live.find? className := by
  induction es generalizing live with
  | nil => rfl
  | cons e es ih =>
    rw [List.foldl_cons, ih fun f hf => hes f (List.mem_cons_of_mem _ hf),
      find?_assigned (hes e List.mem_cons_self)]

theorem find?_restyled {n : Text} (hn : n ≠ styleName) (delta : Delta) :
    (restyled live delta).find? n = live.find? n := by
  simp only [restyled]
  split_ifs
  · rfl
  · rw [Attrs.find?_erase, if_neg hn]
  · rw [Attrs.find?_insert, if_neg hn]

theorem find?_dropAll {ns : List Text} (hns : className ∉ ns) :
    (ns.foldl d.dropped live).find? className = live.find? className := by
  induction ns generalizing live with
  | nil => rfl
  | cons n ns ih =>
    obtain ⟨hn, hns⟩ := not_or.1 (List.mem_cons.not.1 hns)
    rw [List.foldl_cons, ih hns, find?_dropped fun h => hn h.symm]

/-- Attributes that are dropped take no classes of the editor with them. -/
theorem mem_editorClasses_dropAll (ns : List Text) (w : Text) :
    w ∈ d.editorClasses (ns.foldl d.dropped live).classList ↔
      w ∈ d.editorClasses live.classList := by
  induction ns generalizing live with
  | nil => rfl
  | cons n ns ih =>
    rw [List.foldl_cons, ih]
    by_cases hn : n = className
    · rw [dropped, if_pos hn, mem_editorClasses,
        words_classList_withClasses (List.forall_mem_nil _), mem_withEditorClasses]
      simp [mem_editorClasses]
    · rw [Attrs.classList, find?_dropped hn, Attrs.classList]

theorem reclasses_dropAll {ns : List Text} (hns : className ∈ ns)
    (hv : d.IsWritable [] live.classList) : d.Reclasses live (ns.foldl d.dropped live) [] := by
  induction ns generalizing live with
  | nil => cases hns
  | cons n ns ih =>
    have hed := @mem_editorClasses_dropAll d live [n]
    by_cases hrest : className ∈ ns
    · exact (ih hrest (hv.congr hed)).of_editor hed
    · -- the last time that the class list is dropped
      obtain rfl : className = n := (List.mem_cons.1 hns).resolve_right hrest
      have h : d.Reclasses live (d.dropped live className) [] := by
        rw [dropped, if_pos rfl]
        exact reclasses_withClasses hv
      exact h.congr (find?_dropAll hrest)

/-- **What a change of attributes does to the classes of an element.** -/
theorem reclasses_updated {attributes : Delta} (style : Delta) (ha : attributes.AsksFor v)
    (hv : d.IsWritable v live.classList) :
    d.Reclasses live (d.updated live attributes style) v := by
  have hed := @mem_editorClasses_dropAll d live attributes.removed
  rw [updated]
  cases ha with
  | dropped hdrop hrest =>
    refine (reclasses_dropAll hdrop hv).congr ?_
    rw [find?_restyled className_ne_styleName, find?_assignAll hrest]
  | assigned h =>
    obtain ⟨front, back, hall, hfront, -, hback⟩ := List.filter_eq_cons_iff.1 h
    have hfront : ∀ e ∈ front, e.1 ≠ className := by simpa using hfront
    have hback : ∀ e ∈ back, e.1 ≠ className := by simpa using hback
    rw [hall, List.foldl_append, List.foldl_cons]
    have hlist : (front.foldl d.assigned (attributes.removed.foldl d.dropped live)).classList =
        (attributes.removed.foldl d.dropped live).classList := by
      rw [Attrs.classList, find?_assignAll hfront, Attrs.classList]
    have hed' (w : Text) : w ∈ d.editorClasses
        (front.foldl d.assigned (attributes.removed.foldl d.dropped live)).classList ↔
          w ∈ d.editorClasses live.classList := by rw [hlist, hed]
    refine ((reclasses_withClasses (hv.congr hed')).of_editor hed').congr ?_
    rw [find?_restyled className_ne_styleName, find?_assignAll hback, assigned, if_pos rfl]

/-! ## Decoration -/

theorem marks_eq_false_iff_find? : d.marks live = false ↔
    live.find? d.marker = none ∧ ∀ w ∈ words live.classList, w ∉ d.elementClasses := by
  rw [marks_eq_false_iff, Attrs.find?_eq_none_iff]
  constructor
  · refine fun h => ⟨fun hm => ?_, fun w hw => ?_⟩
    · obtain ⟨e, he, hm⟩ := List.mem_map.1 hm
      exact (h e he).1 hm
    · cases hclass : live.find? className with
      | none =>
        rw [Attrs.classList, hclass] at hw
        cases hw
      | some v =>
        rw [Attrs.classList, hclass] at hw
        exact (h _ (Attrs.mem_of_find? hclass)).2 rfl w hw
  · refine fun h e he => ⟨fun hm => h.1 (List.mem_map.2 ⟨e, he, hm⟩), fun hclass w hw => h.2 w ?_⟩
    rw [Attrs.classList, ← hclass, Attrs.find?_of_mem he]
    exact hw

theorem find?_dropped_eq_none {m : Text} (h : live.find? m = none) (n : Text) :
    (d.dropped live n).find? m = none := by
  rw [dropped]
  by_cases hn : n = className
  · rw [if_pos hn]
    by_cases hm : m = className
    · rw [hm, find?_withClasses, Attrs.classList, ← hm, h]
      rfl
    · rw [withClasses]
      simp only [apply_ite (Attrs.find? · m), Attrs.find?_erase, Attrs.find?_insert, if_neg hm, h,
        ite_self]
  · rw [if_neg hn, Attrs.find?_erase, h, ite_self]

theorem find?_assigned_eq_none {m : Text} (h : live.find? m = none) {e : Entry} (he : m ≠ e.1) :
    (d.assigned live e).find? m = none := by
  rw [assigned]
  by_cases hn : e.1 = className
  · have hm : m ≠ className := fun hm => he (hm.trans hn.symm)
    rw [if_pos hn, withClasses]
    simp only [apply_ite (Attrs.find? · m), Attrs.find?_erase, Attrs.find?_insert, if_neg hm, h,
      ite_self]
  · rw [if_neg hn, Attrs.find?_insert, if_neg he, h]

/-- A change of attributes that does not make decoration of an element: it does not set the marker,
and the class list `v` that it asks for has no class of decoration. -/
structure Unmarked (d : Decoration) (attributes style : Delta) (v : Text) : Prop where
  classes : ∀ w ∈ words v, w ∉ d.elementClasses
  attributes : d.marker ∉ names attributes.assignments
  style : style.isEmpty = true ∨ d.marker ≠ styleName

theorem marks_updated {attributes style : Delta} (hmarks : d.marks live = false)
    (h : d.Reclasses live (d.updated live attributes style) v)
    (hu : d.Unmarked attributes style v) : d.marks (d.updated live attributes style) = false := by
  obtain ⟨hmarker, hclasses⟩ := marks_eq_false_iff_find?.1 hmarks
  refine marks_eq_false_iff_find?.2 ⟨?_, fun w hw => ?_⟩
  · have hdropped : ((attributes.removed.foldl d.dropped live).find? d.marker) = none :=
      List.foldlRecOn (motive := fun live : Attrs => live.find? d.marker = none) _ _ hmarker
        fun live h n _ => find?_dropped_eq_none h n
    have hassigned : ((attributes.assignments.foldl d.assigned
        (attributes.removed.foldl d.dropped live)).find? d.marker) = none :=
      List.foldlRecOn (motive := fun live : Attrs => live.find? d.marker = none) _ _ hdropped
        fun live h e he => find?_assigned_eq_none h
          fun hm => hu.attributes (List.mem_map.2 ⟨e, he, hm.symm⟩)
    rcases hu.style with hstyle | hstyle
    · simp only [updated, restyled, hstyle, Bool.true_or, if_true]
      exact hassigned
    · rw [updated, find?_restyled hstyle, hassigned]
  · rcases (h.words w).1 hw with hw | hw
    · exact hu.classes w hw
    · exact hclasses w (mem_editorClasses.1 hw).1

end Decoration

/-! ## The element -/

/-- The canvas `c'` is `c` with other attributes for the element `x`. A document has the class list
`v` for it, or none if it is empty, and the classes of the editor are those that it had. -/
structure Canvas.Reclassed (c c' : Canvas) (d : Decoration) (x : NodeId) (v : Text) : Prop where
  setData : ∃ tag live live', c.data? x = some (.element tag live) ∧
    c' = c.setData x (.element tag live')
  shown : ∀ flavor fuel, ∃ tag as st cs,
    d.adaptNode flavor (c'.viewFrom (fuel + 1) x) = .element tag as st cs ∧
      as.find? className = if v = [] then none else some v
  editor : ∀ w, w ∈ d.editorClasses (c'.attributes x).classList ↔
    w ∈ d.editorClasses (c.attributes x).classList

namespace Display

open Canvas Decoration

variable {s : Display} {d : Decoration} {path : NodePath} {x : NodeId} {attributes style : Delta}
  {tag v : Text} {live : Attrs}

/-- **After a change of attributes the document has the classes that it asks for**, and the element
has the classes of the editor that it had. It is no decoration unless the change makes one of it. -/
theorem exists_reclassed (hx : s.resolve d path = .ok x)
    (hdata : s.canvas.data? x = some (.element tag live))
    (hshown : d.hidesAttribute className = false) (ha : attributes.AsksFor v)
    (hv : d.IsWritable v live.classList) :
    ∃ s', s.apply d (.updateAttributes path attributes style) = ⟨s', none⟩ ∧
      s.canvas.Reclassed s'.canvas d x v ∧
      (d.Unmarked attributes style v → s.canvas.isDecoration d x = false →
        s'.canvas.isDecoration d x = false) := by
  have hnew := data?_withElement hdata (d.updated live attributes style)
  have h := reclasses_updated style ha hv
  refine ⟨s.withElement x tag (d.updated live attributes style), ?_, ⟨⟨tag, live, _, hdata, rfl⟩,
    fun flavor fuel => ?_, fun w => ?_⟩, fun hu hd => ?_⟩
  · rw [apply, hx]
    simp only [isElement_of_data? hdata, if_true, updateAttributes_eq hdata]
  · rw [viewFrom_element hnew, adaptNode]
    refine ⟨_, _, _, _, rfl, ?_⟩
    rw [find?_head, ← h.shown]
    congr 1
    funext w
    rw [shownValue?, hshown]
    rfl
  · rw [attributes_of_data? hnew, attributes_of_data? hdata]
    exact h.editor hv.not_mem w
  · rw [isDecoration_of_data? hdata] at hd
    rw [isDecoration_of_data? hnew]
    exact marks_updated hd h hu

/-- A paragraph with a class list. -/
def paragraph (classes : Text) : Node :=
  .element "p".toList (.ofList [(className, classes)]) .empty []

/-- The paragraph on a canvas. -/
def ofParagraph (classes : Text) : Display := .of (.ofNode (paragraph classes)) (paragraph classes)

/-- A change of the class list. -/
def reclass (v : Text) : Edit := .updateAttributes [] ⟨.empty, .ofList [(className, v)], []⟩ .empty

theorem exists_reclassed_paragraph :
    let s := ofParagraph "a selected".toList
    let v := "\x7bcn('b')\x7d".toList
    ∃ s', s.apply .standard (reclass v) = ⟨s', none⟩ ∧
      s.canvas.Reclassed s'.canvas .standard 1 v ∧ s'.canvas.isDecoration .standard 1 = false := by
  intro s v
  have hv : Decoration.standard.IsWritable v
      (Attrs.ofList [(className, "a selected".toList)]).classList :=
    ⟨by decide, by decide, by decide⟩
  have hasks : Delta.AsksFor ⟨.empty, .ofList [(className, v)], []⟩ v := .assigned rfl
  have hx : s.resolve .standard [] = .ok 1 := rfl
  obtain ⟨s', happly, hreclassed, hkept⟩ := exists_reclassed (s := s) hx rfl rfl hasks hv
  exact ⟨s', happly, hreclassed, hkept ⟨by decide, by decide, .inl rfl⟩ rfl⟩

/-- Whether JSX markup is read as the paragraph with a class list. -/
def isParagraph (source : String) (v : Text) : Bool :=
  match Document.readRootAt .jsx 0 source.toList with
  | .ok (document, _) => document.root.same (paragraph v)
  | .error _ => false

/-- The document on the canvas of a paragraph that has been given a class list. -/
def readBack (d : Decoration) (current : String) (v : Text) : Node :=
  ((ofParagraph current.toList).apply d (reclass v)).state.canvas.adapt d .jsx

/-- An empty class list is dropped, and in an expression all white space becomes single spaces. A
class of the editor can be taken for the end of an expression, and a class list is not read back if
documents do not show theirs. -/
theorem not_reclassed_paragraph :
    let spaced := "\x7bcn('a',  b)\x7d"
    (isParagraph "<p className=\"\" />" [] = true ∧
      (readBack .standard "a selected" []).same (.element "p".toList .empty .empty []) = true) ∧
    (isParagraph s!"<p className={spaced} />" spaced.toList = true ∧
      (readBack .standard "a selected" spaced.toList).same
        (paragraph "\x7bcn('a', b)\x7d".toList) = true) ∧
    (isParagraph "<p className=\"&#123;a\" />" "\x7ba".toList = true ∧
      (readBack ⟨["b\x7d".toList], [], [], []⟩ "b\x7d" "\x7ba".toList).same
        (paragraph "\x7ba b\x7d".toList) = true) ∧
    (isParagraph "<p className=\"b\" />" "b".toList = true ∧
      (readBack ⟨[], [], [className], []⟩ "a" "b".toList).same
        (.element "p".toList .empty .empty []) = true) := by
  decide +kernel

end Display

end MarkupSync
