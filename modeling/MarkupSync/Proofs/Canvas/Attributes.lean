import MarkupSync.Canvas.Adapt
import MarkupSync.Proofs.Diff.Delta
import MarkupSync.Proofs.Document.Normal

/-!
# Attributes on the canvas

An element of the canvas has more attributes and classes than the document element that it shows.

* `Decoration.find?_head`, `Decoration.style_head`: what the document has of the attributes;
* `Decoration.Spares`, `Decoration.IsFree`: attributes and declarations with nothing of the editor's
  among them;
* `Decoration.Reads`: attributes of the canvas that stand for attributes of the document;
* **`Decoration.Reads.update`**: the change of the attributes on the canvas is the change of those
  of the document.
-/

namespace MarkupSync.Decoration

open Text

variable {d : Decoration} {live as bs st rt : Attrs} {n v : Text}

/-! ## What a document has of the attributes -/

/-- The value in the document of an attribute on the canvas. -/
def shownValue? (d : Decoration) (n v : Text) : Option Text :=
  if d.hidesAttribute n then none
  else if n = className then d.cleanClass? v
  else if n = styleName ∧ !isExpression v then none
  else some v

/-- The declarations in the document of a `style` attribute on the canvas, with `st` for want of
one. -/
def shownStyle (d : Decoration) (st : Attrs) : Option Text → Attrs
  | none => st
  | some v => if d.hidesAttribute styleName || isExpression v then st else Style.readDeclarations v

theorem className_ne_styleName : className ≠ styleName := by decide

theorem find?_addAttribute {h : Head} {e : Entry} (he : h.attributes.find? e.1 = none) (n : Text) :
    (d.addAttribute h e).attributes.find? n =
      if n = e.1 then d.shownValue? e.1 e.2 else h.attributes.find? n := by
  have hhas : h.attributes.has e.1 = false := by rw [Attrs.has, he]; rfl
  rw [addAttribute, shownValue?, hhas, Bool.or_false]
  by_cases hn : n = e.1
  · rw [if_pos hn, hn]
    split_ifs
    · exact he
    · cases d.cleanClass? e.2 <;> simp [he]
    · exact he
    · simp
  · rw [if_neg hn]
    split_ifs
    · rfl
    · cases d.cleanClass? e.2 <;> simp [hn]
    · rfl
    · simp [hn]

theorem style_addAttribute {h : Head} {e : Entry} (he : h.attributes.find? e.1 = none) :
    (d.addAttribute h e).style =
      if e.1 = styleName then d.shownStyle h.style (some e.2) else h.style := by
  have hhas : h.attributes.has e.1 = false := by rw [Attrs.has, he]; rfl
  rw [addAttribute, shownStyle, hhas, Bool.or_false]
  by_cases hs : e.1 = styleName
  · have hc : styleName ≠ className := className_ne_styleName.symm
    rw [hs]
    by_cases hh : d.hidesAttribute styleName = true <;> by_cases hx : isExpression e.2 = true <;>
      simp [hc, hh, hx]
  · simp only [hs, if_false, false_and]
    split_ifs
    · rfl
    · cases d.cleanClass? e.2 <;> rfl
    · rfl

/-- The attributes and declarations that a list of entries with different names adds. -/
theorem foldl_addAttribute {es : List Entry} (hd : (names es).Nodup) {h : Head}
    (he : ∀ e ∈ es, h.attributes.find? e.1 = none) :
    (∀ n, (es.foldl d.addAttribute h).attributes.find? n =
      match es.lookup n with
      | some v => d.shownValue? n v
      | none => h.attributes.find? n) ∧
    (es.foldl d.addAttribute h).style = d.shownStyle h.style (es.lookup styleName) := by
  induction es generalizing h with
  | nil => exact ⟨fun n => rfl, rfl⟩
  | cons e es ih =>
    obtain ⟨k, v⟩ := e
    obtain ⟨hnot, hd⟩ := List.nodup_cons.1 hd
    have hfirst := he _ List.mem_cons_self
    have hrest : ∀ f ∈ es, (d.addAttribute h (k, v)).attributes.find? f.1 = none := by
      intro f hf
      have hne : f.1 ≠ k := fun hk => hnot (List.mem_map.2 ⟨f, hf, hk⟩)
      rw [find?_addAttribute hfirst, if_neg hne]
      exact he f (List.mem_cons_of_mem _ hf)
    obtain ⟨hattrs, hstyle⟩ := ih hd hrest
    rw [List.foldl_cons]
    refine ⟨fun n => ?_, ?_⟩
    · rw [hattrs, find?_addAttribute hfirst, Entries.lookup_cons]
      by_cases hn : n = k
      · subst hn
        simp [Entries.lookup_eq_none hnot]
      · simp [hn]
    · rw [hstyle, style_addAttribute hfirst, Entries.lookup_cons]
      by_cases hk : styleName = k
      · subst hk
        simp [Entries.lookup_eq_none hnot, shownStyle]
      · simp [hk, Ne.symm hk]

/-- **An attribute in the document is what is shown of the attribute on the canvas.** -/
theorem find?_head (d : Decoration) (live : Attrs) (n : Text) :
    (d.head live).attributes.find? n = (live.find? n).bind (d.shownValue? n) := by
  rw [head, (foldl_addAttribute live.nodup fun _ _ => rfl).1]
  show _ = (live.entries.lookup n).bind _
  cases live.entries.lookup n <;> rfl

/-- **The declarations in the document are those of the `style` attribute on the canvas.** -/
theorem style_head (d : Decoration) (live : Attrs) :
    (d.head live).style = d.shownStyle .empty (live.find? styleName) :=
  (foldl_addAttribute live.nodup fun _ _ => rfl).2

/-! ## Attributes without decoration -/

/-- An attribute that the editor has no use for. -/
def IsOpen (d : Decoration) (n : Text) : Prop := d.hidesAttribute n = false ∧ n ≠ d.marker

/-- A class that the editor has no use for. -/
def IsOpenClass (d : Decoration) (w : Text) : Prop := w ∉ d.classes ∧ w ∉ d.elementClasses

/-- No brace of an expression. -/
def IsBraceless (s : Text) : Prop := '\x7b' ∉ s ∧ '\x7d' ∉ s

/-- Nothing of the editor's is among the attributes and the declarations of an element; declarations
count as an attribute `style`. -/
structure Spares (d : Decoration) (as st : Attrs) : Prop where
  attributes : ∀ e ∈ as.entries, d.IsOpen e.1
  style : st ≠ .empty → d.IsOpen styleName
  classes : ∀ e ∈ as.entries, e.1 = className → e.2 ≠ [] ∧ ∀ w ∈ words e.2, d.IsOpenClass w

/-- In addition there are no braces in the class lists. -/
structure IsFree (d : Decoration) (as st : Attrs) : Prop where
  attributes : ∀ e ∈ as.entries, d.IsOpen e.1
  style : st ≠ .empty → d.IsOpen styleName
  classes : ∀ e ∈ as.entries, e.1 = className →
    e.2 ≠ [] ∧ IsBraceless e.2 ∧ ∀ w ∈ words e.2, d.IsOpenClass w

theorem IsFree.spares (h : d.IsFree as st) : d.Spares as st :=
  ⟨h.attributes, h.style, fun e he hc => ⟨(h.classes e he hc).1, (h.classes e he hc).2.2⟩⟩

instance (n : Text) : Decidable (d.IsOpen n) := inferInstanceAs (Decidable (_ ∧ _))

instance (w : Text) : Decidable (d.IsOpenClass w) := inferInstanceAs (Decidable (_ ∧ _))

instance (s : Text) : Decidable (IsBraceless s) := inferInstanceAs (Decidable (_ ∧ _))

instance (as st : Attrs) : Decidable (d.Spares as st) :=
  decidable_of_iff ((∀ e ∈ as.entries, d.IsOpen e.1) ∧ (st ≠ .empty → d.IsOpen styleName) ∧
    ∀ e ∈ as.entries, e.1 = className → e.2 ≠ [] ∧ ∀ w ∈ words e.2, d.IsOpenClass w)
    ⟨fun ⟨h, h', h''⟩ => ⟨h, h', h''⟩, fun ⟨h, h', h''⟩ => ⟨h, h', h''⟩⟩

instance (as st : Attrs) : Decidable (d.IsFree as st) :=
  decidable_of_iff ((∀ e ∈ as.entries, d.IsOpen e.1) ∧ (st ≠ .empty → d.IsOpen styleName) ∧
    ∀ e ∈ as.entries, e.1 = className →
      e.2 ≠ [] ∧ IsBraceless e.2 ∧ ∀ w ∈ words e.2, d.IsOpenClass w)
    ⟨fun ⟨h, h', h''⟩ => ⟨h, h', h''⟩, fun ⟨h, h', h''⟩ => ⟨h, h', h''⟩⟩

/-- An expression ends with its brace. -/
theorem isExpression_eq_false {s : Text} (h : s.getLast? ≠ some '\x7d') : isExpression s = false := by
  rw [isExpression.eq_def]
  split
  next t =>
    rw [beq_eq_false_iff_ne]
    intro ht
    obtain ⟨u, rfl⟩ := List.getLast?_eq_some_iff.1 ht
    exact h (List.getLast?_concat (l := '\x7b' :: u))
  next => rfl

theorem marks_eq_false_iff : d.marks live = false ↔ ∀ e ∈ live.entries, e.1 ≠ d.marker ∧
    (e.1 = className → ∀ w ∈ words e.2, w ∉ d.elementClasses) := by
  simp [marks, List.any_eq_false]

theorem getLast?_intercalate {ws : List Text} {w : Text} (hw : w ≠ []) :
    ([' '].intercalate (ws ++ [w])).getLast? = w.getLast? := by
  suffices ∃ front, [' '].intercalate (ws ++ [w]) = front ++ w by
    obtain ⟨front, hfront⟩ := this
    rw [hfront, List.getLast?_append_of_ne_nil _ hw]
  induction ws with
  | nil => exact ⟨[], List.intercalate_singleton⟩
  | cons v ws ih =>
    obtain ⟨front, hfront⟩ := ih
    refine ⟨v ++ [' '] ++ front, ?_⟩
    rw [List.cons_append, List.intercalate_cons_of_ne_nil (by simp), hfront]
    simp only [List.append_assoc]

/-- The classes of the editor on an element have no braces. -/
def HasPlainClasses (d : Decoration) (live : Attrs) : Prop :=
  ∀ w ∈ words ((live.find? className).getD []), w ∈ d.classes → IsBraceless w

/-- The attributes `live` of an element on the canvas, which is no decoration, stand for the
attributes `as` and the declarations `st` of the document. -/
structure Reads (d : Decoration) (live as st : Attrs) : Prop where
  marks : d.marks live = false
  braces : d.HasPlainClasses live
  attributes : ∀ n, (live.find? n).bind (d.shownValue? n) = as.find? n
  style : (d.shownStyle .empty (live.find? styleName)).Same st
  name : as.find? styleName = none

namespace Reads

variable (h : d.Reads live as st)
include h

theorem erase (hn : n ≠ styleName) : d.Reads (live.erase n) (as.erase n) st where
  marks := by
    have hm := marks_eq_false_iff.1 h.marks
    exact marks_eq_false_iff.2 fun e he => hm e (List.mem_filter.1 he).1
  braces w hw hwd := by
    rw [Attrs.find?_erase] at hw
    split_ifs at hw
    · cases hw
    · exact h.braces w hw hwd
  attributes k := by
    rw [Attrs.find?_erase, Attrs.find?_erase, ← h.attributes]
    split_ifs <;> rfl
  style := by
    rw [Attrs.find?_erase, if_neg hn.symm]
    exact h.style
  name := by rw [Attrs.find?_erase, h.name, ite_self]

/-- A value of an attribute other than `style`, with what the document has of it. -/
theorem insert (hn : n ≠ styleName) (hmarker : n ≠ d.marker)
    (hclass : n = className → ∀ w ∈ words v, w ∉ d.elementClasses ∧ (w ∈ d.classes → IsBraceless w))
    {bs : Attrs}
    (hbs : ∀ k, bs.find? k = if k = n then d.shownValue? n v else as.find? k) :
    d.Reads (live.insert n v) bs st where
  marks := by
    have hm := marks_eq_false_iff.1 h.marks
    refine marks_eq_false_iff.2 fun e he => ?_
    rcases Attrs.mem_entries_insert.1 he with rfl | ⟨-, he⟩
    · exact ⟨hmarker, fun hn w hw => (hclass hn w hw).1⟩
    · exact hm e he
  braces w hw hwd := by
    rw [Attrs.find?_insert] at hw
    split_ifs at hw with hk
    · exact (hclass hk.symm w hw).2 hwd
    · exact h.braces w hw hwd
  attributes k := by
    rw [Attrs.find?_insert, hbs, ← h.attributes]
    split_ifs with hk
    · rw [hk]
      rfl
    · rfl
  style := by
    rw [Attrs.find?_insert, if_neg hn.symm]
    exact h.style
  name := by rw [hbs, if_neg hn.symm, h.name]

end Reads

/-! ## Classes -/

/-- A list of classes, with those of the editor in a class list behind it. -/
def withEditorClasses (d : Decoration) (classes : List Text) (current : Text) : List Text :=
  (d.editorClasses current).foldl
    (fun all name => if all.contains name then all else all ++ [name]) classes

/-- Attributes with other classes; those of the editor stay. -/
def withClasses (d : Decoration) (live : Attrs) (classes : List Text) : Attrs :=
  let all := d.withEditorClasses classes ((live.find? className).getD [])
  if all.isEmpty then live.erase className else live.insert className ([' '].intercalate all)

theorem exists_withEditorClasses (d : Decoration) (classes : List Text) (current : Text) :
    ∃ es, d.withEditorClasses classes current = classes ++ es ∧
      ∀ w ∈ es, w ∈ words current ∧ w ∈ d.classes := by
  have key (ns : List Text) : ∀ all : List Text, ∃ es,
      ns.foldl (fun all name => if all.contains name then all else all ++ [name]) all = all ++ es ∧
        ∀ w ∈ es, w ∈ ns := by
    induction ns with
    | nil => exact fun all => ⟨[], (List.append_nil all).symm, List.forall_mem_nil _⟩
    | cons n ns ih =>
      intro all
      rw [List.foldl_cons]
      split_ifs
      · obtain ⟨es, heq, hes⟩ := ih all
        exact ⟨es, heq, fun w hw => List.mem_cons_of_mem _ (hes w hw)⟩
      · obtain ⟨es, heq, hes⟩ := ih (all ++ [n])
        refine ⟨n :: es, by rw [heq, List.append_assoc]; rfl, fun w hw => ?_⟩
        rcases List.mem_cons.1 hw with rfl | hw
        · exact List.mem_cons_self
        · exact List.mem_cons_of_mem _ (hes w hw)
  obtain ⟨es, heq, hes⟩ := key (d.editorClasses current) classes
  refine ⟨es, heq, fun w hw => ?_⟩
  simpa [editorClasses, hidesClass] using hes w hw

/-- A class that can be written into a class list. -/
def IsClass (w : Text) : Prop := w ≠ [] ∧ ∀ c ∈ w, isBlank c = false

/-- A list of classes is no expression if the last of them does not end like one. -/
theorem isExpression_intercalate {classes es : List Text} (hes : es ≠ [])
    (hwords : ∀ w ∈ es, w ≠ []) (hlast : ∀ w ∈ es, w.getLast? ≠ some '\x7d') :
    isExpression ([' '].intercalate (classes ++ es)) = false := by
  obtain ⟨front, e, rfl⟩ := (List.eq_nil_or_concat' es).resolve_left hes
  have he : e ∈ front ++ [e] := List.mem_append_right _ (List.mem_singleton_self e)
  refine isExpression_eq_false ?_
  rw [← List.append_assoc, getLast?_intercalate (hwords e he)]
  exact hlast e he

/-- Of a list of classes that ends with those of the editor, and is no expression if there are
such, the document has the others. -/
theorem cleanClass?_append {classes es : List Text}
    (hwords : ∀ w ∈ classes ++ es, IsClass w)
    (hplain : es ≠ [] → isExpression ([' '].intercalate (classes ++ es)) = false)
    (hclasses : ∀ w ∈ classes, w ∉ d.classes) (hes : ∀ w ∈ es, w ∈ d.classes)
    (hne : classes ++ es ≠ []) : d.cleanClass? ([' '].intercalate (classes ++ es)) =
      if classes = [] then none else some ([' '].intercalate classes) := by
  have hall : words ([' '].intercalate (classes ++ es)) = classes ++ es := words_intercalate hwords
  have hown : classes.filter d.hidesClass = [] := by simpa [hidesClass] using hclasses
  have hkept : classes.filter (fun name => !d.hidesClass name) = classes := by
    simpa [hidesClass] using hclasses
  have hes' : es.filter d.hidesClass = es := by simpa [hidesClass] using hes
  have hnone : es.filter (fun name => !d.hidesClass name) = [] := by simpa [hidesClass] using hes
  by_cases hexpr : isExpression ([' '].intercalate (classes ++ es)) = true
  · obtain rfl : es = [] := by_contra fun hes => by simp [hplain hes] at hexpr
    rw [List.append_nil] at hexpr hne ⊢
    rw [cleanClass?, if_pos hexpr, if_neg hne]
  · rw [cleanClass?, if_neg hexpr, editorClasses, collapse, hall, List.filter_append,
      List.filter_append, hown, hkept, hes', hnone]
    cases es with
    | nil =>
      rw [List.append_nil] at hne
      simp [hne]
    | cons e es => cases classes <;> simp

theorem cleanClass?_intercalate {classes es : List Text}
    (hwords : ∀ w ∈ classes ++ es, IsClass w) (hbraces : ∀ w ∈ es, IsBraceless w)
    (hclasses : ∀ w ∈ classes, w ∉ d.classes) (hes : ∀ w ∈ es, w ∈ d.classes)
    (hne : classes ++ es ≠ []) : d.cleanClass? ([' '].intercalate (classes ++ es)) =
      if classes = [] then none else some ([' '].intercalate classes) :=
  cleanClass?_append hwords
    (fun hnil => isExpression_intercalate hnil (fun w hw => (hwords w (List.mem_append_right _ hw)).1)
      fun w hw hlast => (hbraces w hw).2 (List.mem_of_getLast? hlast))
    hclasses hes hne

namespace Reads

variable (h : d.Reads live as st)
include h

theorem isOpen (hn : as.find? n = some v) : d.IsOpen n := by
  rw [← h.attributes] at hn
  obtain ⟨w, hw, hv⟩ := Option.bind_eq_some_iff.1 hn
  refine ⟨?_, (marks_eq_false_iff.1 h.marks _ (Attrs.mem_of_find? hw)).1⟩
  rw [shownValue?] at hv
  split_ifs at hv with hh
  all_goals exact Bool.eq_false_iff.2 hh

/-- Other classes for an element, with those of the editor left. -/
theorem withClasses (hopen : d.IsOpen className)
    {classes : List Text} (hcs : ∀ w ∈ classes, IsClass w ∧ d.IsOpenClass w) :
    d.Reads (d.withClasses live classes)
      (if classes = [] then as.erase className
        else as.insert className ([' '].intercalate classes)) st := by
  obtain ⟨es, hall, hes⟩ :=
    d.exists_withEditorClasses classes ((live.find? className).getD [])
  rw [Decoration.withClasses, hall]
  by_cases hne : classes ++ es = []
  · rw [if_pos (List.append_eq_nil_iff.1 hne).1, hne]
    exact h.erase className_ne_styleName
  have hwords : ∀ w ∈ classes ++ es, IsClass w := fun w hw => by
    rcases List.mem_append.1 hw with hw | hw
    · exact (hcs w hw).1
    · exact of_mem_words (hes w hw).1
  simp only [List.isEmpty_iff, hne, if_false]
  refine h.insert className_ne_styleName hopen.2 (fun _ w hw => ?_) fun k => ?_
  · rw [words_intercalate hwords] at hw
    rcases List.mem_append.1 hw with hw | hw
    · exact ⟨(hcs w hw).2.2, fun hwd => absurd hwd (hcs w hw).2.1⟩
    · -- the classes of the editor come from the element, which is no decoration
      have hw := (hes w hw).1
      refine ⟨?_, h.braces w hw⟩
      cases hlive : live.find? className with
      | none =>
        rw [hlive] at hw
        cases hw
      | some value =>
        rw [hlive] at hw
        exact (marks_eq_false_iff.1 h.marks _ (Attrs.mem_of_find? hlive)).2 rfl w hw
  · rw [shownValue?, hopen.1, cleanClass?_intercalate hwords
      (fun w hw => h.braces w (hes w hw).1 (hes w hw).2)
      (fun w hw => (hcs w hw).2.1) (fun w hw => (hes w hw).2) hne]
    split_ifs <;> simp_all

end Reads

/-! ## Changes of the attributes -/

/-- Attributes with one of them dropped. -/
def dropped (d : Decoration) (live : Attrs) (name : Text) : Attrs :=
  if name = className then d.withClasses live [] else live.erase name

/-- Attributes with another value for one of them. -/
def assigned (d : Decoration) (live : Attrs) (e : Entry) : Attrs :=
  if e.1 = className then d.withClasses live (words e.2) else live.insert e.1 e.2

/-- Attributes with other declarations, unless the style is an expression. -/
def restyled (live : Attrs) (delta : Delta) : Attrs :=
  let current := (live.find? styleName).getD []
  if delta.isEmpty || isExpression current then live
  else
    let style := delta.apply (Style.readDeclarations current)
    if style.isEmpty then live.erase styleName
    else live.insert styleName (Style.writeDeclarations style)

/-- Attributes with their differences. -/
def updated (d : Decoration) (live : Attrs) (attributes style : Delta) : Attrs :=
  restyled (attributes.assignments.foldl d.assigned (attributes.removed.foldl d.dropped live)) style

/-- The classes of an element of the document. -/
theorem Spares.isClass (hfree : d.Spares bs rt) {e : Entry} (he : e ∈ bs.entries)
    (hclass : e.1 = className) : ∀ w ∈ words e.2, IsClass w ∧ d.IsOpenClass w := fun w hw =>
  ⟨of_mem_words hw, (hfree.classes e he hclass).2 w hw⟩

namespace Reads

theorem dropAll {ns : List Text} (h : d.Reads live as st)
    (hns : ∀ n ∈ ns, d.IsOpen n ∧ n ≠ styleName) :
    d.Reads (ns.foldl d.dropped live) (ns.foldl Attrs.erase as) st := by
  induction ns generalizing live as with
  | nil => exact h
  | cons n ns ih =>
    obtain ⟨hopen, hne⟩ := hns n List.mem_cons_self
    refine ih ?_ fun m hm => hns m (List.mem_cons_of_mem _ hm)
    rw [dropped]
    split_ifs with hn
    · subst hn
      have := @withClasses d live as st h hopen [] (List.forall_mem_nil _)
      rwa [if_pos rfl] at this
    · exact h.erase hne

theorem assignAll {es : List Entry} (h : d.Reads live as st) (hfree : d.Spares bs rt)
    (hattrs : ∀ e ∈ bs.entries, IsAttribute e) (hes : ∀ e ∈ es, e ∈ bs.entries) :
    d.Reads (es.foldl d.assigned live) (es.foldl (fun m e => m.insert e.1 e.2) as) st := by
  induction es generalizing live as with
  | nil => exact h
  | cons e es ih =>
    have he := hes e List.mem_cons_self
    have hopen := hfree.attributes e he
    refine ih ?_ fun f hf => hes f (List.mem_cons_of_mem _ hf)
    rw [assigned]
    split_ifs with hn
    · have hvalue : [' '].intercalate (words e.2) = e.2 := (hattrs e he).classes hn
      have hne : words e.2 ≠ [] := fun hw => (hfree.classes e he hn).1 (by rw [← hvalue, hw]; rfl)
      have := h.withClasses (hn ▸ hopen) (hfree.isClass he hn)
      rwa [if_neg hne, hvalue, ← hn] at this
    · refine h.insert (hattrs e he).name_ne_style hopen.2 (fun hc => absurd hc hn) fun k => ?_
      rw [Attrs.find?_insert, shownValue?, hopen.1]
      simp [hn, (hattrs e he).name_ne_style]

end Reads

/-! ## Declarations -/

theorem isExpression_writeDeclarations {style : Attrs}
    (h : ∀ e ∈ style.entries, Style.IsDeclaration e) :
    isExpression (Style.writeDeclarations style) = false := by
  rw [Style.writeDeclarations]
  cases hes : style.entries with
  | nil => rfl
  | cons e es =>
    have he := h e (hes ▸ List.mem_cons_self)
    obtain ⟨c, s, hs⟩ := List.exists_cons_of_ne_nil he.property_ne
    have hc : c ≠ '\x7b' := Style.isPropertyChar_ne (he.chars c (hs ▸ List.mem_cons_self)) rfl
    obtain ⟨t, ht⟩ : ∃ t, [';', ' '].intercalate ((e :: es).map Style.writeDeclaration) = c :: t := by
      rw [List.map_cons, Style.writeDeclaration, hs]
      cases es <;> simp [List.intercalate]
    rw [ht, isExpression]
    rintro _ ⟨⟩
    exact hc rfl

namespace Reads

/-- Declarations for an element, in place of those that it has. -/
theorem insertStyle (h : d.Reads live as st) (hopen : d.IsOpen styleName)
    (hdecl : ∀ e ∈ rt.entries, Style.IsDeclaration e) :
    d.Reads (live.insert styleName (Style.writeDeclarations rt)) as rt where
  marks := by
    have hm := marks_eq_false_iff.1 h.marks
    refine marks_eq_false_iff.2 fun e he => ?_
    rcases Attrs.mem_entries_insert.1 he with rfl | ⟨-, he⟩
    · exact ⟨hopen.2, fun hc => absurd hc className_ne_styleName.symm⟩
    · exact hm e he
  braces := by
    rw [HasPlainClasses, Attrs.find?_insert, if_neg className_ne_styleName]
    exact h.braces
  attributes k := by
    rw [Attrs.find?_insert]
    split_ifs with hk
    · rw [hk, h.name, Option.bind_some, shownValue?, hopen.1, isExpression_writeDeclarations hdecl]
      simp [className_ne_styleName.symm]
    · exact h.attributes k
  style := by
    rw [Attrs.find?_insert, if_pos rfl, shownStyle, hopen.1, isExpression_writeDeclarations hdecl,
      Style.readDeclarations_writeDeclarations hdecl]
    rfl
  name := h.name

/-- No declarations for an element. -/
theorem eraseStyle (h : d.Reads live as st) : d.Reads (live.erase styleName) as .empty where
  marks := by
    have hm := marks_eq_false_iff.1 h.marks
    exact marks_eq_false_iff.2 fun e he => hm e (List.mem_filter.1 he).1
  braces := by
    rw [HasPlainClasses, Attrs.find?_erase, if_neg className_ne_styleName]
    exact h.braces
  attributes k := by
    rw [Attrs.find?_erase]
    split_ifs with hk
    · rw [hk, h.name]
      rfl
    · exact h.attributes k
  style := by
    rw [Attrs.find?_erase, if_pos rfl]
    rfl
  name := h.name

theorem same_style (h : d.Reads live as st) (hst : st.Same rt) : d.Reads live as rt :=
  ⟨h.marks, h.braces, h.attributes, h.style.trans hst, h.name⟩

/-- Declarations that are not the editor's are what the `style` attribute says. -/
theorem style_eq (h : d.Reads live as st) (hopen : d.IsOpen styleName) :
    isExpression ((live.find? styleName).getD []) = false ∧
      (Style.readDeclarations ((live.find? styleName).getD [])).Same st := by
  have hstyle := h.style
  cases hlive : live.find? styleName with
  | none =>
    rw [hlive] at hstyle
    exact ⟨rfl, hstyle⟩
  | some v =>
    have hv : isExpression v = false := by
      have hnone := h.attributes styleName
      rw [hlive, h.name, Option.bind_some, shownValue?, hopen.1] at hnone
      simpa [className_ne_styleName.symm] using hnone
    rw [hlive, shownStyle, hopen.1] at hstyle
    rw [Option.getD_some]
    exact ⟨hv, by simpa [hv] using hstyle⟩

/-- Without declarations of the editor's there is nothing to change. -/
theorem eq_empty (h : d.Reads live as st) (hopen : ¬ d.IsOpen styleName) : st = .empty := by
  have hstyle := h.style
  refine Attrs.eq_empty_iff.2 fun e he => ?_
  suffices d.shownStyle .empty (live.find? styleName) = .empty by
    rw [this] at hstyle
    cases hstyle.entries.2 he
  cases hlive : live.find? styleName with
  | none => rfl
  | some v =>
    have hmarker : styleName ≠ d.marker :=
      (marks_eq_false_iff.1 h.marks _ (Attrs.mem_of_find? hlive)).1
    have hhides : d.hidesAttribute styleName = true :=
      Bool.of_not_eq_false fun hf => hopen ⟨hf, hmarker⟩
    rw [shownStyle, hhides]
    rfl

theorem restyle (h : d.Reads live as st) (hfree : d.Spares bs rt)
    (hdecl : ∀ e ∈ rt.entries, Style.IsDeclaration e) :
    d.Reads (restyled live (.between st rt)) as ((Delta.between st rt).apply st) := by
  rw [restyled]
  by_cases hempty : (Delta.between st rt).isEmpty = true
  · rw [hempty, Bool.true_or, if_pos rfl, Delta.apply_of_isEmpty hempty]
    exact h
  have hopen : d.IsOpen styleName := by
    by_contra hopen
    have hrt : rt = .empty := by_contra fun hrt => hopen (hfree.style hrt)
    rw [h.eq_empty hopen, hrt] at hempty
    exact hempty rfl
  obtain ⟨hexpr, hread⟩ := h.style_eq hopen
  have hsame := Delta.same_apply_congr st rt hread
  have htarget := hsame.trans (Delta.same_apply_between st rt)
  simp only [hempty, hexpr, Bool.or_self, Bool.false_eq_true, if_false]
  split_ifs with hnone
  · refine h.eraseStyle.same_style (Attrs.Same.trans ?_ hsame)
    rw [show (Delta.between st rt).apply _ = .empty from Attrs.eq_empty_of_isEmpty hnone]
  · exact (h.insertStyle hopen fun e he => hdecl e (htarget.entries.1 he)).same_style hsame

/-- **The change of the attributes on the canvas is the change of those of the document.** -/
theorem update (h : d.Reads live as st) (hfree : d.Spares bs rt) (hattrs : ∀ e ∈ bs.entries, IsAttribute e)
    (hdecl : ∀ e ∈ rt.entries, Style.IsDeclaration e) :
    d.Reads (d.updated live (.between as bs) (.between st rt)) ((Delta.between as bs).apply as)
      ((Delta.between st rt).apply st) := by
  refine restyle (assignAll (dropAll h fun n hn => ?_) hfree hattrs fun e he => ?_) hfree hdecl
  · obtain ⟨e, he, rfl⟩ := List.mem_map.1 (List.mem_filter.1 hn).1
    have hfind := Attrs.find?_of_mem he
    refine ⟨h.isOpen hfind, fun hs => ?_⟩
    rw [hs, h.name] at hfind
    cases hfind
  · exact Delta.mem_of_mem_assignments_between _ _ he

end Reads

/-- The attributes of a new element stand for those of the document element. -/
theorem reads_writtenAttributes (hfree : d.Spares as st) (hattrs : ∀ e ∈ as.entries, IsAttribute e)
    (hdecl : ∀ e ∈ st.entries, Style.IsDeclaration e) :
    d.Reads (Canvas.writtenAttributes as st) as st := by
  have hname : as.find? styleName = none := by
    refine Attrs.find?_eq_none_iff.2 fun hn => ?_
    obtain ⟨e, he, hs⟩ := List.mem_map.1 hn
    exact (hattrs e he).name_ne_style hs
  have hreads : d.Reads as as .empty := by
    refine ⟨?_, fun w hw hwd => ?_, fun n => ?_, by rw [hname]; rfl, hname⟩
    · refine marks_eq_false_iff.2 fun e he => ⟨(hfree.attributes e he).2, fun hc w hw => ?_⟩
      exact ((hfree.classes e he hc).2 w hw).2
    · cases hclass : as.find? className with
      | none =>
        rw [hclass] at hw
        cases hw
      | some v =>
        rw [hclass] at hw
        exact absurd hwd ((hfree.classes _ (Attrs.mem_of_find? hclass) rfl).2 w hw).1
    · cases hn : as.find? n with
      | none => rfl
      | some v =>
        have he := Attrs.mem_of_find? hn
        rw [Option.bind_some, shownValue?, (hfree.attributes _ he).1]
        have hne : n ≠ styleName := (hattrs _ he).name_ne_style
        by_cases hc : n = className
        · subst hc
          have hvalue : [' '].intercalate (words v) = v := (hattrs _ he).classes rfl
          have hwords : words v ≠ [] := fun hw =>
            (hfree.classes _ he rfl).1 (by rw [← hvalue, hw]; rfl)
          have := @cleanClass?_intercalate d (words v) []
            (fun w hw => (hfree.isClass he rfl w (by simpa using hw)).1)
            (List.forall_mem_nil _) (fun w hw => (hfree.isClass he rfl w hw).2.1)
            (List.forall_mem_nil _) (by simpa using hwords)
          rw [List.append_nil, hvalue, if_neg hwords] at this
          simpa using this
        · simp [hc, hne]
  rw [Canvas.writtenAttributes]
  split_ifs with hst
  · exact hreads.same_style (by rw [Attrs.eq_empty_of_isEmpty hst])
  · refine hreads.insertStyle (hfree.style fun hst' => hst ?_) hdecl
    rw [hst']
    rfl

end MarkupSync.Decoration
