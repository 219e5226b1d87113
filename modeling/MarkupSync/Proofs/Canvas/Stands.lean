import Mathlib.Data.List.Forall2
import MarkupSync.Proofs.Canvas.Attributes
import MarkupSync.Proofs.Canvas.Forest
import MarkupSync.Proofs.Text.Trim

/-!
# Nodes of the canvas that stand for nodes of the document

* `Decoration.runText?_blank`: blanks around a run of text are not shown;
* `Canvas.Stands`: a node of the canvas stands for a document tree;
* `Canvas.Hosts`: the children of a node stand for a list of document trees, one by one, with
  decoration, comments and blank texts between them;
* **`Canvas.Stands.congr`**: what a node stands for depends only on the nodes below it;
* `Canvas.Stands.same`: the order of attributes does not matter.
-/

namespace MarkupSync

open Text

/-! ## Texts -/

namespace Decoration

theorem runText?_raw (s : Text) :
    runText? true s = if trim isBlank s = [] then none else some (trim isBlank s) := by
  obtain ⟨a, b, -, -, -, hspan⟩ := exists_trim s
  have hlen : (trimmedSpan s).length = width (trim isBlank s) := by
    rw [hspan, Span.length, Nat.add_sub_cancel_left]
  simp only [runText?, if_true, at_trimmedSpan, hlen, width_eq_zero]

theorem runText?_eq_none_iff {raw : Bool} {s : Text} :
    runText? raw s = none ↔ IsBlankText s := by
  cases raw with
  | false => exact collapsed?_eq_none_iff
  | true =>
    rw [runText?_raw, ← trim_eq_nil_iff]
    by_cases h : trim isBlank s = [] <;> simp [h]

/-- Blanks around a run of text are not shown. -/
theorem runText?_blank {raw : Bool} {a b s : Text} (ha : IsBlankText a) (hb : IsBlankText b) :
    runText? raw (a ++ s ++ b) = runText? raw s := by
  cases raw with
  | false => exact collapsed?_blank ha hb s
  | true =>
    by_cases hs : trim isBlank s = []
    · have hs := trim_eq_nil_iff.1 hs
      rw [runText?_eq_none_iff.2 hs, runText?_eq_none_iff, isBlankText_append, isBlankText_append]
      exact ⟨⟨ha, hs⟩, hb⟩
    · rw [runText?_raw, runText?_raw, List.append_assoc, trim_between ha hb hs]

theorem all_isSpace_of_isBlankText {s : Text} (h : IsBlankText s) : s.all isSpace = true :=
  List.all_eq_true.2 fun c hc => isSpace_of_isBlank (h c hc)

theorem Reads.same {d : Decoration} {live as bs st rt : Attrs} (h : d.Reads live as st)
    (has : as.Same bs) (hst : st.Same rt) : d.Reads live bs rt where
  marks := h.marks
  braces := h.braces
  attributes n := (h.attributes n).trans (has n)
  style := h.style.trans hst
  name := (has _).symm.trans h.name

end Decoration

/-! ## Standing for a document -/

namespace Canvas

section

variable (c : Canvas) (d : Decoration)

/-- A text of the canvas shows a text of the document. -/
def StandsForText (raw : Bool) (x : NodeId) (t : Text) : Prop :=
  ∃ s, c.data? x = some (.text s) ∧ s.all isSpace = false ∧ Decoration.runText? raw s = some t

/-- An element of the canvas has the tag, the attributes and the style of an element of the
document. -/
def StandsForTag (x : NodeId) (tag : Text) (as st : Attrs) : Prop :=
  ∃ live, c.data? x = some (.element tag live) ∧ d.Reads live as st

/-- The texts among the children of a node that stand for nothing are blank. -/
def HasBlankGaps (x : NodeId) : Prop :=
  ∀ y ∈ c.children x, ∀ s, c.data? y = some (.text s) → s.all isSpace = true → IsBlankText s

mutual

/-- A node of the canvas stands for a tree of the document. -/
def Stands (raw : Bool) (x : NodeId) : Node → Prop
  | .text t => c.StandsForText raw x t
  | .element tag as st children =>
    c.StandsForTag d x tag as st ∧ c.HasBlankGaps x ∧
      StandAll (isRaw tag) (c.significant d x) children

/-- Nodes of the canvas stand for trees of the document, one by one. -/
def StandAll (raw : Bool) : List NodeId → List Node → Prop
  | [], [] => True
  | x :: xs, n :: ns => Stands raw x n ∧ StandAll raw xs ns
  | _, _ => False

end

/-- The children of a node stand for trees of the document. -/
def Hosts (raw : Bool) (x : NodeId) (ns : List Node) : Prop :=
  c.HasBlankGaps x ∧ List.Forall₂ (c.Stands d raw) (c.significant d x) ns

end

variable {c c' : Canvas} {d : Decoration} {raw : Bool} {x y : NodeId}

theorem standAll_iff {xs : List NodeId} {ns : List Node} :
    c.StandAll d raw xs ns ↔ List.Forall₂ (c.Stands d raw) xs ns := by
  induction xs generalizing ns with
  | nil => cases ns <;> simp [StandAll]
  | cons x xs ih => cases ns <;> simp [StandAll, ih]

theorem stands_text {t : Text} : c.Stands d raw x (.text t) ↔ c.StandsForText raw x t := by
  rw [Stands]

theorem stands_element {tag : Text} {as st : Attrs} {cs : List Node} :
    c.Stands d raw x (.element tag as st cs) ↔
      c.StandsForTag d x tag as st ∧ c.Hosts d (isRaw tag) x cs := by
  rw [Stands, Hosts, standAll_iff]

theorem StandsForTag.isElement {tag : Text} {as st : Attrs} (h : c.StandsForTag d x tag as st) :
    c.isElement x = true := by
  obtain ⟨live, hx, -⟩ := h
  exact isElement_of_data? hx

theorem StandsForTag.isSignificant {tag : Text} {as st : Attrs} (h : c.StandsForTag d x tag as st) :
    c.isSignificant d x = true := by
  obtain ⟨live, hx, h⟩ := h
  rw [isSignificant_element hx, h.marks]
  rfl

theorem StandsForText.isSignificant {t : Text} (h : c.StandsForText raw x t) :
    c.isSignificant d x = true := by
  obtain ⟨s, hx, hs, -⟩ := h
  rw [isSignificant_text hx, hs]
  rfl

/-- What stands for a node of the document is neither decoration nor a blank. -/
theorem Stands.isSignificant {n : Node} (h : c.Stands d raw x n) : c.isSignificant d x = true := by
  cases n with
  | text t => exact (stands_text.1 h).isSignificant
  | element tag as st cs => exact (stands_element.1 h).1.isSignificant

theorem Stands.lt_length {n : Node} (h : c.Stands d raw x n) : x < c.nodes.length := by
  cases n with
  | text t =>
    obtain ⟨s, hx, -⟩ := stands_text.1 h
    exact lt_of_data? hx
  | element tag as st cs =>
    obtain ⟨live, hx, -⟩ := (stands_element.1 h).1
    exact lt_of_data? hx

theorem Stands.isElement {n : Node} (h : c.Stands d raw x n) : c.isElement x = n.isElement := by
  cases n with
  | text t =>
    obtain ⟨s, hx, -⟩ := stands_text.1 h
    exact isElement_text hx
  | element tag as st cs => exact (stands_element.1 h).1.isElement

/-! ## What it depends on -/

theorem StandsForTag.congr {tag : Text} {as st : Attrs} (h : c.StandsForTag d x tag as st)
    (hx : c'.data? x = c.data? x) : c'.StandsForTag d x tag as st := by
  rw [StandsForTag, hx]
  exact h

theorem HasBlankGaps.congr (h : c.HasBlankGaps x) (hx : c'.children x = c.children x)
    (hd : ∀ y ∈ c.children x, c'.data? y = c.data? y) : c'.HasBlankGaps x := by
  intro y hy s hs
  rw [hx] at hy
  rw [hd y hy] at hs
  exact h y hy s hs

mutual

/-- **What a node stands for depends only on the nodes below it.** -/
theorem Stands.congr {raw : Bool} {x : NodeId} {n : Node} (h : c.Stands d raw x n) (hc : c.IsForest)
    (hb : ∀ y, c.Below x y → c'.data? y = c.data? y ∧ c'.children y = c.children y) :
    c'.Stands d raw x n := by
  cases n with
  | text t =>
    obtain ⟨s, hx, hs⟩ := stands_text.1 h
    exact stands_text.2 ⟨s, (hb x (.refl c x)).1.trans hx, hs⟩
  | element tag as st cs =>
    obtain ⟨hd, hch⟩ := hb x (.refl c x)
    have hbelow : ∀ y ∈ c.children x, c.Below x y := fun y hy =>
      (Below.refl c x).child (hc.mem_children.1 hy)
    have hdata : ∀ y ∈ c.children x, c'.data? y = c.data? y := fun y hy => (hb y (hbelow y hy)).1
    obtain ⟨htag, hgaps, hcs⟩ := h
    refine ⟨htag.congr hd, hgaps.congr hch hdata, ?_⟩
    rw [significant_congr hch hdata]
    exact StandAll.congr hcs hc fun y hy z hz =>
      hb z ((hbelow y (mem_significant.1 hy).1).trans hz)

theorem StandAll.congr {raw : Bool} {xs : List NodeId} {ns : List Node}
    (h : c.StandAll d raw xs ns) (hc : c.IsForest)
    (hb : ∀ x ∈ xs, ∀ y, c.Below x y → c'.data? y = c.data? y ∧ c'.children y = c.children y) :
    c'.StandAll d raw xs ns := by
  cases xs <;> cases ns
  case nil.nil => trivial
  case cons.cons =>
    exact ⟨Stands.congr h.1 hc (hb _ List.mem_cons_self),
      StandAll.congr h.2 hc fun x hx => hb x (List.mem_cons_of_mem _ hx)⟩
  all_goals exact h.elim

end

theorem Hosts.congr {ns : List Node} (h : c.Hosts d raw x ns) (hc : c.IsForest)
    (hx : c'.children x = c.children x)
    (hb : ∀ y ∈ c.children x, ∀ z, c.Below y z →
      c'.data? z = c.data? z ∧ c'.children z = c.children z) : c'.Hosts d raw x ns := by
  have hdata : ∀ y ∈ c.children x, c'.data? y = c.data? y := fun y hy =>
    (hb y hy y (.refl c y)).1
  refine ⟨h.1.congr hx hdata, ?_⟩
  rw [significant_congr hx hdata, ← standAll_iff]
  exact (standAll_iff.2 h.2).congr hc fun y hy => hb y (mem_significant.1 hy).1

/-! ## Order of attributes -/

theorem StandsForTag.same {tag : Text} {as bs st rt : Attrs} (h : c.StandsForTag d x tag as st)
    (has : as.Same bs) (hst : st.Same rt) : c.StandsForTag d x tag bs rt := by
  obtain ⟨live, hx, h⟩ := h
  exact ⟨live, hx, h.same has hst⟩

mutual

theorem Stands.same {raw : Bool} {x : NodeId} {n m : Node} (h : c.Stands d raw x n)
    (hs : n.Same m) : c.Stands d raw x m := by
  cases n <;> cases m
  case text.text => exact (hs : _ = _) ▸ h
  case element.element =>
    obtain ⟨rfl, has, hst, hcs⟩ := hs
    obtain ⟨htag, hgaps, hall⟩ := h
    exact ⟨htag.same has hst, hgaps, StandAll.same hall hcs⟩
  all_goals exact hs.elim

theorem StandAll.same {raw : Bool} {xs : List NodeId} {ns ms : List Node}
    (h : c.StandAll d raw xs ns) (hs : Node.SameAll ns ms) : c.StandAll d raw xs ms := by
  cases ns <;> cases ms
  case nil.nil => exact h
  case cons.cons =>
    cases xs with
    | nil => exact h.elim
    | cons x xs => exact ⟨Stands.same h.1 hs.1, StandAll.same h.2 hs.2⟩
  all_goals exact hs.elim

end

end Canvas

end MarkupSync
