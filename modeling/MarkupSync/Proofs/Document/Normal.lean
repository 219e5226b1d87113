import Mathlib.Data.List.Chain
import Mathlib.Data.List.Infix
import MarkupSync.Proofs.Document.Pieces
import MarkupSync.Proofs.Lexeme.Places
import MarkupSync.Proofs.Style.Declarations
import MarkupSync.Proofs.Tree.Everywhere

/-!
# Documents that HTML can express

* `IsAttribute`: attributes that can be written;
* `IsKept`: the content of an element whose content is kept as it is written;
* `Node.IsNormal`, `Node.AllNormal`: nodes that can stand between tags;
* `Node.IsNormalDocument`: documents;
* `Node.IsNormalTag`, `Node.IsNormalDocument.everywhere`: the elements in them;
* **`Node.IsNormal.same`**, `Node.IsNormalDocument.same`: the order of attributes does not matter;
* `IsPrintable`, `IsPrintableTag`: attributes and declarations that a printed tag says;
* `Node.IsPrintable`, `Node.AllPrintable`, `Node.IsPrintableDocument`: nodes and documents that are read
  back once they are printed;
* **`Node.IsNormal.isPrintable`**, `Node.IsNormalDocument.isPrintable`: what HTML can express anywhere
  is of this kind.
-/

namespace MarkupSync

open Text

/-- The name is a word other than `style`, and classes have single spaces between them. -/
structure IsAttribute (e : Entry) : Prop where
  name_ne : e.1 ≠ []
  name : e.1.all isWordChar = true
  name_ne_style : e.1 ≠ styleName
  classes : e.1 = className → Text.collapse e.2 = e.2

/-- Content that is kept as it is written: at most one text, without blanks at its ends, in which no
close tag of the element starts. -/
def IsKept (tag : Text) : List Node → Prop
  | [] => True
  | [.text t] => t ≠ [] ∧ trim isBlank t = t ∧ IsRawContent tag t
  | _ => False

instance (e : Entry) : Decidable (IsAttribute e) :=
  decidable_of_iff (e.1 ≠ [] ∧ e.1.all isWordChar = true ∧ e.1 ≠ styleName ∧
    (e.1 = className → Text.collapse e.2 = e.2)) ⟨fun ⟨a, b, c, d⟩ => ⟨a, b, c, d⟩,
      fun ⟨a, b, c, d⟩ => ⟨a, b, c, d⟩⟩

instance : (tag : Text) → Decidable (IsTagName tag)
  | [] => inferInstanceAs (Decidable False)
  | c :: s => inferInstanceAs (Decidable (isNameStart c = true ∧ s.all isNameChar = true))

instance (tag content : Text) : Decidable (IsRawContent tag content) :=
  decidable_of_iff (∀ q ∈ content.tails, q ≠ [] → startsClose tag q = false)
    ⟨fun h q hq hs => h q ((List.mem_tails q content).2 hs) hq,
      fun h q hq hne => h q hne ((List.mem_tails q content).1 hq)⟩

instance (tag : Text) : (children : List Node) → Decidable (IsKept tag children)
  | [] => inferInstanceAs (Decidable True)
  | [.text t] =>
    inferInstanceAs (Decidable (t ≠ [] ∧ trim isBlank t = t ∧ IsRawContent tag t))
  | .element .. :: _ => inferInstanceAs (Decidable False)
  | .text _ :: _ :: _ => inferInstanceAs (Decidable False)

instance (ns : List Node) : Decidable (TextsApart ns) := inferInstanceAs (Decidable (ns.IsChain _))

theorem IsTagName.ne_rootTag {tag : Text} (h : IsTagName tag) : tag ≠ Node.rootTag := by
  rintro rfl
  exact absurd h.1 (by decide)

theorem TextsApart.same {ns ms : List Node} (h : TextsApart ns) (hs : Node.SameAll ns ms) :
    TextsApart ms := by
  have key (ks : List Node) : TextsApart ks ↔
      (ks.map Node.isText).IsChain fun a b => ¬ (a = true ∧ b = true) := by
    rw [TextsApart, List.isChain_map]
  rw [key] at h ⊢
  rwa [← hs.map_isText]

theorem IsKept.same {tag : Text} {ns ms : List Node} (h : IsKept tag ns) (hs : Node.SameAll ns ms) :
    IsKept tag ms := by
  match ns, ms, h, hs with
  | [], [], _, _ => trivial
  | [.text t], [m], h, hs => exact (Node.Same.eq_text hs.1.symm) ▸ h

namespace Node

mutual

/-- A node that can stand between tags. -/
def IsNormal : Node → Prop
  | .text t => t ≠ [] ∧ Text.collapse t = t
  | .element tag attributes style children =>
    IsTagName tag ∧ (∀ e ∈ attributes.entries, IsAttribute e) ∧
      (∀ e ∈ style.entries, Style.IsDeclaration e) ∧ (isVoid tag = true → children = []) ∧
      if isRaw tag = true then IsKept tag children else TextsApart children ∧ AllNormal children

/-- All nodes of a list can stand between tags. -/
def AllNormal : List Node → Prop
  | [] => True
  | n :: ns => IsNormal n ∧ AllNormal ns

end

mutual

/-- Decides whether a node can stand between tags. -/
def decidableIsNormal : (n : Node) → Decidable n.IsNormal
  | .text t => inferInstanceAs (Decidable (t ≠ [] ∧ Text.collapse t = t))
  | .element tag attributes style children =>
    have := decidableAllNormal children
    inferInstanceAs (Decidable (IsTagName tag ∧ (∀ e ∈ attributes.entries, IsAttribute e) ∧
      (∀ e ∈ style.entries, Style.IsDeclaration e) ∧ (isVoid tag = true → children = []) ∧
      if isRaw tag = true then IsKept tag children else TextsApart children ∧ AllNormal children))

/-- Decides whether all nodes of a list can stand between tags. -/
def decidableAllNormal : (ns : List Node) → Decidable (AllNormal ns)
  | [] => inferInstanceAs (Decidable True)
  | n :: ns =>
    have := decidableIsNormal n
    have := decidableAllNormal ns
    inferInstanceAs (Decidable (n.IsNormal ∧ AllNormal ns))

end

instance (n : Node) : Decidable n.IsNormal := decidableIsNormal n

theorem allNormal_iff {ns : List Node} : AllNormal ns ↔ ∀ n ∈ ns, n.IsNormal := by
  induction ns with
  | nil => simp [AllNormal]
  | cons n ns ih => simp [AllNormal, ih]

section Children

variable {tag : Text} {attributes style : Attrs} {children : List Node}
  (h : IsNormal (.element tag attributes style children))
include h

/-- No two texts stand side by side in an element. -/
theorem IsNormal.textsApart : TextsApart children := by
  obtain ⟨-, -, -, -, hchildren⟩ := h
  split_ifs at hchildren
  · match children, hchildren with
    | [], _ => exact .nil
    | [.text _], _ => exact .singleton _
  · exact hchildren.1

/-- The elements in an element can stand between tags. -/
theorem IsNormal.of_mem {n : Node} (hn : n ∈ children) (hel : n.isElement = true) : n.IsNormal := by
  obtain ⟨-, -, -, -, hchildren⟩ := h
  split_ifs at hchildren
  · match children, hchildren, hn with
    | [.text _], _, hn =>
      rw [List.mem_singleton.1 hn] at hel
      cases hel
  · exact allNormal_iff.1 hchildren.2 n hn

end Children

/-- A list that is no single element is wrapped. -/
theorem ofTopLevel_eq_root {ns : List Node} (h : ∀ n, ns = [n] → n.isText = true) :
    ofTopLevel ns = root ns := by
  match ns, h with
  | [], _ => rfl
  | [.text _], _ => rfl
  | [.element ..], h => exact Bool.noConfusion (h _ rfl)
  | .text _ :: _ :: _, _ => rfl
  | .element .. :: _ :: _, _ => rfl

/-- A normal element, or a wrapping root around anything but a single element. -/
def IsNormalDocument : Node → Prop
  | .text _ => False
  | .element tag attributes style children =>
    if tag = rootTag then
      attributes = .empty ∧ style = .empty ∧ TextsApart children ∧ AllNormal children ∧
        ∀ n, children = [n] → n.isText = true
    else IsNormal (.element tag attributes style children)

instance : (n : Node) → Decidable n.IsNormalDocument
  | .text _ => inferInstanceAs (Decidable False)
  | .element tag attributes style children =>
    have : Decidable (AllNormal children) := decidableAllNormal children
    have : Decidable (∀ n, children = [n] → n.isText = true) :=
      match children with
      | [] => .isTrue nofun
      | [n] => decidable_of_iff (n.isText = true) (by simp)
      | _ :: _ :: _ => .isTrue nofun
    inferInstanceAs (Decidable (if tag = rootTag then attributes = .empty ∧ style = .empty ∧
      TextsApart children ∧ AllNormal children ∧ ∀ n, children = [n] → n.isText = true
      else IsNormal (.element tag attributes style children)))

theorem IsNormalDocument.isElement {n : Node} (h : n.IsNormalDocument) : n.isElement = true := by
  cases n with
  | text => exact h.elim
  | element => rfl

/-- A wrapping root has no attributes. -/
theorem IsNormalDocument.eq_root {n : Node} (h : n.IsNormalDocument) (hr : n.isRoot = true) :
    n = root n.children := by
  cases n with
  | text => exact h.elim
  | element tag as st cs =>
    obtain rfl : tag = rootTag := by simpa [isRoot, tag?] using hr
    rw [IsNormalDocument, if_pos rfl] at h
    obtain ⟨rfl, rfl, -⟩ := h
    rfl

/-- The top-level nodes of a document can stand between tags, and make up the document. -/
theorem IsNormalDocument.topLevel {n : Node} (h : n.IsNormalDocument) :
    AllNormal n.topLevel ∧ TextsApart n.topLevel ∧ ofTopLevel n.topLevel = n := by
  cases n with
  | text t => exact h.elim
  | element tag as st cs =>
    rw [IsNormalDocument] at h
    split_ifs at h with htag
    · obtain ⟨rfl, rfl, hapart, hns, hone⟩ := h
      subst htag
      exact ⟨hns, hapart, ofTopLevel_eq_root hone⟩
    · have htop : Node.topLevel (.element tag as st cs) = [.element tag as st cs] := by
        simp [Node.topLevel, isRoot, tag?, htag]
      rw [htop]
      exact ⟨⟨h, trivial⟩, .singleton _, rfl⟩

/-! ## Elements of normal documents -/

/-- Attributes, declarations and texts of an element that HTML can express. -/
structure IsNormalTag (tag : Text) (as st : Attrs) (cs : List Node) : Prop where
  attributes : ∀ e ∈ as.entries, IsAttribute e
  style : ∀ e ∈ st.entries, Style.IsDeclaration e
  texts : ∀ t, .text t ∈ cs → t ≠ [] ∧
    if isRaw tag = true then trim isBlank t = t else Text.collapse t = t
  apart : TextsApart cs

mutual

/-- **All elements of what can stand between tags are of this kind.** -/
theorem IsNormal.everywhere {n : Node} (h : n.IsNormal) : n.Everywhere IsNormalTag := by
  cases n with
  | text => trivial
  | element tag as st cs =>
    have hapart := h.textsApart
    obtain ⟨-, hattrs, hstyle, -, hcs⟩ := h
    split_ifs at hcs with hraw
    · refine ⟨⟨hattrs, hstyle, fun t ht => ?_, hapart⟩, ?_⟩
      · rw [if_pos hraw]
        match cs, hcs, ht with
        | [.text _], hcs, ht =>
          cases List.mem_singleton.1 ht
          exact ⟨hcs.1, hcs.2.1⟩
      · match cs, hcs with
        | [], _ => trivial
        | [.text _], _ => exact ⟨trivial, trivial⟩
    · refine ⟨⟨hattrs, hstyle, fun t ht => ?_, hapart⟩, AllNormal.everywhere hcs.2⟩
      rw [if_neg hraw]
      exact allNormal_iff.1 hcs.2 _ ht

theorem AllNormal.everywhere {ns : List Node} (h : AllNormal ns) :
    AllEverywhere IsNormalTag ns := by
  cases ns with
  | nil => trivial
  | cons n ns => exact ⟨IsNormal.everywhere h.1, AllNormal.everywhere h.2⟩

end

theorem IsNormalDocument.everywhere {n : Node} (h : n.IsNormalDocument) :
    n.Everywhere IsNormalTag := by
  cases n with
  | text => trivial
  | element tag as st cs =>
    rw [IsNormalDocument] at h
    split_ifs at h with htag
    · obtain ⟨rfl, rfl, hapart, hcs, -⟩ := h
      subst htag
      refine ⟨⟨List.forall_mem_nil _, List.forall_mem_nil _, fun t ht => ?_, hapart⟩,
        hcs.everywhere⟩
      exact allNormal_iff.1 hcs _ ht
    · exact h.everywhere

/-! ## Order of attributes -/

mutual

/-- **The order of attributes does not matter.** -/
theorem IsNormal.same {n m : Node} (h : n.IsNormal) (hs : n.Same m) : m.IsNormal := by
  cases n <;> cases m
  case text.text => exact (hs : _ = _) ▸ h
  case element.element =>
    obtain ⟨rfl, has, hst, hcs⟩ := hs
    obtain ⟨htag, hattrs, hstyle, hvoid, hchildren⟩ := h
    refine ⟨htag, fun e he => hattrs e (has.entries.2 he), fun e he => hstyle e (hst.entries.2 he),
      fun hv => List.length_eq_zero_iff.1 (hcs.length ▸ List.length_eq_zero_iff.2 (hvoid hv)), ?_⟩
    split_ifs at hchildren ⊢
    · exact hchildren.same hcs
    · exact ⟨hchildren.1.same hcs, AllNormal.same hchildren.2 hcs⟩
  all_goals exact hs.elim

theorem AllNormal.same {ns ms : List Node} (h : AllNormal ns) (hs : SameAll ns ms) :
    AllNormal ms := by
  cases ns <;> cases ms
  case nil.nil => trivial
  case cons.cons => exact ⟨IsNormal.same h.1 hs.1, AllNormal.same h.2 hs.2⟩
  all_goals exact hs.elim

end

theorem IsNormalDocument.same {n m : Node} (h : n.IsNormalDocument) (hs : n.Same m) :
    m.IsNormalDocument := by
  cases n <;> cases m
  case text.text => exact h
  case element.element tag as st cs _ bs rt ds =>
    have hs' := hs
    obtain ⟨rfl, has, hst, hcs⟩ := hs
    rw [IsNormalDocument] at h ⊢
    split_ifs at h ⊢
    · obtain ⟨rfl, rfl, hapart, hns, hone⟩ := h
      refine ⟨Attrs.eq_empty_iff.2 fun e he => ?_, Attrs.eq_empty_iff.2 fun e he => ?_,
        hapart.same hcs, hns.same hcs, ?_⟩
      · cases has.entries.2 he
      · cases hst.entries.2 he
      · rintro m rfl
        obtain ⟨n, rfl⟩ := List.length_eq_one_iff.1 hcs.length
        exact hcs.1.isText ▸ hone n rfl
    · exact h.same hs'
  all_goals exact hs.elim

end Node

/-! ## Documents that are printed and read back -/

/-- An attribute that a printed tag says: the name is a word, classes have single spaces between
them, and the style has no value. -/
structure IsPrintable (e : Entry) : Prop where
  name : IsWord e.1
  classes : e.1 = className → Text.collapse e.2 = e.2
  style : e.1 = styleName → e.2 = []

theorem IsAttribute.isPrintable {e : Entry} (h : IsAttribute e) : IsPrintable e :=
  ⟨⟨h.name_ne, h.name⟩, h.classes, fun hs => absurd hs h.name_ne_style⟩

/-- Attributes and declarations that a printed tag says: the style is either an attribute or
declarations that are read as they are written. -/
structure IsPrintableTag (attributes style : Attrs) : Prop where
  entries : ∀ e ∈ attributes.entries, IsPrintable e
  exclusive : attributes.has styleName = true → style.isEmpty = true
  declarations : Style.readDeclarations (Style.writeDeclarations style) = style

theorem isPrintableTag_of {attributes style : Attrs} (ha : ∀ e ∈ attributes.entries, IsAttribute e)
    (hs : ∀ e ∈ style.entries, Style.IsDeclaration e) : IsPrintableTag attributes style where
  entries e he := (ha e he).isPrintable
  exclusive h := by
    obtain ⟨v, hv⟩ := Option.isSome_iff_exists.1 h
    exact absurd rfl (ha _ (Attrs.mem_of_find? hv)).name_ne_style
  declarations := Style.readDeclarations_writeDeclarations hs

namespace Node

mutual

/-- A node that is read back from between tags. -/
def IsPrintable : Node → Prop
  | .text t => t ≠ [] ∧ Text.collapse t = t
  | .element tag attributes style children =>
    IsTagName tag ∧ IsPrintableTag attributes style ∧ (isVoid tag = true → children = []) ∧
      if isRaw tag = true then IsKept tag children else TextsApart children ∧ AllPrintable children

/-- All nodes of a list are read back from between tags. -/
def AllPrintable : List Node → Prop
  | [] => True
  | n :: ns => IsPrintable n ∧ AllPrintable ns

end

theorem allPrintable_iff {ns : List Node} : AllPrintable ns ↔ ∀ n ∈ ns, n.IsPrintable := by
  induction ns with
  | nil => simp [AllPrintable]
  | cons n ns ih => simp [AllPrintable, ih]

/-- A document whose top-level nodes are read back, and make it up. -/
structure IsPrintableDocument (n : Node) : Prop where
  all : AllPrintable n.topLevel
  apart : TextsApart n.topLevel
  ofTopLevel : ofTopLevel n.topLevel = n

mutual

/-- **A normal node is read back.** -/
theorem IsNormal.isPrintable {n : Node} (h : n.IsNormal) : n.IsPrintable := by
  cases n with
  | text t => exact h
  | element tag attributes style children =>
    obtain ⟨htag, ha, hs, hvoid, hchildren⟩ := h
    refine ⟨htag, isPrintableTag_of ha hs, hvoid, ?_⟩
    split_ifs at hchildren ⊢
    · exact hchildren
    · exact ⟨hchildren.1, AllNormal.allPrintable hchildren.2⟩

theorem AllNormal.allPrintable {ns : List Node} (h : AllNormal ns) : AllPrintable ns := by
  cases ns with
  | nil => trivial
  | cons n ns => exact ⟨IsNormal.isPrintable h.1, AllNormal.allPrintable h.2⟩

end

theorem IsNormalDocument.isPrintable {n : Node} (h : n.IsNormalDocument) : n.IsPrintableDocument :=
  ⟨h.topLevel.1.allPrintable, h.topLevel.2.1, h.topLevel.2.2⟩

end Node

end MarkupSync
