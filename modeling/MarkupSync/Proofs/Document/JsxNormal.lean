import MarkupSync.Printer
import MarkupSync.Proofs.Document.Normal
import MarkupSync.Proofs.Style.Object

/-!
# Documents that JSX can express

* `IsClosed`: code in braces that ends at the brace that closes the first one;
* `IsSpread`, `IsJsxNamed`, `IsJsxAttribute`: attributes that can be written in JSX;
* `PlainTextsApart`: children no two of which would be read as one text;
* `Node.IsJsxNormal`, `Node.AllJsxNormal`: nodes that can stand between tags in JSX;
* `Node.IsJsxDocument`: documents.
-/

namespace MarkupSync

open Text

/-! ## Code in braces -/

/-- Code in braces, the last of which closes the first. -/
def IsClosed (t : Text) : Prop :=
  t.head? = some '\x7b' ∧ closeBraces? t.tail = some (t.tail, [])

instance (t : Text) : Decidable (IsClosed t) := inferInstanceAs (Decidable (_ ∧ _))

theorem IsClosed.exists_cons {t : Text} (h : IsClosed t) :
    ∃ s, t = '\x7b' :: s ∧ closeBraces? s = some (s, []) := by
  cases t with
  | nil => cases h.1
  | cons c s =>
    obtain rfl : c = '\x7b' := Option.some.inj h.1
    exact ⟨s, rfl, h.2⟩

theorem isExpression_braces (s : Text) : isExpression ('\x7b' :: s ++ ['\x7d']) = true := by
  simp [isExpression]

/-- Code in braces is what stands between its first and its last character. -/
theorem eq_of_isExpression {t : Text} (h : isExpression t = true) :
    t = '\x7b' :: (t.tail.dropLast ++ ['\x7d']) := by
  fun_cases isExpression t with
  | case1 s =>
    have hlast : s.getLast? = some '\x7d' := by simpa [isExpression] using h
    obtain ⟨u, rfl⟩ := List.getLast?_eq_some_iff.1 hlast
    simp
  | case2 => simp_all [isExpression]

/-! ## Attributes -/

/-- A spread stands in place of a name and has no value. -/
def IsSpread (e : Entry) : Prop := IsClosed e.1 ∧ e.2 = []

instance (e : Entry) : Decidable (IsSpread e) := inferInstanceAs (Decidable (_ ∧ _))

/-- The name is a word and not one that JSX has for another name, classes have single spaces
between them, and a style is code that is no object with declarations. -/
structure IsJsxNamed (e : Entry) : Prop where
  name_ne : e.1 ≠ []
  name : e.1.all isWordChar = true
  not_renamed : Flavor.renamed.lookup e.1 = none
  closed : isExpression e.2 = true → IsClosed e.2
  classes : e.1 = className → isExpression e.2 = false → Text.collapse e.2 = e.2
  style : e.1 = styleName →
    isExpression e.2 = true ∧ Style.readObject? e.2.tail.dropLast = none

instance (e : Entry) : Decidable (IsJsxNamed e) :=
  decidable_of_iff (e.1 ≠ [] ∧ e.1.all isWordChar = true ∧ Flavor.renamed.lookup e.1 = none ∧
    (isExpression e.2 = true → IsClosed e.2) ∧
    (e.1 = className → isExpression e.2 = false → Text.collapse e.2 = e.2) ∧
    (e.1 = styleName → isExpression e.2 = true ∧ Style.readObject? e.2.tail.dropLast = none))
    ⟨fun ⟨a, b, c, d, e, f⟩ => ⟨a, b, c, d, e, f⟩, fun ⟨a, b, c, d, e, f⟩ => ⟨a, b, c, d, e, f⟩⟩

/-- An attribute that can be written in JSX. -/
def IsJsxAttribute (e : Entry) : Prop := IsSpread e ∨ IsJsxNamed e

instance (e : Entry) : Decidable (IsJsxAttribute e) := inferInstanceAs (Decidable (_ ∨ _))

/-! ## Nodes -/

/-- Whether a node is a text and no expression. -/
def Node.isPlainText : Node → Bool
  | .text t => !isExpression t
  | .element .. => false

/-- No two texts that are no expressions stand side by side. -/
def PlainTextsApart (ns : List Node) : Prop :=
  ns.IsChain fun a b => ¬ (a.isPlainText = true ∧ b.isPlainText = true)

instance (ns : List Node) : Decidable (PlainTextsApart ns) :=
  inferInstanceAs (Decidable (ns.IsChain _))

namespace Node

mutual

/-- A node that can stand between tags in JSX: an expression, a text that reads as it is, or an
element. -/
def IsJsxNormal : Node → Prop
  | .text t => if isExpression t = true then IsClosed t else joinedLines? t = some t
  | .element tag attributes style children =>
    IsTagName tag ∧ (isVoid tag = true → children = []) ∧
      (∀ e ∈ attributes.entries, IsJsxAttribute e) ∧
      (attributes.has styleName = true → style = .empty) ∧
      (∀ e ∈ style.entries, Style.IsObjectEntry e) ∧ PlainTextsApart children ∧
      AllJsxNormal children

/-- All nodes of a list can stand between tags in JSX. -/
def AllJsxNormal : List Node → Prop
  | [] => True
  | n :: ns => IsJsxNormal n ∧ AllJsxNormal ns

end

mutual

/-- Decides whether a node can stand between tags in JSX. -/
def decidableIsJsxNormal : (n : Node) → Decidable n.IsJsxNormal
  | .text t =>
    inferInstanceAs (Decidable (if isExpression t = true then IsClosed t else joinedLines? t = some t))
  | .element tag attributes style children =>
    have := decidableAllJsxNormal children
    inferInstanceAs (Decidable (IsTagName tag ∧ (isVoid tag = true → children = []) ∧
      (∀ e ∈ attributes.entries, IsJsxAttribute e) ∧
      (attributes.has styleName = true → style = .empty) ∧
      (∀ e ∈ style.entries, Style.IsObjectEntry e) ∧ PlainTextsApart children ∧
      AllJsxNormal children))

/-- Decides whether all nodes of a list can stand between tags in JSX. -/
def decidableAllJsxNormal : (ns : List Node) → Decidable (AllJsxNormal ns)
  | [] => inferInstanceAs (Decidable True)
  | n :: ns =>
    have := decidableIsJsxNormal n
    have := decidableAllJsxNormal ns
    inferInstanceAs (Decidable (n.IsJsxNormal ∧ AllJsxNormal ns))

end

instance (n : Node) : Decidable n.IsJsxNormal := decidableIsJsxNormal n

/-- An element that JSX can express, or a fragment around anything but a single element. -/
def IsJsxDocument : Node → Prop
  | .text _ => False
  | .element tag attributes style children =>
    if tag = rootTag then
      attributes = .empty ∧ style = .empty ∧ PlainTextsApart children ∧ AllJsxNormal children ∧
        ∀ n, children = [n] → n.isText = true
    else IsJsxNormal (.element tag attributes style children)

/-- What is said of a single node is checked on lists with one member. -/
theorem forall_mem_of_length_one_iff {ns : List Node} {P : Node → Prop} :
    (ns.length = 1 → ∀ n ∈ ns, P n) ↔ ∀ n, ns = [n] → P n := by
  constructor
  · rintro h n rfl
    exact h rfl n List.mem_cons_self
  · intro h hl n hn
    obtain ⟨m, rfl⟩ := List.length_eq_one_iff.1 hl
    rw [List.mem_singleton.1 hn]
    exact h m rfl

instance : (n : Node) → Decidable n.IsJsxDocument
  | .text _ => inferInstanceAs (Decidable False)
  | .element tag attributes style children =>
    have : Decidable (AllJsxNormal children) := decidableAllJsxNormal children
    have : Decidable (∀ n, children = [n] → n.isText = true) :=
      decidable_of_iff (children.length = 1 → ∀ n ∈ children, n.isText = true)
        forall_mem_of_length_one_iff
    inferInstanceAs (Decidable (if tag = rootTag then attributes = .empty ∧ style = .empty ∧
      PlainTextsApart children ∧ AllJsxNormal children ∧ ∀ n, children = [n] → n.isText = true
      else IsJsxNormal (.element tag attributes style children)))

end Node

end MarkupSync
