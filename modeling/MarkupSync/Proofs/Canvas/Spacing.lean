import MarkupSync.Document.Source
import MarkupSync.Proofs.Canvas.Stands
import MarkupSync.Proofs.Document.Image

/-!
# White space in documents that were read

* `Decoration.runText?_idem`: what is shown of a run of text is shown as it is;
* `Node.IsSpaced`: texts and classes have the white space that is shown of them, and a style is
  either an attribute or declarations;
* `yields_isSpaced`: such nodes are made of the lexemes of a text;
* `Node.isSpaced_ofTopLevel`: documents of such nodes;
* **`Document.isSpaced_ofSource`**: documents of source files are made of such nodes.
-/

namespace MarkupSync

open Text

/-! ## Texts -/

namespace Decoration

/-- What is shown of a run of text is shown as it is. -/
theorem runText?_idem {raw : Bool} {s t : Text} (h : runText? raw s = some t) :
    runText? raw t = some t := by
  cases raw with
  | false =>
    replace h : collapsed? s = some t := h
    rw [← h]
    rw [collapsed?] at h
    split at h
    · cases h
    · cases h
      exact collapsed?_congr (words_collapse s)
  | true =>
    obtain ⟨a, b, hs, ha, hb, -⟩ := exists_trim s
    rw [runText?_raw] at h
    split at h
    · cases h
    next hne =>
      cases h
      have hblank : runText? true (a ++ trim isBlank s ++ b) = runText? true (trim isBlank s) :=
        runText?_blank ha hb
      rw [← hs] at hblank
      rw [← hblank, runText?_raw, if_neg hne]

/-- A text that is shown as it is between tags is so as well where content is kept as it is. -/
theorem runText?_raw_of_false {t : Text} (h : runText? false t = some t) :
    runText? true t = some t := by
  have hcollapse : collapse t = t ∧ t ≠ [] := by
    replace h : collapsed? t = some t := h
    rw [collapsed?] at h
    split at h
    · cases h
    next hne =>
      have h := Option.some.inj h
      exact ⟨h, h ▸ hne⟩
  rw [runText?_raw, ← hcollapse.1, trim_collapse, hcollapse.1, if_neg hcollapse.2]

end Decoration

/-! ## Nodes -/

/-- Classes have single spaces between them, a style is either declarations or an attribute without
a value or with an expression, and in HTML texts have the white space that is shown of them. -/
structure Node.IsSpacedTag (flavor : Flavor) (tag : Text) (as st : Attrs) (cs : List Node) :
    Prop where
  classes : ∀ e ∈ as.entries, e.1 = className → isExpression e.2 = false → collapse e.2 = e.2
  styles : ∀ e ∈ as.entries, e.1 = styleName → e.2 = [] ∨ isExpression e.2 = true
  style : as.has styleName = true → st.isEmpty = true
  texts : flavor = .html → ∀ t, .text t ∈ cs → Decoration.runText? (isRaw tag) t = some t

/-- A node, below a tag, with the white space that is shown of it. -/
def Node.IsSpaced (flavor : Flavor) (raw : Bool) : Node → Prop
  | .text t => flavor = .html → Decoration.runText? raw t = some t
  | .element tag as st cs =>
    tag ≠ rootTag ∧ (element tag as st cs).Everywhere (IsSpacedTag flavor)

/-- **The lexemes of a text make nodes with the white space that is shown of them.** -/
theorem yields_isSpaced (flavor : Flavor) :
    flavor.Yields (Lexeme.IsOf flavor) (Node.IsSpaced flavor) where
  raw {n} h := by
    cases n with
    | text t => exact fun hflavor => Decoration.runText?_raw_of_false (h hflavor)
    | element => exact h
  text {run content} h := by
    rintro rfl
    have hrun : Decoration.runText? false (decodeEntities run) = some content := h
    exact Decoration.runText?_idem hrun
  expression h := by
    rintro rfl
    cases h
  rawChild {t} ht n hn := by
    obtain ⟨r, hr, hne, hn⟩ := OpenTag.exists_of_mem_rawChild hn
    rw [hn, (ht.raw r hr).1]
    intro _
    rw [Decoration.runText?_raw, trim_trim, if_neg hne]
  element {t stop inner children} ht hchildren _ := by
    refine ⟨ht.name.ne_rootTag,
      ⟨t.classes_content, t.styles_content, t.style_content, fun hflavor s hs => ?_⟩,
      Node.allEverywhere_iff.2 fun n hn => ?_⟩
    · obtain ⟨x, hx, hxs⟩ := List.mem_map.1 hs
      have hx := hchildren x hx
      rw [hxs] at hx
      exact hx hflavor
    · obtain ⟨x, hx, rfl⟩ := List.mem_map.1 hn
      have hx := hchildren x hx
      cases hnode : x.1 with
      | text => trivial
      | element tag as st cs =>
        rw [hnode] at hx
        exact hx.2

/-- What such nodes make has the white space that is shown of it, and they are its top-level nodes. -/
theorem Node.isSpaced_ofTopLevel {flavor : Flavor} {nodes : List Node}
    (h : ∀ n ∈ nodes, n.IsSpaced flavor false) :
    (ofTopLevel nodes).Everywhere (IsSpacedTag flavor) ∧ (ofTopLevel nodes).topLevel = nodes ∧
      ∀ n ∈ nodes, n.isRoot = false := by
  have hroot : ∀ n ∈ nodes, n.isRoot = false := by
    intro n hn
    have hspaced := h n hn
    cases n with
    | text => rfl
    | element => simpa [isRoot, tag?] using hspaced.1
  have heverywhere : ∀ n ∈ nodes, n.Everywhere (IsSpacedTag flavor) := fun n hn => by
    cases n with
    | text => trivial
    | element => exact (h _ hn).2
  refine ⟨?_, topLevel_ofTopLevel hroot, hroot⟩
  rw [ofTopLevel.eq_def]
  split
  · exact heverywhere _ List.mem_cons_self
  · exact ⟨⟨List.forall_mem_nil _, List.forall_mem_nil _, fun _ => rfl,
      fun hflavor t ht => h _ ht hflavor⟩, allEverywhere_iff.2 heverywhere⟩

/-! ## Documents -/

namespace Document

variable {dialect : Dialect} {s : Text} {d : Document}

theorem exists_nodes_ofSource (h : ofSource dialect s = .ok d) :
    ∃ nodes, d.root = Node.ofTopLevel nodes ∧ ∀ n ∈ nodes, n.IsSpaced dialect.flavor false := by
  have hscript {d : Document} (h : (readScript s).map Prod.fst = .ok d) :
      ∃ nodes, d.root = Node.ofTopLevel nodes ∧ ∀ n ∈ nodes, n.IsSpaced .jsx false := by
    obtain ⟨⟨d', region⟩, hread, rfl⟩ := exists_of_map_eq_ok h
    rw [readScript] at hread
    split at hread
    · cases hread
    next span _ =>
      split at hread
      · cases hread
      next d'' stop hroot =>
        cases hread
        exact of_readRootAt (yields_isSpaced .jsx) (fun _ => isOf_of_mem_scan) hroot
  cases dialect with
  | html => exact of_readAt (yields_isSpaced .html) (fun _ => isOf_of_mem_scan) h
  | vue =>
    rw [ofSource, readTemplate] at h
    split at h
    · cases h
    · exact of_readAt (yields_isSpaced .html) (fun _ => isOf_of_mem_scan) h
  | jsx | tsx => exact hscript h

/-- **Documents of source files have the white space that is shown of them**, and are what their
top-level nodes make. -/
theorem isSpaced_ofSource (h : ofSource dialect s = .ok d) :
    d.root.Everywhere (Node.IsSpacedTag dialect.flavor) ∧ d.root = .ofTopLevel d.root.topLevel := by
  obtain ⟨nodes, hroot, hnodes⟩ := exists_nodes_ofSource h
  obtain ⟨hspaced, htop, -⟩ := Node.isSpaced_ofTopLevel hnodes
  rw [hroot, htop]
  exact ⟨hspaced, rfl⟩

end Document

end MarkupSync
