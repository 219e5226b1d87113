import MarkupSync.Proofs.Canvas.Trace

/-!
# The document that is read from the canvas

* `Canvas.readsAs_adaptAll`: texts and elements among the children of a node;
* **`Canvas.Stands.same_adaptNode`**, `Canvas.Hosts.same_adapt`: what stands for a document is read
  as that document;
* **`Canvas.ReadsAs.stands`**, `Canvas.hosts_of_adapt`: what is read as a document stands for it if
  every text of the document is one text of the canvas (`Canvas.IsPlain`).
-/

namespace MarkupSync

open Text

namespace Canvas

open Decoration

variable {c : Canvas} {d : Decoration} {raw : Bool} {x y : NodeId} {fuel : Nat}

/-! ## Children as they are read -/

/-- A node of the canvas is read as a node of the document. -/
def ReadsAs (c : Canvas) (d : Decoration) (raw : Bool) (fuel : Nat) (x : NodeId) : Node → Prop
  | .text t => c.StandsForText raw x t
  | .element tag as st cs =>
    (∃ name live, c.data? x = some (.element name live)) ∧
      d.adaptNode .html (c.viewFrom fuel x) = .element tag as st cs

theorem TracesTo.readsAs {t : Traced} (h : c.TracesTo d raw fuel x t)
    (hs : c.isSignificant d x = true) (hf : c.nodes.length < c.depth x + fuel) :
    c.ReadsAs d raw fuel x t.toNode := by
  cases h with
  | text hx ht =>
    rw [isSignificant_text hx, Bool.not_eq_true'] at hs
    exact ⟨_, hx, hs, ht⟩
  | element hx =>
    obtain ⟨k, rfl⟩ := fuel_pos hf
    rw [toNode_traceNode, viewFrom_element hx, adaptNode, ReadsAs, viewFrom_element hx, adaptNode]
    exact ⟨⟨_, _, hx⟩, rfl⟩

/-- **Children are read one by one** if every text of the document is one text of the canvas. -/
theorem readsAs_adaptAll (hc : c.IsForest) (raw : Bool)
    (hfuel : ∀ y ∈ c.children x, c.nodes.length < c.depth y + fuel) (hgaps : c.HasBlankGaps x)
    (hapart : (c.significant d x).IsChain
      fun y z => ¬ (c.isElement y = false ∧ c.isElement z = false)) :
    List.Forall₂ (c.ReadsAs d raw fuel) (c.significant d x)
      (d.adaptAll .html raw [] ((c.children x).map (c.viewFrom fuel))) := by
  have hread := (hasBlankGaps_iff (d := d) hc).1 hgaps
  have htraces := tracesTo_traceAll hc raw hfuel (hread ▸ hapart)
  rw [← hread] at htraces
  have hnodes : Traced.toNodes (d.traceAll raw [] ((c.children x).map (c.viewFrom fuel))) =
      d.adaptAll .html raw [] ((c.children x).map (c.viewFrom fuel)) := toNodes_traceAll _
  rw [Traced.toNodes_eq_map] at hnodes
  refine hnodes ▸ List.forall₂_map_right_iff.2 ?_
  obtain ⟨hlen, hall⟩ := List.forall₂_iff_zip.1 htraces
  refine List.forall₂_iff_zip.2 ⟨hlen, fun {y t} hmem => ?_⟩
  obtain ⟨hy, hs⟩ := mem_significant.1 (List.of_mem_zip hmem).1
  exact (hall hmem).readsAs hs (hfuel y hy)

/-! ## What stands for a document is read as it -/

/-- What is read of a node is what it stands for. -/
theorem ReadsAs.same {n m : Node} (h : c.ReadsAs d raw fuel x m) (hn : c.Stands d raw x n)
    (hin : n.isElement = true → (d.adaptNode .html (c.viewFrom fuel x)).Same n) : m.Same n := by
  cases m with
  | text t =>
    obtain ⟨s, hx, -, ht⟩ := h
    cases n with
    | text u =>
      obtain ⟨s', hx', -, hu⟩ := stands_text.1 hn
      cases hx.symm.trans hx'
      exact Option.some.inj (ht.symm.trans hu)
    | element =>
      obtain ⟨live, hx', -⟩ := (stands_element.1 hn).1
      cases hx.symm.trans hx'
  | element tag as st cs =>
    obtain ⟨⟨name, live, hx⟩, hread⟩ := h
    exact hread ▸ hin (hn.isElement.symm.trans (isElement_of_data? hx))

theorem sameAll_of_readsAs {ys : List NodeId} {ms ns : List Node}
    (h : List.Forall₂ (c.ReadsAs d raw fuel) ys ms) (hs : List.Forall₂ (c.Stands d raw) ys ns)
    (hin : ∀ y ∈ ys, ∀ n ∈ ns, n.isElement = true → c.Stands d raw y n →
      (d.adaptNode .html (c.viewFrom fuel y)).Same n) : Node.SameAll ms ns := by
  induction h generalizing ns with
  | nil =>
    cases hs
    exact .refl _
  | cons hread _ ih =>
    cases hs with
    | cons hn hs =>
      exact ⟨hread.same hn fun hel => hin _ List.mem_cons_self _ List.mem_cons_self hel hn,
        ih hs fun y hy m hm => hin y (List.mem_cons_of_mem _ hy) m (List.mem_cons_of_mem _ hm)⟩

theorem map_isElement_of_stands {ys : List NodeId} {ns : List Node}
    (h : List.Forall₂ (c.Stands d raw) ys ns) : ys.map c.isElement = ns.map Node.isElement := by
  induction h with
  | nil => rfl
  | cons hn _ ih => rw [List.map_cons, List.map_cons, hn.isElement, ih]

/-- Nodes that stand for texts have an element between them if the texts have. -/
theorem apart_of_textsApart {ys : List NodeId} {ns : List Node}
    (h : List.Forall₂ (c.Stands d raw) ys ns) (hapart : TextsApart ns) :
    ys.IsChain fun y z => ¬ (c.isElement y = false ∧ c.isElement z = false) := by
  have hns : (ns.map Node.isElement).IsChain fun a b => ¬ (a = false ∧ b = false) :=
    List.isChain_map _ |>.2 (hapart.imp fun _ _ hab => by simpa [Node.isText] using hab)
  rw [← map_isElement_of_stands h] at hns
  exact List.isChain_map _ |>.1 hns

/-- **Children that stand for the children of an element are read as these.** -/
theorem Hosts.sameAll_adaptAll {ns : List Node} (h : c.Hosts d raw x ns) (hc : c.IsForest)
    (hfuel : ∀ y ∈ c.children x, c.nodes.length < c.depth y + fuel)
    (hin : ∀ y ∈ c.children x, ∀ n ∈ ns, n.isElement = true → c.Stands d raw y n →
      (d.adaptNode .html (c.viewFrom fuel y)).Same n)
    (hapart : TextsApart ns) :
    Node.SameAll (d.adaptAll .html raw [] ((c.children x).map (c.viewFrom fuel))) ns :=
  sameAll_of_readsAs (readsAs_adaptAll hc raw hfuel h.1 (apart_of_textsApart h.2 hapart)) h.2
    fun y hy => hin y (mem_significant.1 hy).1

/-- **What stands for an element is read as the element.** -/
theorem Stands.same_adaptNode (hc : c.IsForest) {n : Node} (h : c.Stands d raw x n)
    (hn : n.IsNormal) (hel : n.isElement = true) (hf : c.nodes.length < c.depth x + fuel) :
    (d.adaptNode .html (c.viewFrom fuel x)).Same n := by
  induction fuel generalizing raw x n with
  | zero =>
    obtain ⟨k, hk⟩ := fuel_pos hf
    cases hk
  | succ fuel ih =>
    cases n with
    | text => cases hel
    | element tag as st cs =>
      obtain ⟨⟨live, hx, hreads⟩, hhosts⟩ := stands_element.1 h
      rw [viewFrom_element hx, adaptNode]
      refine ⟨rfl, fun n => ?_, ?_, ?_⟩
      · rw [find?_head]
        exact hreads.attributes n
      · rw [style_head]
        exact hreads.style
      · have hfuel : ∀ y ∈ c.children x, c.nodes.length < c.depth y + fuel :=
          fun y hy => hc.fuel_child hy hf
        exact hhosts.sameAll_adaptAll hc hfuel
          (fun y hy m hm hel hs => ih hs (hn.of_mem hm hel) hel (hfuel y hy)) hn.textsApart

/-- **What stands for the top-level nodes of a document is read as the document.** -/
theorem Hosts.same_adapt (hc : c.IsForest) {name : Text} {live : Attrs}
    (hx : c.data? container = some (.element name live)) {ns : List Node}
    (h : c.Hosts d false container ns) (hns : Node.AllNormal ns) (hapart : TextsApart ns) :
    (c.adapt d .html).Same (.ofTopLevel ns) := by
  have hfuel := hc.fuel_container hx
  have hall := h.sameAll_adaptAll hc hfuel (fun y hy m hm hel hs =>
    hs.same_adaptNode hc (Node.allNormal_iff.1 hns m hm) hel (hfuel y hy)) hapart
  rw [adapt_eq hx]
  exact hall.ofTopLevel

/-! ## What is read as a document stands for it -/

/-- A node that is reached from the container without passing decoration. -/
inductive Shown (c : Canvas) (d : Decoration) : NodeId → Prop
  | container : Shown c d Canvas.container
  | child {x y : NodeId} (hx : Shown c d x) (hy : y ∈ c.significant d x) : Shown c d y

/-- Every text of the document is one text of the canvas: texts that stand for nothing are blank,
and two texts that stand for something have an element of the document between them. -/
structure IsPlain (c : Canvas) (d : Decoration) : Prop where
  gaps : ∀ x, c.Shown d x → c.HasBlankGaps x
  apart : ∀ x, c.Shown d x → c.isElement x = true →
    (c.significant d x).IsChain fun y z => ¬ (c.isElement y = false ∧ c.isElement z = false)

/-- An element that the canvas can stand for. -/
def IsReadable (_tag : Text) (as _st : Attrs) (_cs : List Node) : Prop :=
  as.find? styleName = none

/-- **What is read as a node of the document stands for it.** -/
theorem ReadsAs.stands (hc : c.IsForest) (hp : c.IsPlain d)
    (hbraces : ∀ x, c.Shown d x → d.HasPlainClasses (c.attributes x)) {n : Node}
    (h : c.ReadsAs d raw fuel x n) (hx : c.Shown d x) (hs : c.isSignificant d x = true)
    (hn : n.Everywhere IsReadable) (hf : c.nodes.length < c.depth x + fuel) :
    c.Stands d raw x n := by
  induction fuel generalizing raw x n with
  | zero =>
    obtain ⟨k, hk⟩ := fuel_pos hf
    cases hk
  | succ fuel ih =>
    cases n with
    | text t => exact stands_text.2 h
    | element tag as st cs =>
      obtain ⟨⟨name, live, hdata⟩, hread⟩ := h
      obtain ⟨hstyle, hcs⟩ := hn
      rw [viewFrom_element hdata, adaptNode] at hread
      cases hread
      rw [isSignificant_element hdata, Bool.not_eq_true'] at hs
      have hfuel : ∀ y ∈ c.children x, c.nodes.length < c.depth y + fuel :=
        fun y hy => hc.fuel_child hy hf
      have hall := readsAs_adaptAll hc (isRaw tag) hfuel (hp.gaps x hx)
        (hp.apart x hx (isElement_of_data? hdata))
      have hplain := attributes_of_data? hdata ▸ hbraces x hx
      refine stands_element.2 ⟨⟨live, hdata, hs, hplain, fun n => (find?_head d live n).symm,
        by rw [style_head], hstyle⟩, hp.gaps x hx, ?_⟩
      · obtain ⟨hlen, hall⟩ := List.forall₂_iff_zip.1 hall
        refine List.forall₂_iff_zip.2 ⟨hlen, fun {y m} hmem => ?_⟩
        obtain ⟨hy, hm⟩ := List.of_mem_zip hmem
        have hys := mem_significant.1 hy
        exact ih (hall hmem) (hx.child hy) hys.2 (Node.allEverywhere_iff.1 hcs m hm) (hfuel y hys.1)

theorem everywhere_isReadable {n : Node} (h : n.IsNormal) : n.Everywhere IsReadable :=
  h.everywhere.mono fun h => Attrs.find?_eq_none_iff.2 fun hs => by
    obtain ⟨e, he, hs⟩ := List.mem_map.1 hs
    exact (h.attributes e he).name_ne_style hs

theorem exists_getElem?_of_forall₂ {α β : Type} {R : α → β → Prop} {l : List α} {m : List β}
    (h : List.Forall₂ R l m) {i : Nat} {b : β}
    (hb : m[i]? = some b) : ∃ a, l[i]? = some a ∧ R a b := by
  obtain ⟨hlen, hall⟩ := List.forall₂_iff_get.1 h
  obtain ⟨hi, rfl⟩ := List.getElem?_eq_some_iff.1 hb
  exact ⟨l[i], List.getElem?_eq_getElem _, hall i (hlen ▸ hi) hi⟩

theorem exists_of_forall₂ {α β : Type} {R : α → β → Prop} {l : List α} {m : List β}
    (h : List.Forall₂ R l m) {b : β} (hb : b ∈ m) : ∃ a ∈ l, R a b := by
  obtain ⟨i, hi⟩ := List.getElem?_of_mem hb
  obtain ⟨a, ha, hab⟩ := exists_getElem?_of_forall₂ h hi
  exact ⟨a, List.mem_of_getElem? ha, hab⟩

theorem isRoot_of_readsAs (hf : c.nodes.length < c.depth x + fuel) {n : Node}
    (h : c.ReadsAs d raw fuel x n) (hx : c.tag? x ≠ some Node.rootTag) : n.isRoot = false := by
  obtain ⟨k, rfl⟩ := fuel_pos hf
  cases n with
  | text => rfl
  | element tag as st cs =>
    obtain ⟨⟨name, live, hdata⟩, h⟩ := h
    rw [viewFrom_element hdata, adaptNode] at h
    cases h
    obtain ⟨p, zs, hget⟩ := exists_get? hdata
    rw [tag?, hget] at hx
    simpa [Node.isRoot, Node.tag?] using hx

/-- **The top-level nodes of a document that is read from a canvas have nodes of the container that
stand for them.** -/
theorem hosts_of_adapt (hc : c.IsForest) (hp : c.IsPlain d)
    (hbraces : ∀ x, c.Shown d x → d.HasPlainClasses (c.attributes x)) {name : Text} {live : Attrs}
    (hx : c.data? container = some (.element name live))
    (htop : ∀ x ∈ c.significant d container, c.tag? x ≠ some Node.rootTag) {n : Node}
    (h : (c.adapt d .html).Same n) (hn : n.IsNormalDocument) :
    c.Hosts d false container n.topLevel := by
  have hfuel := hc.fuel_container hx
  have hall := readsAs_adaptAll hc false hfuel (hp.gaps container .container)
    (hp.apart container .container (isElement_of_data? hx))
  rw [adapt_eq hx] at h
  generalize d.adaptAll .html false [] _ = ms at h hall
  have hroot : ∀ m ∈ ms, m.isRoot = false := by
    intro m hm
    obtain ⟨y, hy, hread⟩ := exists_of_forall₂ hall hm
    exact isRoot_of_readsAs (hfuel y (mem_significant.1 hy).1) hread (htop y hy)
  obtain ⟨hlen, hall⟩ := List.forall₂_iff_zip.1 hall
  have htopLevel := Node.topLevel_ofTopLevel hroot
  have hnormal := (hn.same h.symm).topLevel.1
  rw [htopLevel] at hnormal
  have hsame := h.topLevel
  rw [htopLevel] at hsame
  refine ⟨hp.gaps container .container, standAll_iff.1 ((standAll_iff.2 ?_).same hsame)⟩
  refine List.forall₂_iff_zip.2 ⟨hlen, fun {y m} hmem => ?_⟩
  obtain ⟨hy, hm⟩ := List.of_mem_zip hmem
  have hys := mem_significant.1 hy
  exact (hall hmem).stands hc hp hbraces (.child .container hy) hys.2
    (everywhere_isReadable (Node.allNormal_iff.1 hnormal m hm)) (hfuel y hys.1)

end Canvas

end MarkupSync
