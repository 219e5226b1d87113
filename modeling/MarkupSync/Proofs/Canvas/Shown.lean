import MarkupSync.Proofs.Canvas.Adapt
import MarkupSync.Proofs.Canvas.Built
import MarkupSync.Proofs.Canvas.Render

/-!
# Documents that the canvas shows as they are

* `Node.live`, `Node.allLive`: documents as they are seen on a canvas;
* `Canvas.Mirrors.adaptNode_eq`: copies of documents are read as these;
* **`Canvas.adapt_createAll`**: new nodes behind the decoration of the container are all that is read;
* **`Canvas.exists_redrawn`**: a canvas that shows another document;
* `Decoration.shownText?`: what is read of a text that stands by itself on the canvas;
* `Decoration.IsShownTag`: elements whose copies are read as they are, down to their texts;
* `Canvas.adaptNode_live`, **`Canvas.adaptAll_allLive`**: such elements, and lists of children;
* **`Canvas.adapt_render`**: a document that is shown on the canvas is read back as it is.
-/

namespace MarkupSync

namespace Node

mutual

/-- A document as it is seen on a canvas. -/
def live : Node → Live
  | .text t => .text 0 t
  | .element tag as st children => .element 0 tag (Canvas.writtenAttributes as st) (allLive children)

/-- Documents as they are seen on a canvas. -/
def allLive : List Node → List Live
  | [] => []
  | n :: ns => n.live :: allLive ns

end

end Node

namespace Canvas

open Decoration

variable {c c' : Canvas} {d : Decoration} {flavor : Flavor} {raw : Bool} {fuel : Nat} {x : NodeId}

/-! ## Copies -/

/-- Copies of children are read as the children. -/
theorem MirrorAll.adaptAll_eq {xs : List NodeId} {ns : List Node} (h : c.MirrorAll xs ns)
    (hfuel : ∀ x ∈ xs, c.nodes.length < c.depth x + fuel)
    (hin : ∀ x ∈ xs, ∀ n, c.Mirrors x n →
      d.adaptNode flavor (c.viewFrom fuel x) = d.adaptNode flavor n.live) (run : Text) :
    d.adaptAll flavor raw run (xs.map (c.viewFrom fuel)) =
      d.adaptAll flavor raw run (Node.allLive ns) := by
  induction xs generalizing ns run with
  | nil => cases ns with
    | nil => rfl
    | cons => exact h.elim
  | cons x xs ih => cases ns with
    | nil => exact h.elim
    | cons n ns =>
      obtain ⟨hx, hxs⟩ := h
      obtain ⟨k, rfl⟩ := fuel_pos (hfuel x List.mem_cons_self)
      have hrest := ih hxs (fun y hy => hfuel y (List.mem_cons_of_mem x hy))
        fun y hy => hin y (List.mem_cons_of_mem x hy)
      rw [List.map_cons, Node.allLive]
      cases n with
      | text t =>
        rw [viewFrom_text hx, Node.live, adaptAll, adaptAll, hrest, hrest]
      | element tag as st cs =>
        have hread := hin x List.mem_cons_self _ hx
        rw [viewFrom_element hx.1] at hread ⊢
        rw [Node.live] at hread ⊢
        rw [adaptAll_element, adaptAll_element, hread, hrest, hrest]

/-- **A copy is read as the document that is copied.** -/
theorem Mirrors.adaptNode_eq (hc : c.IsForest) {n : Node} (h : c.Mirrors x n)
    (hf : c.nodes.length < c.depth x + fuel) :
    d.adaptNode flavor (c.viewFrom fuel x) = d.adaptNode flavor n.live := by
  induction fuel generalizing x n with
  | zero =>
    obtain ⟨k, hk⟩ := fuel_pos hf
    cases hk
  | succ fuel ih =>
    cases n with
    | text => rw [viewFrom_text h, Node.live, adaptNode, adaptNode]
    | element tag as st cs =>
      obtain ⟨hdata, hall⟩ := h
      have hfuel : ∀ y ∈ c.children x, c.nodes.length < c.depth y + fuel :=
        fun y hy => hc.fuel_child hy hf
      rw [viewFrom_element hdata, Node.live, adaptNode, adaptNode,
        hall.adaptAll_eq hfuel fun y hy m hm => ih hm (hfuel y hy)]

/-- Decoration among the children of a node is passed over. -/
theorem adaptAll_decoration {xs : List NodeId} (hknown : ∀ x ∈ xs, ∃ data, c.data? x = some data)
    (hfuel : ∀ x ∈ xs, c.nodes.length < c.depth x + fuel)
    (h : ∀ x ∈ xs, c.isDecoration d x = true) (vs : List Live) :
    d.adaptAll flavor raw [] (xs.map (c.viewFrom fuel) ++ vs) = d.adaptAll flavor raw [] vs := by
  induction xs with
  | nil => rfl
  | cons x xs ih =>
    obtain ⟨k, rfl⟩ := fuel_pos (hfuel x List.mem_cons_self)
    obtain ⟨data, hx⟩ := hknown x List.mem_cons_self
    obtain ⟨tag, live, hdata, hmarks⟩ := exists_of_isDecoration hx (h x List.mem_cons_self)
    rw [List.map_cons, List.cons_append, viewFrom_element hdata, adaptAll_element, if_pos hmarks]
    exact ih (fun y hy => hknown y (List.mem_cons_of_mem x hy))
      (fun y hy => hfuel y (List.mem_cons_of_mem x hy)) fun y hy => h y (List.mem_cons_of_mem x hy)

/-! ## New documents -/

theorem Grows.isDecoration {p : NodeId} (hgrows : c.Grows c' p) (hx : x < c.nodes.length) :
    c'.isDecoration d x = c.isDecoration d x := by
  by_cases hxp : x = p
  · exact isDecoration_congr (hxp ▸ hgrows.data?)
  · exact isDecoration_congr (data?_congr (hgrows.get? x hx hxp))

/-- **Of a container that has nothing but decoration, what is put behind it is read.** -/
theorem adapt_createAll (hc : c.IsForest) {name : Text} {live : Attrs}
    (hx : c.data? container = some (.element name live))
    (hdecoration : ∀ y ∈ c.children container, c.isDecoration d y = true) (ns : List Node) :
    (c.createAll container ns).adapt d flavor =
      .ofTopLevel (d.adaptAll flavor false [] (Node.allLive ns)) := by
  have hlt := lt_of_data? hx
  obtain ⟨hforest, hgrows⟩ := createAll_spec hc hlt ns
  obtain ⟨xs, hchildren, hall⟩ := exists_createAll hc hlt ns
  have hx' := hgrows.data?.trans hx
  have hfuel := hforest.fuel_container hx'
  rw [hchildren] at hfuel
  obtain ⟨hold, hnew⟩ := List.forall_mem_append.1 hfuel
  have hknown : ∀ y ∈ c.children container,
      ∃ data, (c.createAll container ns).data? y = some data := fun y hy =>
    hforest.exists_data? (x := container) (by rw [hchildren]; exact List.mem_append_left _ hy)
  have hstay : ∀ y ∈ c.children container,
      (c.createAll container ns).isDecoration d y = true := fun y hy =>
    (hgrows.isDecoration (lt_of_parent? (hc.mem_children.1 hy))).trans (hdecoration y hy)
  rw [adapt_eq hx', hchildren, List.map_append, adaptAll_decoration hknown hold hstay,
    hall.adaptAll_eq hnew fun y hy m hm => hm.adaptNode_eq hforest (hnew y hy)]

/-- New children are new nodes. -/
theorem length_le_of_createAll (hc : c.IsForest) {p : NodeId} (hp : p < c.nodes.length)
    {ns : List Node} {xs : List NodeId}
    (h : (c.createAll p ns).children p = c.children p ++ xs) : ∀ x ∈ xs, c.nodes.length ≤ x := by
  intro x hx
  obtain ⟨hforest, hgrows⟩ := createAll_spec hc hp ns
  have hparent := hforest.mem_children.1 (h ▸ List.mem_append_right _ hx)
  by_contra hlt
  rw [Nat.not_le] at hlt
  have hold : x ∈ c.children p := by
    rw [hc.mem_children, ← hparent]
    by_cases hxp : x = p
    · rw [hxp, hgrows.parent?]
    · rw [Canvas.parent?, Canvas.parent?, hgrows.get? x hlt hxp]
  have hnodup := hforest.nodup p
  rw [h, List.nodup_append] at hnodup
  exact hnodup.2.2 x hold x hx rfl

/-! ## Another document -/

/-- The canvas shows another document: what is read of it is what is read of the document, and the
container has its decoration and, behind it, new nodes. -/
structure IsRedrawn (c c' : Canvas) (d : Decoration) (n : Node) : Prop where
  render : c.render d n = ⟨c', none⟩
  adapt : ∀ flavor, c'.adapt d flavor =
    .ofTopLevel (d.adaptAll flavor false [] (Node.allLive n.topLevel))
  children : ∃ xs, (∀ x ∈ xs, c.nodes.length ≤ x) ∧
    c'.children container = (c.children container).filter (c.isDecoration d) ++ xs
  isDecoration : ∀ x < c.nodes.length, c'.isDecoration d x = c.isDecoration d x

/-- **Any document can be shown.** -/
theorem exists_redrawn (hc : c.IsSound) (d : Decoration) (n : Node) : ∃ c', c.IsRedrawn c' d n := by
  obtain ⟨hforest, name, live, hx⟩ := hc
  have hlt := lt_of_data? hx
  obtain ⟨hclear, hlength, hdata, -, -, -⟩ := clears_clear hforest d
  have hlt' : container < (c.clear d).nodes.length := hlength ▸ hlt
  obtain ⟨-, hgrows⟩ := createAll_spec hclear hlt' n.topLevel
  obtain ⟨xs, hchildren, -⟩ := exists_createAll hclear hlt' n.topLevel
  refine ⟨_, render_eq hforest hlt n, fun flavor => ?_, ⟨xs, ?_, ?_⟩, fun x hx => ?_⟩
  · exact adapt_createAll hclear ((hdata container).trans hx)
      (fun y hy => isDecoration_of_mem_clear hforest hy) _
  · rw [← hlength]
    exact length_le_of_createAll hclear hlt' hchildren
  · rw [hchildren, children_clear hforest]
  · rw [hgrows.isDecoration (hlength ▸ hx)]
    exact isDecoration_congr (hdata x)

end Canvas

/-! ## Documents that are read as they are -/

open Text

namespace Decoration

/-- What is read of a text that stands by itself on the canvas. -/
def shownText? (flavor : Flavor) (raw : Bool) (s : Text) : Option Text :=
  if flavor = .jsx ∧ !raw then joinedLines? s else runText? raw s

/-- The texts among the children of an element are read as they are, and no two of them are read as
one. -/
structure ShowsTexts (flavor : Flavor) (raw : Bool) (ns : List Node) : Prop where
  texts : ∀ t, .text t ∈ ns → shownText? flavor raw t = some t
  apart : flavor = .html ∨ raw = true → TextsApart ns

/-- An element that is no decoration and whose attributes, declarations and texts are read as they
are. -/
structure IsShownTag (d : Decoration) (flavor : Flavor) (tag : Text) (as st : Attrs)
    (cs : List Node) : Prop where
  marks : d.marks (Canvas.writtenAttributes as st) = false
  head : d.head (Canvas.writtenAttributes as st) = ⟨as, st⟩
  texts : ShowsTexts flavor (isRaw tag) cs

end Decoration

namespace Canvas

open Decoration

variable {c : Canvas} {d : Decoration} {flavor : Flavor} {raw : Bool}

/-- A run in front of a text shows nothing. -/
theorem isBlankText_of_apart {run t : Text} {ns : List Node}
    (h : TextsApart (runNodes raw run ++ .text t :: ns)) : IsBlankText run := by
  rw [← @runNodes_eq_nil_iff raw]
  cases hr : runText? raw run with
  | none => rw [runNodes, hr]; rfl
  | some u =>
    rw [runNodes_eq_singleton hr] at h
    exact absurd ⟨rfl, rfl⟩ (List.isChain_cons_cons.1 h).1

mutual

/-- An element is read as it is. -/
theorem adaptNode_live {n : Node} (hn : n.Everywhere (d.IsShownTag flavor))
    (hel : n.isElement = true) : d.adaptNode flavor n.live = n := by
  cases n with
  | text => cases hel
  | element tag as st cs =>
    have hapart : flavor = .html ∨ isRaw tag = true →
        TextsApart (runNodes (isRaw tag) [] ++ cs) := by
      rw [runNodes_nil]
      exact hn.1.texts.apart
    have hall := adaptAll_run hn.2 hn.1.texts.texts hapart (.inr (.inr rfl))
    rw [Node.live, adaptNode, hn.1.head, hall, runNodes_nil]
    rfl

/-- Children are read as they are, behind a run of text that is not read as one with them. -/
theorem adaptAll_run {raw : Bool} {ns : List Node} {run : Text}
    (hmarks : Node.AllEverywhere (d.IsShownTag flavor) ns)
    (htexts : ∀ t, .text t ∈ ns → shownText? flavor raw t = some t)
    (hapart : flavor = .html ∨ raw = true → TextsApart (runNodes raw run ++ ns))
    (hrun : flavor = .html ∨ raw = true ∨ run = []) :
    d.adaptAll flavor raw run (Node.allLive ns) = runNodes raw run ++ ns := by
  cases ns with
  | nil => rw [Node.allLive, adaptAll, List.append_nil]
  | cons n ns =>
    have hrest : ∀ r, (flavor = .html ∨ raw = true → TextsApart (runNodes raw r ++ ns)) →
        flavor = .html ∨ raw = true ∨ r = [] →
        d.adaptAll flavor raw r (Node.allLive ns) = runNodes raw r ++ ns := fun r =>
      adaptAll_run hmarks.2 fun t ht => htexts t (List.mem_cons_of_mem n ht)
    rw [Node.allLive]
    cases n with
    | text t =>
      have ht := htexts t List.mem_cons_self
      rw [Node.live]
      -- a text is read by itself in JSX, and as part of a run elsewhere
      by_cases hline : flavor = .jsx ∧ raw = false
      · obtain ⟨rfl, rfl⟩ := hline
        obtain rfl : run = [] := by simpa using hrun
        rw [shownText?, if_pos ⟨rfl, rfl⟩] at ht
        rw [adaptAll_line, hrest _ (by simp) (.inr (.inr rfl)), ht,
          runNodes_nil]
        rfl
      · have hruns : flavor = .html ∨ raw = true := by
          cases flavor with
          | html => exact .inl rfl
          | jsx => exact .inr (Bool.of_not_eq_false fun hraw => hline ⟨rfl, hraw⟩)
        have hblank := isBlankText_of_apart (hapart hruns)
        rw [shownText?, if_neg (by simpa using hline)] at ht
        have hnodes := runNodes_eq_singleton ((runText?_blank_append hblank).trans ht)
        rw [runNodes_eq_nil_iff.2 hblank] at hapart ⊢
        rw [adaptAll_text hruns,
          hrest _ (by rwa [hnodes]) (or_assoc.1 (.inl hruns)), hnodes]
        rfl
    | element tag as st cs =>
      have hread := adaptNode_live hmarks.1 rfl
      rw [Node.live] at hread ⊢
      rw [adaptAll_element, if_neg (Bool.eq_false_iff.1 hmarks.1.1.marks), hread,
        hrest _ ?_ (.inr (.inr rfl)), runNodes_nil]
      · rfl
      · intro hruns
        rw [runNodes_nil]
        exact (List.isChain_append.1 (hapart hruns)).2.1.of_cons

end

/-- **Children whose texts are shown as they are, are read as they are.** -/
theorem adaptAll_allLive {ns : List Node} (h : ∀ n ∈ ns, n.Everywhere (d.IsShownTag flavor))
    (htexts : ShowsTexts flavor raw ns) : d.adaptAll flavor raw [] (Node.allLive ns) = ns := by
  have hapart : flavor = .html ∨ raw = true → TextsApart (runNodes raw [] ++ ns) := by
    rw [runNodes_nil]
    exact htexts.apart
  have hall := adaptAll_run (Node.allEverywhere_iff.2 h) htexts.texts hapart (.inr (.inr rfl))
  rwa [runNodes_nil] at hall

/-- The top-level nodes of a document that is shown on the canvas. -/
theorem topLevel_isShown {n : Node} (hn : n.Everywhere (d.IsShownTag flavor))
    (hel : n.isElement = true) :
    (∀ m ∈ n.topLevel, m.Everywhere (d.IsShownTag flavor)) ∧
      ShowsTexts flavor false n.topLevel := by
  cases n with
  | text => cases hel
  | element tag as st cs =>
    rw [Node.topLevel]
    split
    next hroot =>
      obtain rfl : tag = Node.rootTag := by simpa [Node.isRoot, Node.tag?] using hroot
      exact ⟨Node.allEverywhere_iff.1 hn.2, hn.1.texts⟩
    next =>
      refine ⟨fun m hm => ?_, ⟨fun t ht => ?_, fun _ => .singleton _⟩⟩
      · rwa [List.mem_singleton.1 hm]
      · cases List.mem_singleton.1 ht

/-- **A document that is shown on the canvas is read back as it is.** -/
theorem adapt_render (hc : c.IsSound) {n : Node} (hn : n.Everywhere (d.IsShownTag flavor))
    (hel : n.isElement = true) (htop : n = .ofTopLevel n.topLevel) {c' : Canvas}
    (h : (c.render d n).result = .ok c') : c'.adapt d flavor = n := by
  obtain ⟨c'', hredrawn⟩ := exists_redrawn hc d n
  rw [hredrawn.render] at h
  cases h
  obtain ⟨hshown, htexts⟩ := topLevel_isShown hn hel
  rw [hredrawn.adapt, adaptAll_allLive hshown htexts]
  exact htop.symm

end Canvas

end MarkupSync
