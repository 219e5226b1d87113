import MarkupSync.Proofs.Canvas.Reach

/-!
# Paths and the nodes that a document is read from

A canvas is read as a document, and the paths of the document are looked up on the canvas.

* `Canvas.Seen`: the nodes whose children are read, `Canvas.HasSingleTexts`: no two texts of them
  are read as one;
* `Canvas.Resolves`: every path leads to the node that the node at the path is read from;
* `Display.exists_descend`: paths below a node do if all that is read counts for them;
* `Canvas.Resolves.below`: if all paths do, then all that is read counts for them;
* **`Canvas.resolves_iff`**: the canvases where paths and the document agree;
* `Canvas.not_resolves`: canvases where they do not.
-/

namespace MarkupSync

/-- A document is its only top-level node, or a root that is read from the container. -/
theorem Traced.ofTopLevel_cases (ts : List Traced) :
    (∃ t, ts = [t] ∧ t.toNode.isElement = true ∧ ofTopLevel ts = t) ∨
      ofTopLevel ts = .element Canvas.container Node.rootTag .empty .empty ts := by
  match ts with
  | [.element ..] => exact .inl ⟨_, rfl, rfl, rfl⟩
  | [] => exact .inr rfl
  | [.text ..] => exact .inr rfl
  | .text .. :: _ :: _ => exact .inr rfl
  | .element .. :: _ :: _ => exact .inr rfl

namespace Canvas

open Decoration

/-- A node whose children are read: the container, and the elements that are read with it. -/
inductive Seen (c : Canvas) (d : Decoration) : NodeId → Prop
  | container : Seen c d Canvas.container
  | child {x y : NodeId} (hx : Seen c d x) (hy : y ∈ c.significant d x)
    (hel : c.isElement y = true) : Seen c d y

/-- Between two elements among the children of a node is one text at most that is not blank. -/
def HasSingleTexts (c : Canvas) (d : Decoration) (x : NodeId) : Prop :=
  (c.read d x).IsChain fun y z => ¬ (c.isElement y = false ∧ c.isElement z = false)

/-- The canvas with the document that it is read as. -/
def display (c : Canvas) (d : Decoration) : Display := .of c (c.adapt d .html)

/-- Every path of the document leads to the one node that the node at the path is read from. -/
def Resolves (c : Canvas) (d : Decoration) : Prop :=
  ∀ path n, Tree.descend (c.adapt d .html) path = some n →
    ∃ x t, (c.display d).resolve d path = .ok x ∧ Tree.descend (c.trace d) path = some t ∧
      t.toNode = n ∧ t.sources = [x]

variable {c : Canvas} {d : Decoration} {raw : Bool} {x y : NodeId} {fuel i : Nat}
  {path : NodePath} {t u : Traced}

/-! ## Nodes and what they are read from -/

theorem children_traceNode {tag : Text} {live : Attrs} (hx : c.data? x = some (.element tag live)) :
    Tree.children (d.traceNode (c.viewFrom (fuel + 1) x)) =
      d.traceAll (isRaw tag) [] ((c.children x).map (c.viewFrom fuel)) := by
  rw [viewFrom_element hx, traceNode]
  rfl

theorem TracesTo.sources (h : c.TracesTo d raw fuel x t)
    (hf : c.nodes.length < c.depth x + fuel) : t.sources = [x] := by
  cases h with
  | text => rfl
  | element hx =>
    obtain ⟨k, rfl⟩ := fuel_pos hf
    rw [viewFrom_element hx, traceNode]
    rfl

theorem TracesTo.tag? (h : c.TracesTo d raw fuel x t)
    (hf : c.nodes.length < c.depth x + fuel) : t.toNode.tag? = c.tag? x := by
  cases h with
  | text hx =>
    obtain ⟨p, cs, hx⟩ := exists_get? hx
    rw [Canvas.tag?, hx]
    rfl
  | element hx =>
    obtain ⟨k, rfl⟩ := fuel_pos hf
    rw [viewFrom_element hx, traceNode]
    obtain ⟨p, cs, hx⟩ := exists_get? hx
    rw [Canvas.tag?, hx]
    rfl

theorem TracesTo.isElement (h : c.TracesTo d raw fuel x t)
    (hf : c.nodes.length < c.depth x + fuel) : t.toNode.isElement = c.isElement x := by
  cases h with
  | text hx => exact (isElement_text hx).symm
  | element hx =>
    obtain ⟨k, rfl⟩ := fuel_pos hf
    rw [viewFrom_element hx, traceNode, isElement_of_data? hx]
    rfl

/-- The children of an element are read from its children. -/
theorem TracesTo.children (h : c.TracesTo d raw (fuel + 1) x t) (hc : c.IsForest)
    (hx : c.isElement x = true) (hf : c.nodes.length < c.depth x + (fuel + 1))
    (hsingle : c.HasSingleTexts d x) :
    ∃ raw, List.Forall₂ (c.TracesTo d raw fuel) (c.read d x) (Tree.children t) := by
  cases h with
  | text hdata =>
    rw [isElement_text hdata] at hx
    cases hx
  | element hdata =>
    rw [children_traceNode hdata]
    exact ⟨_, tracesTo_traceAll hc _ (fun y hy => hc.fuel_child hy hf) hsingle⟩

/-- The top-level nodes of a document are read from the children of the container. -/
theorem exists_trace (hc : c.IsSound) (hsingle : c.HasSingleTexts d container) :
    ∃ ts, c.trace d = .ofTopLevel ts ∧
      List.Forall₂ (c.TracesTo d false (c.nodes.length - 1)) (c.read d container) ts := by
  obtain ⟨hforest, name, live, hx⟩ := hc
  refine ⟨_, congrArg (fun vs => Traced.ofTopLevel (d.traceAll false [] vs)) (children_view hx), ?_⟩
  exact tracesTo_traceAll hforest false (hforest.fuel_container hx) hsingle

theorem isWrapped_display : (c.display d).isWrapped = (c.trace d).toNode.isRoot := by
  rw [toNode_trace]
  rfl

/-- The root of a wrapped document is the container. -/
theorem root_display_of_isRoot (h : (c.trace d).toNode.isRoot = true) :
    (c.display d).root d = .ok container := by
  rw [Display.root, isWrapped_display, if_pos h]

/-- The root of any other document is an element in the container. -/
theorem root_display (h : (c.trace d).toNode.isRoot = false) (hy : c.significant d container = [y])
    (hel : c.isElement y = true) : (c.display d).root d = .ok y := by
  have hfind : (c.significant d container).find? c.isElement = some y := by
    rw [hy, List.find?_cons_of_pos hel]
  rw [Display.root, isWrapped_display, if_neg (Bool.eq_false_iff.1 h), display, Display.of, hfind]

end Canvas

/-! ## Where all that is read counts for paths -/

namespace Display

open Canvas

variable {s : Display} {d : Decoration} {raw : Bool} {x : NodeId} {fuel : Nat} {path : NodePath}
  {t u : Traced}

/-- **Below a node paths lead to what the document is read from.** -/
theorem exists_descend (hc : s.canvas.IsForest)
    (hsingle : ∀ x, s.canvas.Seen d x → s.canvas.HasSingleTexts d x)
    (hgaps : ∀ x, s.canvas.Seen d x → s.canvas.HasBlankGaps x)
    (hx : s.canvas.isElement x = true → s.canvas.Seen d x)
    (ht : s.canvas.TracesTo d raw fuel x t) (hf : s.canvas.nodes.length < s.canvas.depth x + fuel)
    (hu : Tree.descend t path = some u) : ∃ y, s.descend d x path = some y ∧ u.sources = [y] := by
  induction path generalizing raw fuel x t with
  | nil =>
    cases hu
    exact ⟨x, rfl, ht.sources hf⟩
  | cons i path ih =>
    obtain ⟨v, hv, hu⟩ := Option.bind_eq_some_iff.1 hu
    obtain ⟨fuel, rfl⟩ := fuel_pos hf
    have hel : s.canvas.isElement x = true := by
      cases ht with
      | text => cases hv
      | element hdata => exact isElement_of_data? hdata
    obtain ⟨raw, hall⟩ := ht.children hc hel hf (hsingle x (hx hel))
    rw [← (hasBlankGaps_iff hc).1 (hgaps x (hx hel))] at hall
    obtain ⟨y, hy, hvy⟩ := exists_getElem?_of_forall₂ hall hv
    have hmem := List.mem_of_getElem? hy
    rw [descend, hy]
    exact ih ((hx hel).child hmem) hvy (hc.fuel_child (mem_significant.1 hmem).1 hf) hu

end Display

namespace Canvas

variable {c : Canvas} {d : Decoration} {raw : Bool} {x y : NodeId} {fuel i : Nat}
  {path : NodePath} {t u : Traced}

open Display

theorem resolves_of_gaps (hc : c.IsSound) (hsingle : ∀ x, c.Seen d x → c.HasSingleTexts d x)
    (hgaps : ∀ x, c.Seen d x → c.HasBlankGaps x)
    (hroot : ∀ x, c.significant d container = [x] → c.tag? x ≠ some Node.rootTag) :
    c.Resolves d := by
  intro path n hn
  rw [← toNode_trace, Traced.isMap_toNode.descend] at hn
  obtain ⟨u, hu, rfl⟩ := Option.map_eq_some_iff.1 hn
  suffices h : ∃ x, (c.display d).resolve d path = .ok x ∧ u.sources = [x] by
    obtain ⟨x, hx, hsources⟩ := h
    exact ⟨x, u, hx, hu, rfl, hsources⟩
  obtain ⟨name, live, hx⟩ := hc.container
  have hfuel := hc.forest.fuel_container hx
  obtain ⟨ts, hts, hall⟩ := exists_trace hc (hsingle _ .container)
  rw [← (hasBlankGaps_iff hc.forest).1 (hgaps _ .container)] at hall
  have hbelow {y t path} (hy : y ∈ c.significant d container)
      (ht : c.TracesTo d false (c.nodes.length - 1) y t) (hu : Tree.descend t path = some u) :=
    exists_descend (s := c.display d) hc.forest hsingle hgaps (.child .container hy) ht
      (hfuel y (mem_significant.1 hy).1) hu
  obtain ⟨t, rfl, hel, ht⟩ | ht := Traced.ofTopLevel_cases ts
  · -- the only top-level node is read from the only child that counts
    rw [hts, ht] at hu
    obtain ⟨y, ys, hty, hnil, hsig⟩ := List.forall₂_cons_right_iff.1 hall
    obtain rfl := List.forall₂_nil_right_iff.1 hnil
    have hy : y ∈ c.significant d container := hsig ▸ List.mem_singleton_self y
    have hf := hfuel y (mem_significant.1 hy).1
    have htag : t.toNode.isRoot = false := by
      rw [Node.isRoot, hty.tag? hf]
      exact beq_eq_false_iff_ne.2 (hroot y hsig)
    obtain ⟨z, hz, hsources⟩ := hbelow hy hty hu
    have hrootAt := root_display (by rwa [hts, ht]) hsig ((hty.isElement hf).symm.trans hel)
    exact ⟨z, resolve_iff.2 ⟨y, hrootAt, hz⟩, hsources⟩
  · have hrootAt := root_display_of_isRoot (c := c) (d := d) (by rw [hts, ht]; rfl)
    rw [hts, ht] at hu
    cases path with
    | nil =>
      cases hu
      exact ⟨container, resolve_iff.2 ⟨_, hrootAt, rfl⟩, rfl⟩
    | cons i path =>
      obtain ⟨v, hv, hu⟩ := Option.bind_eq_some_iff.1 hu
      obtain ⟨y, hy, hvy⟩ := exists_getElem?_of_forall₂ hall hv
      obtain ⟨z, hz, hsources⟩ := hbelow (List.mem_of_getElem? hy) hvy hu
      refine ⟨z, resolve_iff.2 ⟨_, hrootAt, ?_⟩, hsources⟩
      rw [Display.descend, display, Display.of, hy]
      exact hz

/-! ## Where all paths lead to what is read -/

/-- A path leads to a node that the node at the path is read from. -/
def IsReadAt (c : Canvas) (d : Decoration) (y : NodeId) : Prop :=
  ∃ path raw fuel t, (c.display d).resolve d path = .ok y ∧ Tree.descend (c.trace d) path = some t ∧
    c.TracesTo d raw fuel y t ∧ c.nodes.length < c.depth y + fuel

namespace Resolves

variable (h : c.Resolves d)
include h

theorem exists_resolve (ht : Tree.descend (c.trace d) path = some t) :
    ∃ x, (c.display d).resolve d path = .ok x ∧ t.sources = [x] := by
  have hn : Tree.descend (c.adapt d .html) path = some t.toNode := by
    rw [← toNode_trace, Traced.isMap_toNode.descend, ht]
    rfl
  obtain ⟨x, u, hx, hu, -, hsources⟩ := h path _ hn
  cases ht.symm.trans hu
  exact ⟨x, hx, hsources⟩

theorem resolve_of_tracesTo (ht : Tree.descend (c.trace d) path = some t)
    (hy : c.TracesTo d raw fuel y t) (hf : c.nodes.length < c.depth y + fuel) :
    (c.display d).resolve d path = .ok y := by
  obtain ⟨x, hx, hsources⟩ := h.exists_resolve ht
  cases (hy.sources hf).symm.trans hsources
  exact hx

/-- **All children that are read count for paths**, and paths lead to them. -/
theorem below (hc : c.IsForest) (hx : (c.display d).resolve d path = .ok x)
    (ht : Tree.descend (c.trace d) path = some t)
    (hall : List.Forall₂ (c.TracesTo d raw fuel) (c.read d x) (Tree.children t))
    (hfuel : ∀ y ∈ c.children x, c.nodes.length < c.depth y + fuel) :
    c.HasBlankGaps x ∧ ∀ y ∈ c.significant d x, c.IsReadAt d y := by
  have hchild : ∀ (i : Nat) (y : NodeId), (c.read d x)[i]? = some y →
      (c.significant d x)[i]? = some y ∧ c.IsReadAt d y := by
    intro i y hy
    obtain ⟨v, hv, hyv⟩ := exists_getElem?_of_forall₂ hall.flip hy
    have hf := hfuel y (List.mem_filter.1 (List.mem_of_getElem? hy)).1
    have hdescend : Tree.descend (c.trace d) (path ++ [i]) = some v := by
      rw [Tree.descend_append, ht, Option.bind_some, Tree.descend, hv]
      rfl
    have hresolve := h.resolve_of_tracesTo hdescend hyv hf
    exact ⟨(resolve_child_iff hx).1 hresolve, _, _, _, _, hresolve, hdescend, hyv, hf⟩
  have hprefix : c.read d x <+: c.significant d x :=
    List.prefix_iff_getElem?.2 fun i hi => (hchild i _ (List.getElem?_eq_getElem hi)).1
  have hcounts := hprefix.eq_of_length_le significant_sublist_read.length_le
  refine ⟨(hasBlankGaps_iff hc).2 hcounts.symm, fun y hy => ?_⟩
  obtain ⟨i, hi⟩ := List.getElem?_of_mem (hcounts ▸ hy)
  exact (hchild i y hi).2

/-- The children of the container. -/
theorem below_container (hc : c.IsSound) (hsingle : c.HasSingleTexts d container) :
    c.HasBlankGaps container ∧ ∀ y ∈ c.significant d container, c.IsReadAt d y := by
  obtain ⟨name, live, hx⟩ := hc.container
  have hfuel := hc.forest.fuel_container hx
  obtain ⟨ts, hts, hall⟩ := exists_trace hc hsingle
  obtain ⟨t, rfl, -, ht⟩ | ht := Traced.ofTopLevel_cases ts
  · obtain ⟨y, ys, hty, hnil, hread⟩ := List.forall₂_cons_right_iff.1 hall
    obtain rfl := List.forall₂_nil_right_iff.1 hnil
    have hmem : y ∈ c.children container :=
      (List.mem_filter.1 (hread ▸ List.mem_singleton_self y : y ∈ c.read d container)).1
    have hf := hfuel y hmem
    have hdescend : Tree.descend (c.trace d) [] = some t := congrArg some (hts.trans ht)
    have hresolve := h.resolve_of_tracesTo hdescend hty hf
    have hy : y ∈ c.significant d container := by
      obtain ⟨r, hr, hry⟩ := resolve_iff.1 hresolve
      cases hry
      obtain ⟨rfl, -⟩ | ⟨-, hfind⟩ := root_cases hr
      · exact absurd rfl (hc.forest.ne_parent (hc.forest.mem_children.1 hmem))
      · exact List.mem_of_find?_eq_some hfind
    have hcounts : c.significant d container = c.read d container :=
      significant_sublist_read.eq_of_length_le (by
        rw [hread]
        exact List.length_pos_of_mem hy)
    refine ⟨(hasBlankGaps_iff hc.forest).2 hcounts, fun z hz => ?_⟩
    rw [hcounts, hread] at hz
    obtain rfl := List.mem_singleton.1 hz
    exact ⟨_, _, _, _, hresolve, hdescend, hty, hf⟩
  · -- the wrapping root is read from the container
    have hdescend : Tree.descend (c.trace d) [] = _ := congrArg some (hts.trans ht)
    obtain ⟨x, hresolve, hsources⟩ := h.exists_resolve hdescend
    cases hsources
    exact h.below hc.forest hresolve hdescend hall hfuel

/-- **All that is read counts for paths.** -/
theorem below_seen (hc : c.IsSound) (hsingle : ∀ x, c.Seen d x → c.HasSingleTexts d x)
    (hx : c.Seen d x) : c.HasBlankGaps x ∧ ∀ y ∈ c.significant d x, c.IsReadAt d y := by
  induction hx with
  | container => exact h.below_container hc (hsingle _ .container)
  | child hx hy hel ih =>
    obtain ⟨path, raw, fuel, t, hresolve, ht, hyt, hf⟩ := ih.2 _ hy
    obtain ⟨fuel, rfl⟩ := fuel_pos hf
    obtain ⟨raw, hall⟩ := hyt.children hc.forest hel hf (hsingle _ (hx.child hy hel))
    exact h.below hc.forest hresolve ht hall fun z hz => hc.forest.fuel_child hz hf

/-- The only child that counts is no element that is taken for a wrapping root. -/
theorem tag?_ne (hc : c.IsSound) (hsingle : c.HasSingleTexts d container)
    (hx : c.significant d container = [x]) : c.tag? x ≠ some Node.rootTag := by
  intro htag
  obtain ⟨name, live, hdata⟩ := hc.container
  obtain ⟨ts, hts, hall⟩ := exists_trace hc hsingle
  rw [← (hasBlankGaps_iff hc.forest).1 (h.below_container hc hsingle).1, hx] at hall
  obtain ⟨t, us, hxt, hnil, rfl⟩ := List.forall₂_cons_left_iff.1 hall
  obtain rfl := List.forall₂_nil_left_iff.1 hnil
  have hmem : x ∈ c.children container :=
    (mem_significant.1 (hx ▸ List.mem_singleton_self x : x ∈ c.significant d container)).1
  have hf := hc.forest.fuel_container hdata x hmem
  have hroot : t.toNode.isRoot = true := by
    rw [Node.isRoot, hxt.tag? hf, htag]
    exact beq_self_eq_true _
  have htrace : c.trace d = t := by
    cases t with
    | text => cases hroot
    | element => exact hts
  have hdescend : Tree.descend (c.trace d) [] = some t := congrArg some htrace
  have hresolve := h.resolve_of_tracesTo hdescend hxt hf
  obtain ⟨r, hr, hrx⟩ := resolve_iff.1 hresolve
  cases hrx
  cases (root_display_of_isRoot (htrace ▸ hroot)).symm.trans hr
  exact hc.forest.ne_parent (hc.forest.mem_children.1 hmem) rfl

end Resolves

/-- **Every path leads to the node that the node at the path is read from** exactly if texts that do
not count for paths are blank and no element has the tag of a wrapping root in place of one. -/
theorem resolves_iff (hc : c.IsBuilt) (hsingle : ∀ x, c.Seen d x → c.HasSingleTexts d x) :
    c.Resolves d ↔ (∀ x, c.Seen d x → c.HasBlankGaps x) ∧
      ∀ x, c.significant d container = [x] → c.tag? x ≠ some Node.rootTag := by
  have hsound := hc.isSound
  constructor
  · intro h
    exact ⟨fun x hx => (h.below_seen hsound hsingle hx).1,
      fun x => h.tag?_ne hsound (hsingle _ .container)⟩
  · rintro ⟨hgaps, hroot⟩
    exact resolves_of_gaps hsound hsingle hgaps hroot

theorem Seen.lt (h : c.Seen d x) (hc : c.IsSound) : x < c.nodes.length := by
  cases h with
  | container =>
    obtain ⟨name, live, hx⟩ := hc.container
    exact lt_of_data? hx
  | child _ hy => exact lt_of_parent? (hc.forest.mem_children.1 (mem_significant.1 hy).1)

instance (c : Canvas) (d : Decoration) (x : NodeId) : Decidable (c.HasSingleTexts d x) :=
  inferInstanceAs (Decidable ((c.read d x).IsChain _))

theorem hasSingleTexts_of_lt (hc : c.IsBuilt) (h : ∀ x < c.nodes.length, c.HasSingleTexts d x) :
    ∀ x, c.Seen d x → c.HasSingleTexts d x :=
  fun x hx => h x (hx.lt hc.isSound)

/-- A card with a button of the editor's and blanks behind its text. -/
theorem resolves_iff_card :
    let d : Decoration := ⟨[['s']], [['r']], [], ['u']⟩
    let b := Node.element ['b'] .empty .empty []
    let c := Canvas.ofNode (card [.text ['a'], button, .text ['\n'], b])
    (∀ x, c.Seen d x → c.HasSingleTexts d x) ∧ c.Resolves d := by
  intro d b c
  have hc : c.IsBuilt := .mount .empty _
  have hsingle : ∀ x, c.Seen d x → c.HasSingleTexts d x := hasSingleTexts_of_lt hc (by decide)
  have hcounts : ∀ x < c.nodes.length, c.significant d x = c.read d x := by decide
  refine ⟨hsingle, (resolves_iff hc hsingle).2 ⟨fun x hx => ?_, fun x hx => ?_⟩⟩
  · exact (hasBlankGaps_iff hc.isSound.forest).2 (hcounts x (hx.lt hc.isSound))
  · have hx : [1] = [x] := hx
    cases hx
    decide

/-- A text of a no-break space is read and does not count for paths, and an element that is named as
the wrapping root is not found. -/
theorem not_resolves :
    let d : Decoration := ⟨[['s']], [['r']], [], ['u']⟩
    let c := Canvas.ofNode (card [.text ['\u00a0'], .element ['b'] .empty .empty []])
    (c.IsBuilt ∧ (∀ x, c.Seen d x → c.HasSingleTexts d x) ∧ ¬ c.Resolves d) ∧
      nestedRoot.IsBuilt ∧ (∀ x, nestedRoot.Seen d x → nestedRoot.HasSingleTexts d x) ∧
        ¬ nestedRoot.Resolves d := by
  intro d c
  have hc : c.IsBuilt := .mount .empty _
  have hroot := isBuilt_nestedRoot
  refine ⟨⟨hc, hasSingleTexts_of_lt hc (by decide), fun h => ?_⟩, hroot,
    hasSingleTexts_of_lt hroot (by decide), fun h => ?_⟩
  · -- the path of the text leads to the element behind it
    obtain ⟨x, t, hx, ht, -, hsources⟩ := h [0] (.text ['\u00a0']) rfl
    have ht : some (Traced.text [2] ['\u00a0']) = some t := ht
    cases ht
    have hx : Except.ok 3 = Except.ok x := hx
    cases hx
    cases hsources
  · -- the path of the root leads to the container
    obtain ⟨x, t, hx, ht, -, hsources⟩ := h [] _ rfl
    have hx : Except.ok container = Except.ok x := hx
    cases hx
    have ht : some (nestedRoot.trace d) = some t := ht
    cases ht
    cases hsources

end Canvas

end MarkupSync
