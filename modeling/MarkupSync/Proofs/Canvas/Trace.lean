import MarkupSync.Proofs.Canvas.Stands
import MarkupSync.Proofs.Tree.Map

/-!
# Where the nodes of a document are read from

The canvas is read as HTML once more, and every node of the document remembers the nodes of the
canvas that it comes from: an element its element, a text all texts of its run that are not blank.

* `Canvas.viewFrom_element`, `Canvas.viewFrom_text`, `Canvas.viewFrom_comment`: the tree below a node;
* `Canvas.fuel_pos`, `Canvas.IsForest.fuel_child`: reading the canvas goes deep enough;
* `Decoration.adaptAll_element`, `Decoration.adaptAll_text`, `Decoration.adaptAll_line`: one child
  after another;
* `Canvas.children_view`, `Canvas.adapt_eq`: the document on a canvas, from the children of the
  container;
* `Traced`: documents with this memory, `Traced.toNode`: without it;
* `Decoration.traceNode`, `Decoration.traceAll`, `Canvas.trace`: the document on a canvas;
* **`Canvas.toNode_trace`**: it is the document that is read;
* `Canvas.isRead`, `Canvas.read`: children that are not passed over when the canvas is read;
* **`Canvas.tracesTo_traceAll`**: they are read one by one if no two texts are read as one.
-/

namespace MarkupSync

open Text

namespace Canvas

variable {c : Canvas} {x y : NodeId} {fuel : Nat}

/-! ## The tree below a node -/

theorem viewFrom_text {s : Text} (h : c.data? x = some (.text s)) :
    c.viewFrom (fuel + 1) x = .text x s := by
  obtain ⟨p, cs, h⟩ := exists_get? h
  rw [viewFrom, h]

theorem viewFrom_comment {s : Text} (h : c.data? x = some (.comment s)) :
    c.viewFrom (fuel + 1) x = .comment x s := by
  obtain ⟨p, cs, h⟩ := exists_get? h
  rw [viewFrom, h]

theorem viewFrom_element {tag : Text} {live : Attrs} (h : c.data? x = some (.element tag live)) :
    c.viewFrom (fuel + 1) x = .element x tag live ((c.children x).map (c.viewFrom fuel)) := by
  have hcs : c.children x = ((c.get? x).map LiveNode.children).getD [] := by
    rw [children]
    cases c.get? x <;> rfl
  obtain ⟨p, cs, h⟩ := exists_get? h
  rw [hcs, viewFrom, h]
  rfl

theorem fuel_pos (hf : c.nodes.length < c.depth x + fuel) : ∃ k, fuel = k + 1 := by
  have := c.depth_le x
  exact Nat.exists_eq_add_of_le' (by omega)

theorem IsForest.fuel_child (hc : c.IsForest) (hy : y ∈ c.children x)
    (hf : c.nodes.length < c.depth x + (fuel + 1)) : c.nodes.length < c.depth y + fuel := by
  have := hc.depth_lt (hc.mem_children.1 hy)
  omega

theorem IsForest.exists_data? (hc : c.IsForest) (hy : y ∈ c.children x) :
    ∃ data, c.data? y = some data := by
  have hlt := lt_of_parent? (hc.mem_children.1 hy)
  cases h : c.data? y with
  | none => exact absurd hlt (Nat.not_lt.2 (data?_eq_none_iff.1 h))
  | some data => exact ⟨data, rfl⟩

end Canvas

namespace Decoration

/-! ## Runs of text and children -/

variable {d : Decoration} {raw : Bool} {run s : Text}

theorem runNodes_nil : runNodes raw [] = [] := by
  rw [runNodes, runText?_eq_none_iff.2 isBlankText_nil]
  rfl

theorem runNodes_eq_nil_iff : runNodes raw run = [] ↔ IsBlankText run := by
  rw [runNodes, ← @runText?_eq_none_iff raw]
  cases runText? raw run <;> simp

theorem runText?_blank_append (h : IsBlankText run) : runText? raw (run ++ s) = runText? raw s := by
  rw [← List.append_nil (run ++ s), runText?_blank h isBlankText_nil]

theorem runNodes_eq_singleton {t : Text} (h : runText? raw run = some t) :
    runNodes raw run = [.text t] := by
  rw [runNodes, h]
  rfl

theorem adaptAll_comment {flavor : Flavor} {x : NodeId} {vs : List Live} :
    d.adaptAll flavor raw run (.comment x s :: vs) = d.adaptAll flavor raw run vs := by
  rw [adaptAll]

theorem adaptAll_text {flavor : Flavor} {x : NodeId} {vs : List Live}
    (h : flavor = .html ∨ raw = true) :
    d.adaptAll flavor raw run (.text x s :: vs) = d.adaptAll flavor raw (run ++ s) vs := by
  rw [adaptAll, if_neg]
  rintro ⟨rfl, hraw⟩
  simp_all

theorem adaptAll_line {x : NodeId} {vs : List Live} :
    d.adaptAll .jsx false run (.text x s :: vs) =
      ((joinedLines? s).map Node.text).toList ++ d.adaptAll .jsx false run vs := by
  rw [adaptAll, if_pos ⟨rfl, rfl⟩]

theorem adaptAll_element {flavor : Flavor} {x : NodeId} {tag : Text} {live : Attrs}
    {cs vs : List Live} :
    d.adaptAll flavor raw run (.element x tag live cs :: vs) =
      if d.marks live then d.adaptAll flavor raw run vs
      else runNodes raw run ++
        d.adaptNode flavor (.element x tag live cs) :: d.adaptAll flavor raw [] vs := by
  rw [adaptAll]

end Decoration

namespace Canvas

/-! ## The document -/

variable {c : Canvas} {d : Decoration}

theorem children_view {name : Text} {live : Attrs}
    (hx : c.data? container = some (.element name live)) :
    c.view.children = (c.children container).map (c.viewFrom (c.nodes.length - 1)) := by
  have hlt := lt_of_data? hx
  rw [view, ← Nat.sub_add_cancel (Nat.one_le_of_lt hlt), viewFrom_element hx]
  rfl

/-- The document on a canvas, from the children of the container. -/
theorem adapt_eq {flavor : Flavor} {name : Text} {live : Attrs}
    (hx : c.data? container = some (.element name live)) :
    c.adapt d flavor = .ofTopLevel (d.adaptAll flavor false []
      ((c.children container).map (c.viewFrom (c.nodes.length - 1)))) := by
  rw [adapt, children_view hx]

theorem IsForest.fuel_container (hc : c.IsForest) {name : Text} {live : Attrs}
    (hx : c.data? container = some (.element name live)) :
    ∀ y ∈ c.children container, c.nodes.length < c.depth y + (c.nodes.length - 1) := by
  intro y hy
  have := depth_pos (lt_of_data? hx)
  exact hc.fuel_child hy (by omega)

end Canvas

/-! ## Documents that remember what they are read from -/

/-- A document tree with the nodes of the canvas that its nodes are read from. -/
inductive Traced
  | text (sources : List NodeId) (content : Text)
  | element (source : NodeId) (tag : Text) (attributes style : Attrs) (children : List Traced)

namespace Traced

instance : Tree Traced where
  children?
    | .text _ _ => none
    | .element _ _ _ _ children => some children
  withChildren children
    | .text sources content => .text sources content
    | .element source tag attributes style _ => .element source tag attributes style children

/-- The nodes of the canvas that a node is read from. -/
def sources : Traced → List NodeId
  | .text sources _ => sources
  | .element source _ _ _ _ => [source]

mutual

/-- The document without the nodes that it is read from. -/
def toNode : Traced → Node
  | .text _ content => .text content
  | .element _ tag attributes style children => .element tag attributes style (toNodes children)

/-- Documents without the nodes that they are read from. -/
def toNodes : List Traced → List Node
  | [] => []
  | t :: ts => t.toNode :: toNodes ts

end

theorem toNodes_eq_map (ts : List Traced) : toNodes ts = ts.map toNode := by
  induction ts with
  | nil => rfl
  | cons t ts ih => rw [toNodes, ih, List.map_cons]

theorem isMap_toNode : Tree.IsMap toNode where
  children? t := by
    cases t with
    | text => rfl
    | element => exact congrArg some (toNodes_eq_map _)
  withChildren ts t := by
    cases t with
    | text => rfl
    | element => exact congrArg (Node.element _ _ _) (toNodes_eq_map ts)

/-- The document of a list of top-level nodes; a wrapping root is read from the container. -/
def ofTopLevel : List Traced → Traced
  | [.element source tag attributes style children] =>
    .element source tag attributes style children
  | ts => .element Canvas.container Node.rootTag .empty .empty ts

theorem toNode_ofTopLevel (ts : List Traced) :
    (ofTopLevel ts).toNode = .ofTopLevel (toNodes ts) := by
  match ts with
  | [.element ..] => rfl
  | [] => rfl
  | [.text ..] => rfl
  | .text .. :: _ :: _ => rfl
  | .element .. :: _ :: _ => rfl

end Traced

/-! ## Reading -/

namespace Decoration

/-- The text of a run of texts. -/
def textOf (run : List (NodeId × Text)) : Text := run.flatMap Prod.snd

/-- The node of a run, if something is left of it: it is read from the texts that are not blank. -/
def traceRun (raw : Bool) (run : List (NodeId × Text)) : List Traced :=
  ((runText? raw (textOf run)).map
    (.text ((run.filter fun x => !x.2.all isBlank).map Prod.fst))).toList

mutual

/-- The node of a document that a node of the canvas shows. -/
def traceNode (d : Decoration) : Live → Traced
  | .text id content => .text [id] content
  | .comment id content => .text [id] content
  | .element id tag attributes children =>
    let h := d.head attributes
    .element id tag h.attributes h.style (d.traceAll (isRaw tag) [] children)

/-- The nodes of a document that a list of children shows, behind a run of texts. -/
def traceAll (d : Decoration) (raw : Bool) (run : List (NodeId × Text)) : List Live → List Traced
  | [] => traceRun raw run
  | n :: ns =>
    match n with
    | .comment _ _ => d.traceAll raw run ns
    | .text id content => d.traceAll raw (run ++ [(id, content)]) ns
    | .element _ _ attributes _ =>
      if d.marks attributes then d.traceAll raw run ns
      else traceRun raw run ++ d.traceNode n :: d.traceAll raw [] ns

end

variable {d : Decoration} {raw : Bool}

theorem toNodes_traceRun (raw : Bool) (run : List (NodeId × Text)) :
    Traced.toNodes (traceRun raw run) = runNodes raw (textOf run) := by
  rw [traceRun, runNodes]
  cases runText? raw (textOf run) <;> rfl

theorem textOf_append (run : List (NodeId × Text)) (x : NodeId × Text) :
    textOf (run ++ [x]) = textOf run ++ x.2 := by
  simp [textOf]

mutual

theorem toNode_traceNode (v : Live) : (d.traceNode v).toNode = d.adaptNode .html v := by
  cases v with
  | text | comment => rw [traceNode, adaptNode, Traced.toNode]
  | element x tag live vs =>
    rw [traceNode, adaptNode, Traced.toNode, toNodes_traceAll vs]
    rfl

theorem toNodes_traceAll {raw : Bool} (vs : List Live) {run : List (NodeId × Text)} :
    Traced.toNodes (d.traceAll raw run vs) = d.adaptAll .html raw (textOf run) vs := by
  cases vs with
  | nil => rw [traceAll, adaptAll, toNodes_traceRun]
  | cons v vs =>
    cases v with
    | comment => rw [traceAll, adaptAll_comment, toNodes_traceAll vs]
    | text => rw [traceAll, adaptAll_text (.inl rfl), toNodes_traceAll vs, textOf_append]
    | element x tag live cs =>
      have hnode := toNode_traceNode (.element x tag live cs)
      rw [traceAll, adaptAll_element]
      split_ifs
      · exact toNodes_traceAll vs
      · rw [Traced.toNodes_eq_map, List.map_append, List.map_cons, ← Traced.toNodes_eq_map,
          ← Traced.toNodes_eq_map, toNodes_traceRun, hnode, toNodes_traceAll vs]
        rfl

end

end Decoration

/-- The document on a canvas with the nodes that it is read from. -/
def Canvas.trace (c : Canvas) (d : Decoration) : Traced :=
  .ofTopLevel (d.traceAll false [] c.view.children)

/-- **It is the document that is read.** -/
theorem Canvas.toNode_trace (c : Canvas) (d : Decoration) :
    (c.trace d).toNode = c.adapt d .html := by
  rw [trace, adapt, Traced.toNode_ofTopLevel, Decoration.toNodes_traceAll]
  rfl

/-! ## Runs that are one text at most -/

namespace Decoration

variable {raw : Bool} {run : List (NodeId × Text)} {x : NodeId} {s t : Text}

theorem isBlankText_textOf (h : ∀ y ∈ run, IsBlankText y.2) : IsBlankText (textOf run) := by
  intro c hc
  obtain ⟨y, hy, hc⟩ := List.mem_flatMap.1 hc
  exact h y hy c hc

theorem filter_of_blank (h : ∀ y ∈ run, IsBlankText y.2) :
    (run.filter fun y => !y.2.all isBlank) = [] :=
  List.filter_eq_nil_iff.2 fun y hy => by simpa [IsBlankText] using h y hy

theorem traceRun_of_blank (h : ∀ y ∈ run, IsBlankText y.2) : traceRun raw run = [] := by
  rw [traceRun, runText?_eq_none_iff.2 (isBlankText_textOf h)]
  rfl

theorem traceRun_append_blank (hs : IsBlankText s) :
    traceRun raw (run ++ [(x, s)]) = traceRun raw run := by
  have htext : runText? raw (textOf run ++ s) = runText? raw (textOf run) :=
    (runText?_blank (s := textOf run) isBlankText_nil hs).trans rfl
  rw [traceRun, traceRun, textOf_append, htext, List.filter_append,
    filter_of_blank (List.forall_mem_singleton.2 hs), List.append_nil]

/-- A text behind blanks is read as the run. -/
theorem traceRun_append (h : ∀ y ∈ run, IsBlankText y.2) (ht : runText? raw s = some t) :
    traceRun raw (run ++ [(x, s)]) = [.text [x] t] := by
  have hs : ¬ IsBlankText s := fun hs => by
    rw [runText?_eq_none_iff.2 hs] at ht
    cases ht
  rw [traceRun, textOf_append, runText?_blank_append (isBlankText_textOf h), ht,
    List.filter_append, filter_of_blank h,
    List.filter_cons_of_pos (by simpa [IsBlankText] using hs)]
  rfl

end Decoration

/-! ## Children that are read -/

namespace Canvas

open Decoration

/-- Whether a node is read as a node of the document, at least as a part of it. -/
def isRead (c : Canvas) (d : Decoration) (y : NodeId) : Bool :=
  match c.data? y with
  | some (.comment _) => false
  | some (.text s) => !s.all isBlank
  | _ => !c.isDecoration d y

/-- The children of a node that are read. -/
def read (c : Canvas) (d : Decoration) (x : NodeId) : List NodeId :=
  (c.children x).filter (c.isRead d)

/-- A node of the canvas is what a node of the document is read from. -/
inductive TracesTo (c : Canvas) (d : Decoration) (raw : Bool) (fuel : Nat) : NodeId → Traced → Prop
  | text {x : NodeId} {s t : Text} (hx : c.data? x = some (.text s))
    (ht : runText? raw s = some t) : TracesTo c d raw fuel x (.text [x] t)
  | element {x : NodeId} {tag : Text} {live : Attrs} (hx : c.data? x = some (.element tag live)) :
    TracesTo c d raw fuel x (d.traceNode (c.viewFrom fuel x))

variable {c : Canvas} {d : Decoration} {raw : Bool} {x y : NodeId} {fuel : Nat}

theorem isRead_text {s : Text} (h : c.data? y = some (.text s)) :
    c.isRead d y = true ↔ ¬ IsBlankText s := by
  simp [isRead, h, IsBlankText]

theorem isRead_element {tag : Text} {live : Attrs} (h : c.data? y = some (.element tag live)) :
    c.isRead d y = !d.marks live := by
  simp [isRead, h, isDecoration_of_data? h]

theorem isRead_comment {s : Text} (h : c.data? y = some (.comment s)) :
    c.isRead d y = false := by
  simp [isRead, h]

/-- Children that are read behind a run of texts. -/
theorem exists_traceAll (raw : Bool) {ys : List NodeId} (run : List (NodeId × Text))
    (hknown : ∀ y ∈ ys, ∃ data, c.data? y = some data)
    (hfuel : ∀ y ∈ ys, c.nodes.length < c.depth y + fuel)
    (hapart : (ys.filter (c.isRead d)).IsChain
      fun y z => ¬ (c.isElement y = false ∧ c.isElement z = false))
    (hrun : (∀ y ∈ run, IsBlankText y.2) ∨
      ∀ y ∈ (ys.filter (c.isRead d)).head?, c.isElement y = true) :
    ∃ ts, d.traceAll raw run (ys.map (c.viewFrom fuel)) = traceRun raw run ++ ts ∧
      List.Forall₂ (c.TracesTo d raw fuel) (ys.filter (c.isRead d)) ts := by
  -- the run in front of the children is blank where a text comes next
  induction ys generalizing run with
  | nil => exact ⟨[], by rw [List.map_nil, traceAll, List.append_nil], .nil⟩
  | cons y ys ih =>
    obtain ⟨k, rfl⟩ := fuel_pos (hfuel y List.mem_cons_self)
    have hknown' := fun z hz => hknown z (List.mem_cons_of_mem y hz)
    have hfuel' := fun z hz => hfuel z (List.mem_cons_of_mem y hz)
    obtain ⟨data, hy⟩ := hknown y List.mem_cons_self
    rw [List.map_cons]
    cases data with
    | comment s =>
      rw [viewFrom_comment hy, traceAll]
      rw [List.filter_cons_of_neg (by simp [isRead_comment hy])] at hapart hrun ⊢
      exact ih run hknown' hfuel' hapart hrun
    | text s =>
      rw [viewFrom_text hy, traceAll]
      by_cases hs : IsBlankText s
      · rw [List.filter_cons_of_neg fun h => (isRead_text hy).1 h hs] at hapart hrun ⊢
        rw [← traceRun_append_blank (x := y) hs]
        refine ih _ hknown' hfuel' hapart (hrun.imp_left fun h => ?_)
        exact List.forall_mem_append.2 ⟨h, List.forall_mem_singleton.2 hs⟩
      · rw [List.filter_cons_of_pos ((isRead_text hy).2 hs)] at hapart hrun ⊢
        have hel : c.isElement y = false := isElement_text hy
        have hblank : ∀ z ∈ run, IsBlankText z.2 := hrun.resolve_right fun h =>
          Bool.noConfusion (hel.symm.trans (h y rfl))
        obtain ⟨t, ht⟩ := Option.ne_none_iff_exists'.1 (mt (@runText?_eq_none_iff raw s).1 hs)
        obtain ⟨hnext, hapart⟩ := List.isChain_cons.1 hapart
        obtain ⟨ts, hts, hall⟩ := ih (run ++ [(y, s)]) hknown' hfuel' hapart
          (.inr fun z hz => Bool.of_not_eq_false fun hz' => hnext z hz ⟨hel, hz'⟩)
        refine ⟨.text [y] t :: ts, ?_, .cons (.text hy ht) hall⟩
        rw [hts, traceRun_append hblank ht, traceRun_of_blank hblank]
        rfl
    | element tag live =>
      rw [viewFrom_element hy, traceAll, ← viewFrom_element hy]
      by_cases hmarks : d.marks live = true
      · rw [if_pos hmarks]
        rw [List.filter_cons_of_neg (by simp [isRead_element hy, hmarks])] at hapart hrun ⊢
        exact ih run hknown' hfuel' hapart hrun
      · rw [List.filter_cons_of_pos (by simp [isRead_element hy, hmarks])] at hapart ⊢
        obtain ⟨ts, hts, hall⟩ := ih [] hknown' hfuel' hapart.of_cons
          (.inl (List.forall_mem_nil _))
        refine ⟨_, ?_, .cons (.element hy) hall⟩
        rw [if_neg hmarks, hts, traceRun_of_blank (List.forall_mem_nil _)]
        rfl

/-- **Children are read one by one if no two texts are read as one.** -/
theorem tracesTo_traceAll (hc : c.IsForest) (raw : Bool)
    (hfuel : ∀ y ∈ c.children x, c.nodes.length < c.depth y + fuel)
    (hapart : (c.read d x).IsChain fun y z => ¬ (c.isElement y = false ∧ c.isElement z = false)) :
    List.Forall₂ (c.TracesTo d raw fuel) (c.read d x)
      (d.traceAll raw [] ((c.children x).map (c.viewFrom fuel))) := by
  obtain ⟨ts, hts, hall⟩ := exists_traceAll raw [] (fun y hy => hc.exists_data? hy) hfuel hapart
    (.inl (List.forall_mem_nil _))
  rwa [hts, traceRun_of_blank (List.forall_mem_nil _)]

/-! ## Gaps -/

/-- What stands for a node of the document is read. -/
theorem isRead_of_isSignificant (h : c.isSignificant d y = true) : c.isRead d y = true := by
  cases hy : c.data? y with
  | none => simp [isRead, hy, isDecoration_of_isSignificant h]
  | some data =>
    cases data with
    | comment =>
      rw [isSignificant_comment hy] at h
      cases h
    | text s =>
      refine (isRead_text hy).2 fun hs => ?_
      rw [isSignificant_text hy, all_isSpace_of_isBlankText hs] at h
      cases h
    | element =>
      rw [isSignificant_element hy] at h
      rw [isRead_element hy, h]

theorem significant_sublist_read : (c.significant d x).Sublist (c.read d x) :=
  List.monotone_filter_right _ fun _ => isRead_of_isSignificant

/-- All children that are read stand for nodes of the document exactly if the others are blank. -/
theorem hasBlankGaps_iff (hc : c.IsForest) :
    c.HasBlankGaps x ↔ c.significant d x = c.read d x := by
  constructor
  · intro h
    refine List.filter_congr fun y hy => Bool.eq_iff_iff.2 ?_
    obtain ⟨data, hdata⟩ := hc.exists_data? hy
    refine ⟨isRead_of_isSignificant, fun hread => ?_⟩
    cases data with
    | comment =>
      rw [isRead_comment hdata] at hread
      cases hread
    | text s =>
      rw [isSignificant_text hdata, Bool.not_eq_true', Bool.eq_false_iff]
      exact fun hs => (isRead_text hdata).1 hread (h y hy s hdata hs)
    | element =>
      rw [isRead_element hdata] at hread
      rw [isSignificant_element hdata, hread]
  · intro h y hy s hs hspace
    by_contra hblank
    have hread : y ∈ c.read d x := List.mem_filter.2 ⟨hy, (isRead_text hs).2 hblank⟩
    rw [← h, mem_significant, isSignificant_text hs, hspace] at hread
    cases hread.2

end Canvas

end MarkupSync
