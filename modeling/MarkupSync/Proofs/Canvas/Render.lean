import MarkupSync.Proofs.Canvas.Resolve

/-!
# A document shown anew

* `Canvas.Mirrors`, `Canvas.MirrorAll`: nodes of the canvas that are copies of document trees, with
  all their attributes and texts;
* `Canvas.Mirrors.congr`: a copy depends only on the nodes below it;
* **`Canvas.mirrors_create`**, **`Canvas.exists_createAll`**: new nodes are copies of the trees for
  which they were made;
* `Canvas.run_place`: trees that are put behind the children of a node, one after another;
* `Canvas.Clears`: all that is no decoration is taken out of the container;
* `Canvas.children_clear`, `Canvas.hosts_clear`: nothing else is left there;
* `Canvas.render_eq`: how a document is shown anew;
* **`Canvas.exists_render`**: a canvas that shows another document.
-/

namespace MarkupSync.Canvas

/-! ## Copies of documents -/

section

variable (c : Canvas)

mutual

/-- A node of the canvas is a copy of a document tree. -/
def Mirrors (x : NodeId) : Node → Prop
  | .text t => c.data? x = some (.text t)
  | .element tag as st children =>
    c.data? x = some (.element tag (writtenAttributes as st)) ∧ MirrorAll (c.children x) children

/-- Nodes of the canvas are copies of document trees, one by one. -/
def MirrorAll : List NodeId → List Node → Prop
  | [], [] => True
  | x :: xs, n :: ns => Mirrors x n ∧ MirrorAll xs ns
  | _, _ => False

end

end

variable {c c' : Canvas} {p x y : NodeId} {n : Node} {ns : List Node}

theorem Mirrors.lt_length (h : c.Mirrors x n) : x < c.nodes.length := by
  cases n with
  | text => exact lt_of_data? h
  | element => exact lt_of_data? h.1

mutual

/-- **A copy depends only on the nodes below it.** -/
theorem Mirrors.congr {x : NodeId} {n : Node} (h : c.Mirrors x n) (hc : c.IsForest)
    (hb : ∀ y, c.Below x y → c'.data? y = c.data? y ∧ c'.children y = c.children y) :
    c'.Mirrors x n := by
  obtain ⟨hdata, hchildren⟩ := hb x (.refl c x)
  cases n with
  | text t => exact hdata.trans h
  | element tag as st cs =>
    refine ⟨hdata.trans h.1, ?_⟩
    rw [hchildren]
    exact MirrorAll.congr h.2 hc fun y hy z hz =>
      hb z (((Below.refl c x).child (hc.mem_children.1 hy)).trans hz)

theorem MirrorAll.congr {xs : List NodeId} {ns : List Node} (h : c.MirrorAll xs ns)
    (hc : c.IsForest)
    (hb : ∀ x ∈ xs, ∀ y, c.Below x y → c'.data? y = c.data? y ∧ c'.children y = c.children y) :
    c'.MirrorAll xs ns := by
  cases xs <;> cases ns
  case nil.nil => trivial
  case cons.cons =>
    exact ⟨Mirrors.congr h.1 hc (hb _ List.mem_cons_self),
      MirrorAll.congr h.2 hc fun x hx => hb x (List.mem_cons_of_mem _ hx)⟩
  all_goals exact h.elim

end

/-- A copy that is not around `p` stays one when a node is put among the children of `p`. -/
theorem Mirrors.link {k : Option Nat} (h : c.Mirrors x n) (hc : c.IsForest)
    (hp : p < c.nodes.length) (hx : ¬ c.Below x p) : (c.link p y k).Mirrors x n := by
  refine h.congr hc fun z hz => ⟨data?_link, ?_⟩
  rw [children_link hp, if_neg]
  rintro rfl
  exact hx hz

/-- A copy that is not around `p` stays one when there are new nodes below `p`. -/
theorem Mirrors.grows (h : c.Mirrors x n) (hc : c.IsForest) (hgrows : c.Grows c' p)
    (hx : ¬ c.Below x p) : c'.Mirrors x n := by
  refine h.congr hc fun z hz => ?_
  have hget := hgrows.get? z (hz.lt h.lt_length) (by rintro rfl; exact hx hz)
  exact ⟨data?_congr hget, children_congr hget⟩

mutual

/-- **A new node is a copy of the tree for which it was made.** -/
theorem mirrors_create {c : Canvas} (hc : c.IsForest) (n : Node) :
    (c.create n).1.Mirrors c.nodes.length n := by
  cases n with
  | text t => exact data?_alloc c _
  | element tag as st cs =>
    have hlt : c.nodes.length <
        (c.alloc (.element tag (writtenAttributes as st))).1.nodes.length := by simp
    obtain ⟨-, hgrows⟩ := createAll_spec (hc.alloc _) hlt cs
    obtain ⟨xs, hchildren, hall⟩ := exists_createAll (hc.alloc _) hlt cs
    refine ⟨hgrows.data?.trans (data?_alloc c _), ?_⟩
    rw [children_alloc, children_of_le (Nat.le_refl _), List.nil_append] at hchildren
    rw [show (c.create (.element tag as st cs)).1.children c.nodes.length = xs from hchildren]
    exact hall

/-- **New children of a node are copies of the trees for which they were made.** -/
theorem exists_createAll {c : Canvas} {p : NodeId} (hc : c.IsForest) (hp : p < c.nodes.length)
    (ns : List Node) : ∃ xs, (c.createAll p ns).children p = c.children p ++ xs ∧
      (c.createAll p ns).MirrorAll xs ns := by
  cases ns with
  | nil => exact ⟨[], (List.append_nil _).symm, trivial⟩
  | cons n ns =>
    obtain ⟨hforest, hid, hget, hlt, hnone⟩ := create_spec hc n
    have hp' := hp.trans hlt
    have hbelow := not_below_new hget hc hp
    have hlinked := hforest.link_none hp' hlt hnone hbelow
    have hplt : p < ((c.create n).1.link p c.nodes.length none).nodes.length := by simpa using hp'
    obtain ⟨-, hgrows⟩ := createAll_spec hlinked hplt ns
    obtain ⟨xs, hchildren, hall⟩ := exists_createAll hlinked hplt ns
    have hparent : ((c.create n).1.link p c.nodes.length none).parent? c.nodes.length = some p := by
      rw [parent?_link hlt, if_pos rfl]
    have hfirst := ((mirrors_create hc n).link (y := c.nodes.length) (k := none) hforest hp'
      hbelow).grows hlinked hgrows (hlinked.not_below_parent hparent)
    rw [createAll_cons hid]
    refine ⟨c.nodes.length :: xs, ?_, hfirst, hall⟩
    rw [hchildren, children_link hp', if_pos rfl, children_congr (hget p hp), Option.getD_none,
      List.insertIdx_length_self, List.append_assoc]
    rfl

end

/-- A tree that is put behind the children of a node. -/
theorem place_none (hc : c.IsForest) (hp : p < c.nodes.length) (n : Node) :
    c.place p none n = ⟨(c.create n).1.link p c.nodes.length none, none⟩ := by
  obtain ⟨hforest, hid, hget, hlt, hnone⟩ := create_spec hc n
  have hbelow := not_below_new hget hc hp
  rw [← hforest.isAncestor_iff, Bool.not_eq_true] at hbelow
  simp only [place, insertBefore, hid, known_of_lt hlt, known_of_lt (hp.trans hlt), hbelow,
    unlink_of_parent? hnone]
  rfl

/-- **Trees that are put behind the children of a node, one after another.** -/
theorem run_place (hc : c.IsForest) (hp : p < c.nodes.length) (ns : List Node) :
    Outcome.run (fun c n => c.place p none n) c ns = ⟨c.createAll p ns, none⟩ := by
  induction ns generalizing c with
  | nil => rfl
  | cons n ns ih =>
    obtain ⟨hforest, hid, hget, hlt, hnone⟩ := create_spec hc n
    have hp' := hp.trans hlt
    have hlinked := hforest.link_none hp' hlt hnone (not_below_new hget hc hp)
    rw [Outcome.run, place_none hc hp, createAll_cons hid]
    exact ih hlinked (by simpa using hp')

/-! ## The container without what is no decoration -/

variable {d : Decoration} {ms : List Node}

/-- The canvas without the nodes `ys` of the container that are no decoration. -/
structure Clears (c c' : Canvas) (d : Decoration) (ys : List NodeId) : Prop where
  forest : c'.IsForest
  length : c'.nodes.length = c.nodes.length
  data? : ∀ x, c'.data? x = c.data? x
  parent? : ∀ x, c'.parent? x = if x ∈ ys ∧ c.isDecoration d x = false then none else c.parent? x
  children : ∀ x, x ≠ container → c'.children x = c.children x
  kept : c'.children container =
    (c.children container).filter fun x => c.isDecoration d x || !ys.contains x

theorem clears_foldl (hc : c.IsForest) (ys : List NodeId)
    (hys : ∀ y ∈ ys, c.parent? y = some container ∨ c.parent? y = none) :
    c.Clears (ys.foldl (fun c id => if c.isDecoration d id then c else c.unlink id) c) d ys := by
  induction ys generalizing c with
  | nil => exact ⟨hc, rfl, fun _ => rfl, by simp, fun _ _ => rfl, by simp⟩
  | cons y ys ih =>
    rw [List.foldl_cons]
    by_cases hy : c.isDecoration d y = true
    · rw [if_pos hy]
      obtain ⟨hforest, hlen, hdata, hparent, hchildren, hkept⟩ :=
        ih hc fun z hz => hys z (List.mem_cons_of_mem _ hz)
      refine ⟨hforest, hlen, hdata, fun x => ?_, hchildren,
        hkept.trans (List.filter_congr fun x _ => ?_)⟩
      · rw [hparent]
        by_cases hxy : x = y
        · simp [hxy, hy]
        · simp [hxy]
      · by_cases hxy : x = y
        · simp [hxy, hy]
        · simp [hxy]
    · rw [if_neg hy]
      have hys' : ∀ z ∈ ys, (c.unlink y).parent? z = some container ∨
          (c.unlink y).parent? z = none := fun z hz => by
        rw [parent?_unlink]
        split_ifs
        · exact .inr rfl
        · exact hys z (List.mem_cons_of_mem _ hz)
      obtain ⟨hforest, hlen, hdata, hparent, hchildren, hkept⟩ := ih (hc.unlink y) hys'
      refine ⟨hforest, hlen.trans length_unlink, fun x => (hdata x).trans data?_unlink,
        fun x => ?_, fun x hx => (hchildren x hx).trans ?_, hkept.trans ?_⟩
      · rw [hparent, isDecoration_congr data?_unlink, parent?_unlink]
        by_cases hxy : x = y
        · simp [hxy, hy]
        · simp [hxy]
      · rw [children_unlink]
        refine if_neg fun h => ?_
        rcases hys y List.mem_cons_self with h' | h'
        · exact hx (Option.some.inj (h.symm.trans h'))
        · cases h.symm.trans h'
      · have hunlink : (c.unlink y).children container =
            (c.children container).filter (· != y) := by
          rw [children_unlink]
          split_ifs with h
          · rfl
          · refine (List.filter_eq_self.2 fun x hx => ?_).symm
            simpa using fun hxy : x = y => h (hxy ▸ hc.mem_children.1 hx)
        rw [hunlink, List.filter_filter]
        refine List.filter_congr fun x _ => ?_
        rw [isDecoration_congr data?_unlink]
        by_cases hxy : x = y
        · simp [hxy, hy]
        · simp [hxy]

theorem clears_clear (hc : c.IsForest) (d : Decoration) :
    c.Clears (c.clear d) d (c.children container) :=
  clears_foldl hc _ fun _ hy => .inl (hc.mem_children.1 hy)

/-- The decoration of the container is left in it. -/
theorem children_clear (hc : c.IsForest) :
    (c.clear d).children container = (c.children container).filter (c.isDecoration d) := by
  refine (clears_clear hc d).kept.trans (List.filter_congr fun x hx => ?_)
  simp [hx]

/-- Nothing but decoration is left in the container. -/
theorem isDecoration_of_mem_clear (hc : c.IsForest) (hy : y ∈ (c.clear d).children container) :
    (c.clear d).isDecoration d y = true := by
  rw [children_clear hc] at hy
  rw [isDecoration_congr ((clears_clear hc d).data? y)]
  exact (List.mem_filter.1 hy).2

/-- Nothing in the container stands for a node of a document any more. -/
theorem hosts_clear (hc : c.IsForest) : (c.clear d).IsForest ∧
    c.Changes (c.clear d) d container
      ((c.children container).filter fun x => !c.isDecoration d x) ∧
    (c.clear d).data? container = c.data? container ∧
    (c.clear d).Hosts d false container [] := by
  obtain ⟨hforest, hlen, hdata, hparent, hchildren, -⟩ := clears_clear hc d
  refine ⟨hforest, ⟨hlen.ge, fun x _ _ => hdata x, fun x _ hx => hchildren x hx, fun x _ hx => ?_,
    fun x hx => ?_⟩, hdata container, ?_⟩
  · refine (hparent x).trans (if_neg fun h => hx ?_)
    simpa using h
  · obtain ⟨hx, hd⟩ := List.mem_filter.1 hx
    exact ⟨hc.mem_children.1 hx, by simpa using hd⟩
  · constructor
    · intro y hy s hs
      have := isDecoration_of_mem_clear hc hy
      obtain ⟨p, cs, hs⟩ := exists_get? hs
      simp [isDecoration, isElement, hs] at this
    · have : (c.clear d).significant d container = [] := by
        rw [significant, List.filter_eq_nil_iff]
        intro y hy hsig
        exact Bool.noConfusion
          ((isDecoration_of_isSignificant hsig).symm.trans (isDecoration_of_mem_clear hc hy))
      rw [this]
      exact .nil

/-- **A document is shown anew by new nodes behind the decoration of the container.** -/
theorem render_eq (hc : c.IsForest) (hlt : container < c.nodes.length) (n : Node) :
    c.render d n = ⟨(c.clear d).createAll container n.topLevel, none⟩ := by
  obtain ⟨hc₁, hchanges, -, -⟩ := hosts_clear (d := d) hc
  exact run_place hc₁ (hlt.trans_le hchanges.le) n.topLevel

/-- **A canvas shows another document; nothing but the document changes.** -/
theorem exists_render (hc : c.IsForest) (hlt : container < c.nodes.length) {n : Node}
    (hn : d.AllShowable false n.topLevel) :
    ∃ c', c.render d n = ⟨c', none⟩ ∧ c'.IsForest ∧ c'.data? container = c.data? container ∧
      c.Changes c' d container ((c.children container).filter fun x => !c.isDecoration d x) ∧
      c'.Hosts d false container n.topLevel := by
  obtain ⟨hc₁, hchanges, hdata, h₁⟩ := hosts_clear (d := d) hc
  have hlt₁ := hlt.trans_le hchanges.le
  obtain ⟨hc', hgrows⟩ := createAll_spec hc₁ hlt₁ n.topLevel
  exact ⟨_, render_eq hc hlt n, hc', hgrows.data?.trans hdata, hchanges.grows hgrows,
    hosts_createAll hc₁ hlt₁ h₁ n.topLevel hn⟩

end MarkupSync.Canvas
