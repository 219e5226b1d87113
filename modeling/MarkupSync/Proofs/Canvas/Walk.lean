import MarkupSync.Proofs.Canvas.Built
import MarkupSync.Proofs.Canvas.Trace

/-!
# Walks over a canvas

The walks over a canvas are loops without a bound. They are given here as they go from node to node,
so that a walk that does not end has no derivation.

* `Canvas.Climbs`: the walk up from a node;
* `Canvas.Searches`: the search for an element, with a stack of the nodes to come;
* `Canvas.Adapts`: the reading of a document;
* `Canvas.WalksEnd`: nodes form a forest, and every walk ends and comes to no node twice;
* `Canvas.IsForest.walksEnd`: this holds on every forest;
* `Canvas.Change`, `Canvas.changes`: changes that a host makes, refused or not;
* **`Canvas.walksEnd_changes`**: after any changes every walk ends.
-/

namespace MarkupSync.Canvas

open Decoration

variable {c : Canvas} {a p x y : NodeId} {fuel : Nat}

/-! ## Walks -/

/-- The walk up from a node to another one: the nodes on the way, and whether the other one is among
them. -/
inductive Climbs (c : Canvas) (a : NodeId) : NodeId → List NodeId → Bool → Prop
  | found : Climbs c a a [a] true
  | top {x : NodeId} (hx : x ≠ a) (hp : c.parent? x = none) : Climbs c a x [x] false
  | up {x p : NodeId} {visited : List NodeId} {found : Bool} (hx : x ≠ a)
    (hp : c.parent? x = some p) (h : Climbs c a p visited found) : Climbs c a x (x :: visited) found

/-- The walk through the nodes on a stack and all below them, up to the first hit: the nodes on the
way, and the hit. -/
inductive Searches (c : Canvas) (isHit : NodeId → Bool) :
    List NodeId → List NodeId → Option NodeId → Prop
  | done : Searches c isHit [] [] none
  | hit {x : NodeId} {stack : List NodeId} (hx : isHit x = true) :
    Searches c isHit (x :: stack) [x] (some x)
  | next {x : NodeId} {stack visited : List NodeId} {found : Option NodeId} (hx : isHit x = false)
    (h : Searches c isHit (c.children x ++ stack) visited found) :
    Searches c isHit (x :: stack) (x :: visited) found

/-- The members of a list up to and with the first hit. -/
def upTo (isHit : NodeId → Bool) : List NodeId → List NodeId
  | [] => []
  | x :: xs => if isHit x then [x] else x :: upTo isHit xs

theorem upTo_isPrefix (isHit : NodeId → Bool) (xs : List NodeId) : upTo isHit xs <+: xs := by
  induction xs with
  | nil => exact List.prefix_rfl
  | cons x xs ih =>
    rw [upTo]
    split
    · exact ⟨xs, rfl⟩
    · exact List.cons_prefix_cons.2 ⟨rfl, ih⟩

/-- The reading of a list of children, behind the text `run`: the nodes on the way, and the nodes of
the document. -/
inductive Adapts (c : Canvas) (d : Decoration) (flavor : Flavor) :
    Bool → Text → List NodeId → List NodeId → List Node → Prop
  | done {raw : Bool} {run : Text} : Adapts c d flavor raw run [] [] (runNodes raw run)
  | comment {raw : Bool} {run s : Text} {x : NodeId} {xs visited : List NodeId} {ns : List Node}
    (hx : c.data? x = some (.comment s)) (h : Adapts c d flavor raw run xs visited ns) :
    Adapts c d flavor raw run (x :: xs) (x :: visited) ns
  | line {raw : Bool} {run s : Text} {x : NodeId} {xs visited : List NodeId} {ns : List Node}
    (hx : c.data? x = some (.text s)) (hflavor : flavor = .jsx ∧ raw = false)
    (h : Adapts c d flavor raw run xs visited ns) :
    Adapts c d flavor raw run (x :: xs) (x :: visited)
      (((joinedLines? s).map Node.text).toList ++ ns)
  | text {raw : Bool} {run s : Text} {x : NodeId} {xs visited : List NodeId} {ns : List Node}
    (hx : c.data? x = some (.text s)) (hflavor : flavor = .html ∨ raw = true)
    (h : Adapts c d flavor raw (run ++ s) xs visited ns) :
    Adapts c d flavor raw run (x :: xs) (x :: visited) ns
  | decoration {raw : Bool} {run tag : Text} {live : Attrs} {x : NodeId} {xs visited : List NodeId}
    {ns : List Node} (hx : c.data? x = some (.element tag live)) (hmarks : d.marks live = true)
    (h : Adapts c d flavor raw run xs visited ns) :
    Adapts c d flavor raw run (x :: xs) (x :: visited) ns
  | element {raw : Bool} {run tag : Text} {live : Attrs} {x : NodeId}
    {xs inside visited : List NodeId} {cs ns : List Node}
    (hx : c.data? x = some (.element tag live)) (hmarks : d.marks live = false)
    (hcs : Adapts c d flavor (isRaw tag) [] (c.children x) inside cs)
    (h : Adapts c d flavor raw [] xs visited ns) :
    Adapts c d flavor raw run (x :: xs) (x :: inside ++ visited)
      (runNodes raw run ++ .element tag (d.head live).attributes (d.head live).style cs :: ns)

/-- The nodes of a canvas form a forest, and every walk over them ends and comes to no node
twice. -/
structure WalksEnd (c : Canvas) : Prop where
  /-- A node is once among the children of its parent, and not among those of any other node. -/
  children : ∀ p x, (c.children p).count x = if c.parent? x = some p then 1 else 0
  /-- Parents and children are nodes of the canvas. -/
  known : ∀ p x, c.parent? x = some p → p < c.nodes.length ∧ x < c.nodes.length
  /-- No node is above itself. -/
  acyclic : ∀ x, ¬ Relation.TransGen (fun p x => c.parent? x = some p) x x
  climbs : ∀ a x, ∃ visited, c.Climbs a x visited (c.isAncestor a x) ∧ visited.Nodup
  searches : ∀ name value, ∃ visited,
    c.Searches (fun x => (c.attributes x).find? name == some value) [container] visited
      (c.find? name value) ∧ visited.Nodup
  adapts : ∀ d flavor, ∃ visited nodes,
    c.Adapts d flavor false [] (c.children container) visited nodes ∧
      c.adapt d flavor = .ofTopLevel nodes ∧ (container :: visited).Nodup

theorem searches_cons {isHit : NodeId → Bool} {stack vs : List NodeId}
    (h : c.Searches isHit (c.children x ++ stack) (upTo isHit vs) (vs.find? isHit)) :
    c.Searches isHit (x :: stack) (upTo isHit (x :: vs)) ((x :: vs).find? isHit) := by
  rw [upTo, List.find?_cons]
  cases hx : isHit x with
  | true => exact .hit hx
  | false => exact .next hx h

/-! ## The way up -/

namespace IsForest

variable (hc : c.IsForest)
include hc

theorem count_children (p x : NodeId) :
    (c.children p).count x = if c.parent? x = some p then 1 else 0 := by
  rw [(hc.nodup p).count]
  simp only [hc.mem_children]

theorem not_transGen (x : NodeId) : ¬ Relation.TransGen (fun p x => c.parent? x = some p) x x := by
  intro h
  obtain ⟨p, hxp, hpx⟩ := Relation.TransGen.tail'_iff.1 h
  exact hc.not_below_parent hpx hxp

/-- The walk up from a node comes to nodes above it only, so it never comes back. -/
theorem exists_climbs (a x : NodeId) : ∃ visited found, c.Climbs a x visited found ∧
    visited.Nodup ∧ (∀ y ∈ visited, c.Below y x) ∧ (found = true ↔ c.Below a x) := by
  induction hd : c.depth x using Nat.strong_induction_on generalizing x with
  | _ n ih =>
    subst hd
    by_cases hxa : x = a
    · subst hxa
      exact ⟨_, _, .found, List.nodup_singleton x, by simp [Below.refl], by simp [Below.refl]⟩
    cases hp : c.parent? x with
    | none =>
      refine ⟨_, _, .top hxa hp, List.nodup_singleton x, by simp [Below.refl], ⟨nofun, fun h => ?_⟩⟩
      obtain h | ⟨q, hq, -⟩ := h.eq_or_parent
      · exact absurd h hxa
      · rw [hp] at hq
        cases hq
    | some p =>
      obtain ⟨visited, found, hclimbs, hnodup, hbelow, hfound⟩ := ih _ (hc.depth_lt hp) p rfl
      have hnot : x ∉ visited := fun hx => hc.not_below_parent hp (hbelow x hx)
      refine ⟨_, _, .up hxa hp hclimbs, List.nodup_cons.2 ⟨hnot, hnodup⟩, ?_, ?_⟩
      · exact List.forall_mem_cons.2 ⟨.refl c x, fun y hy => (hbelow y hy).child hp⟩
      · exact hfound.trans ⟨fun h => h.child hp, fun h => h.parent hxa hp⟩

/-! ## The nodes below a node -/

theorem below_of_mem_preorderFrom (h : y ∈ c.preorderFrom fuel x) : c.Below x y := by
  induction fuel generalizing x with
  | zero =>
    obtain rfl := List.mem_singleton.1 h
    rfl
  | succ fuel ih =>
    rw [preorderFrom, List.mem_cons, List.mem_flatMap] at h
    obtain rfl | ⟨z, hz, h⟩ := h
    · rfl
    · exact Below.trans (.child (.refl c x) (hc.mem_children.1 hz)) (ih h)

/-- No node is met twice on the way through the nodes below a node. -/
theorem nodup_preorderFrom (fuel : Nat) (x : NodeId) : (c.preorderFrom fuel x).Nodup := by
  induction fuel generalizing x with
  | zero => exact List.nodup_singleton x
  | succ fuel ih =>
    rw [preorderFrom, List.nodup_cons, List.mem_flatMap, List.nodup_flatMap]
    refine ⟨?_, fun y _ => ih y, (hc.nodup x).imp_of_mem fun {y z} hy hz hne w hw hw' => ?_⟩
    · rintro ⟨y, hy, hx⟩
      exact hc.not_below_parent (hc.mem_children.1 hy) (hc.below_of_mem_preorderFrom hx)
    · exact hc.disjoint (hc.mem_children.1 hy) (hc.mem_children.1 hz) hne
        (hc.below_of_mem_preorderFrom hw) (hc.below_of_mem_preorderFrom hw')

/-- A node that as many nodes are above as there are has no children. -/
theorem children_eq_nil (h : c.nodes.length ≤ c.depth x) : c.children x = [] := by
  refine List.eq_nil_iff_forall_not_mem.2 fun y hy => ?_
  have := hc.depth_lt (hc.mem_children.1 hy)
  have := c.depth_le y
  omega

/-! ## The search -/

/-- With the nodes below a node put on the stack, all of them are met, in document order. -/
theorem searches_preorderFrom {isHit : NodeId → Bool} {stack vs : List NodeId}
    (h : c.Searches isHit stack (upTo isHit vs) (vs.find? isHit))
    (hf : c.nodes.length ≤ c.depth x + fuel) :
    c.Searches isHit (x :: stack) (upTo isHit (c.preorderFrom fuel x ++ vs))
      ((c.preorderFrom fuel x ++ vs).find? isHit) := by
  induction fuel generalizing x stack vs with
  | zero =>
    refine searches_cons ?_
    rw [hc.children_eq_nil hf]
    exact h
  | succ fuel ih =>
    refine searches_cons ?_
    have key {ys : List NodeId} (hys : ∀ y ∈ ys, c.parent? y = some x) :
        c.Searches isHit (ys ++ stack) (upTo isHit (ys.flatMap (c.preorderFrom fuel) ++ vs))
          ((ys.flatMap (c.preorderFrom fuel) ++ vs).find? isHit) := by
      induction ys with
      | nil => exact h
      | cons y ys ihys =>
        have := hc.depth_lt (hys y List.mem_cons_self)
        rw [List.flatMap_cons, List.append_assoc]
        exact ih (ihys fun z hz => hys z (List.mem_cons_of_mem y hz)) (by omega)
    exact key fun y hy => hc.mem_children.1 hy

theorem exists_searches (isHit : NodeId → Bool) : ∃ visited,
    c.Searches isHit [container] visited (c.preorder.find? isHit) ∧ visited.Nodup := by
  have h : c.Searches isHit [container] (upTo isHit (c.preorder ++ []))
      ((c.preorder ++ []).find? isHit) :=
    hc.searches_preorderFrom .done (Nat.le_add_left ..)
  rw [List.append_nil] at h
  exact ⟨_, h, (upTo_isPrefix isHit _).sublist.nodup (hc.nodup_preorderFrom ..)⟩

/-! ## The reading -/

/-- Children are read one after another, each with all below it that is no decoration. -/
theorem exists_adapts (d : Decoration) (flavor : Flavor) (raw : Bool) (run : Text)
    {xs : List NodeId} (hxs : ∀ x ∈ xs, c.nodes.length < c.depth x + fuel ∧ x < c.nodes.length) :
    ∃ visited, c.Adapts d flavor raw run xs visited
        (d.adaptAll flavor raw run (xs.map (c.viewFrom fuel))) ∧
      visited.Sublist (xs.flatMap (c.preorderFrom fuel)) := by
  induction fuel generalizing xs raw run with
  | zero =>
    cases xs with
    | nil => exact ⟨[], .done, .slnil⟩
    | cons x xs =>
      have := (hxs x List.mem_cons_self).1
      have := c.depth_le x
      omega
  | succ fuel ih =>
    induction xs generalizing run with
    | nil => exact ⟨[], .done, .slnil⟩
    | cons x xs ihxs =>
      obtain ⟨hfuel, hlt⟩ := hxs x List.mem_cons_self
      have hrest (run : Text) := ihxs run fun y hy => hxs y (List.mem_cons_of_mem x hy)
      -- what is met among the siblings behind `x`, with `x` in front of it
      have hskip {visited : List NodeId}
          (h : visited.Sublist (xs.flatMap (c.preorderFrom (fuel + 1)))) :
          (x :: visited).Sublist ((x :: xs).flatMap (c.preorderFrom (fuel + 1))) :=
        (h.trans (List.sublist_append_right ..)).cons_cons x
      obtain ⟨data, hx⟩ : ∃ data, c.data? x = some data :=
        Option.ne_none_iff_exists'.1 fun h => Nat.not_le_of_lt hlt (data?_eq_none_iff.1 h)
      rw [List.map_cons]
      cases data with
      | comment s =>
        obtain ⟨visited, hvisited, hsub⟩ := hrest run
        rw [viewFrom_comment hx, adaptAll_comment]
        exact ⟨_, .comment hx hvisited, hskip hsub⟩
      | text s =>
        rw [viewFrom_text hx]
        by_cases hflavor : flavor = .jsx ∧ raw = false
        · obtain ⟨rfl, rfl⟩ := hflavor
          obtain ⟨visited, hvisited, hsub⟩ := hrest run
          rw [adaptAll_line]
          exact ⟨_, .line hx ⟨rfl, rfl⟩ hvisited, hskip hsub⟩
        · have hflavor : flavor = .html ∨ raw = true := by
            cases flavor <;> cases raw <;> simp_all
          obtain ⟨visited, hvisited, hsub⟩ := hrest (run ++ s)
          rw [adaptAll_text hflavor]
          exact ⟨_, .text hx hflavor hvisited, hskip hsub⟩
      | element tag live =>
        rw [viewFrom_element hx, adaptAll_element]
        cases hmarks : d.marks live with
        | true =>
          obtain ⟨visited, hvisited, hsub⟩ := hrest run
          exact ⟨_, .decoration hx hmarks hvisited, hskip hsub⟩
        | false =>
          obtain ⟨visited, hvisited, hsub⟩ := hrest []
          have hcs : ∀ y ∈ c.children x, c.nodes.length < c.depth y + fuel ∧ y < c.nodes.length :=
            fun y hy => ⟨hc.fuel_child hy hfuel, lt_of_parent? (hc.mem_children.1 hy)⟩
          obtain ⟨inside, hinside, hsubcs⟩ := ih (isRaw tag) [] hcs
          rw [if_neg Bool.false_ne_true, adaptNode]
          exact ⟨_, .element hx hmarks hinside hvisited, (hsubcs.append hsub).cons_cons x⟩

end IsForest

/-- **On a forest every walk ends and comes to no node twice.** -/
theorem IsSound.walksEnd (h : c.IsSound) : c.WalksEnd := by
  obtain ⟨hc, name, live, hx⟩ := h
  refine ⟨hc.count_children, fun p x hp => ⟨hc.lt_of_parent hp, lt_of_parent? hp⟩,
    hc.not_transGen, fun a x => ?_, fun name value => hc.exists_searches _, fun d flavor => ?_⟩
  · obtain ⟨visited, found, hclimbs, hnodup, -, hfound⟩ := hc.exists_climbs a x
    obtain rfl : found = c.isAncestor a x := Bool.eq_iff_iff.2 (hfound.trans hc.isAncestor_iff.symm)
    exact ⟨visited, hclimbs, hnodup⟩
  · obtain ⟨visited, hvisited, hsub⟩ := hc.exists_adapts d flavor false []
      fun y hy => ⟨hc.fuel_container hx y hy, lt_of_parent? (hc.mem_children.1 hy)⟩
    refine ⟨visited, _, hvisited, adapt_eq hx, ?_⟩
    have hpreorder : (Canvas.container :: (c.children Canvas.container).flatMap
        (c.preorderFrom (c.nodes.length - 1))).Nodup :=
      hc.nodup_preorderFrom (_ + 1) Canvas.container
    exact (hsub.cons_cons Canvas.container).nodup hpreorder

/-! ## Changes -/

/-- A change that a host makes. -/
inductive Change
  | append (parent : NodeId) (data : LiveData)
  | create (n : Node)
  | mount (n : Node)
  | insertBefore (parent child : NodeId) (before : Option NodeId)
  | detach (id : NodeId)
  | setAttribute (id : NodeId) (name value : Text)
  | removeAttribute (id : NodeId) (name : Text)
  | setText (id : NodeId) (content : Text)

/-- A change, and why it is refused if it is. -/
def Change.apply (c : Canvas) : Change → Outcome Canvas CanvasError
  | .append p data => ⟨(c.append p data).1, none⟩
  | .create n => ⟨(c.create n).1, none⟩
  | .mount n => ⟨c.mount n, none⟩
  | .insertBefore p x before => c.insertBefore p x before
  | .detach x => .ofExcept c (c.detach x)
  | .setAttribute x name value => .ofExcept c (c.setAttribute x name value)
  | .removeAttribute x name => .ofExcept c (c.removeAttribute x name)
  | .setText x content => .ofExcept c (c.setText x content)

/-- New nodes are put below nodes of the canvas. -/
def Change.IsKnown (c : Canvas) : Change → Prop
  | .append p _ => p < c.nodes.length
  | _ => True

/-- The canvas after changes one after another; a change that is refused does not end them. -/
def changes (c : Canvas) (xs : List Change) : Canvas := xs.foldl (fun c x => (x.apply c).state) c

/-- All changes are known where they are made. -/
def AllKnown : Canvas → List Change → Prop
  | _, [] => True
  | c, x :: xs => x.IsKnown c ∧ AllKnown (x.apply c).state xs

theorem IsBuilt.apply (hc : c.IsBuilt) {x : Change} (hx : x.IsKnown c) :
    (x.apply c).state.IsBuilt := by
  cases x with
  | append p data => exact hc.append hx data
  | create n => exact hc.create n
  | mount n => exact hc.mount n
  | insertBefore p y before => exact hc.insertBefore p y before
  | detach y => exact Outcome.ofExcept_induction hc fun _ h => hc.detach h
  | setAttribute | removeAttribute =>
    exact Outcome.ofExcept_induction hc fun _ h => hc.updateAttributes h
  | setText => exact Outcome.ofExcept_induction hc fun _ h => hc.setText h

theorem IsBuilt.changes (hc : c.IsBuilt) {xs : List Change} (hxs : AllKnown c xs) :
    (c.changes xs).IsBuilt := by
  induction xs generalizing c with
  | nil => exact hc
  | cons x xs ih => exact ih (hc.apply hxs.1) hxs.2

/-- **After any changes, refused or not, the nodes form a forest, and every walk over them ends and
comes to no node twice.** -/
theorem walksEnd_changes {xs : List Change} (h : AllKnown .empty xs) :
    (Canvas.empty.changes xs).WalksEnd :=
  (IsBuilt.empty.changes h).isSound.walksEnd

/-- The element that is to go to the front of a node that it is not a child of is left without a
parent, and the container is put below it. -/
theorem walksEnd_changes_refused :
    let xs : List Change := [.mount (.element "p".toList .empty .empty [.text "a".toList]),
      .append container (.element "b".toList .empty), .insertBefore 3 1 (some 2),
      .insertBefore 1 container none, .insertBefore container 1 none]
    AllKnown .empty xs ∧ ((Canvas.empty.changes xs).nodes.map fun n => (n.parent, n.children)) =
      [(some 1, [3]), (none, [2, 0]), (some 1, []), (some 0, [])] ∧
    (Canvas.empty.changes xs).WalksEnd := by
  intro xs
  have hlt : container < (Canvas.empty.mount
      (.element "p".toList .empty .empty [.text "a".toList])).nodes.length := by decide
  have h : AllKnown .empty xs := ⟨trivial, hlt, trivial, trivial, trivial, trivial⟩
  exact ⟨h, by decide, walksEnd_changes h⟩

end MarkupSync.Canvas
