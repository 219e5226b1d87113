import MarkupSync.Proofs.Document.Sound
import MarkupSync.Proofs.Patch.Derived
import MarkupSync.Proofs.Tree.Map

/-!
# Origins of nodes under edit

* `Document.at?`: the node at a path of a document, with its place;
* `Origin.IsOf`: an origin is the node of a document at its path;
* `Shadow.IsGenuine`: the origins of nodes under edit are nodes of the document, of their own kind;
* `Shadow.hereditary_applyAll`: edits keep what passes to the children, new nodes and revised ones;
* **`Shadow.isGenuine_applyAll`**: edits keep the origins of the nodes that they do not create.
-/

namespace MarkupSync

/-! ## Nodes with their places -/

namespace Document

/-- The child at an index with its place. -/
def child? (d : Document) (i : Nat) : Option Document :=
  match (Tree.children d.root)[i]?, d.place.children[i]? with
  | some n, some p => some ⟨n, p⟩
  | _, _ => none

/-- The node at a path with its place. -/
def at? (d : Document) : NodePath → Option Document
  | [] => some d
  | i :: path => (d.child? i).bind (at? · path)

variable {d c : Document} {path : NodePath} {i : Nat}

theorem at?_child (h : d.at? path = some c) : d.at? (path.child i) = c.child? i := by
  induction path generalizing d with
  | nil =>
    cases h
    rw [NodePath.child, List.nil_append, at?]
    cases c.child? i <;> rfl
  | cons j path ih =>
    obtain ⟨x, hx, hxc⟩ := Option.bind_eq_some_iff.1 h
    rw [NodePath.child, List.cons_append, at?, hx]
    exact ih hxc

variable {flavor : Flavor} {source : Text} {region : Span}

theorem IsSound.child? (h : d.IsSound flavor source region) (hc : d.child? i = some c) :
    c.IsSound flavor source region := by
  rw [Document.child?] at hc
  split at hc
  next m q hm hq =>
    cases hc
    obtain ⟨n, p⟩ := d
    cases n <;> cases p
    case element.element => exact h.2.of_getElem? hm hq
    case text.text => cases hm
    all_goals exact h.elim
  next => cases hc

/-- The places of every node are sound. -/
theorem IsSound.at? (h : d.IsSound flavor source region) (hc : d.at? path = some c) :
    c.IsSound flavor source region := by
  induction path generalizing d with
  | nil =>
    cases hc
    exact h
  | cons i path ih =>
    obtain ⟨x, hx, hxc⟩ := Option.bind_eq_some_iff.1 hc
    exact ih (h.child? hx) hxc

/-- The children stand in the place of their parent. -/
theorem IsSound.within_child? (h : d.IsSound flavor source region) (hc : d.child? i = some c) :
    c.place.outer.Within d.place.outer := by
  rw [Document.child?] at hc
  split at hc
  next m q hm hq =>
    cases hc
    obtain ⟨n, p⟩ := d
    cases n <;> cases p
    case element.element => exact h.1.child_within (List.mem_of_getElem? hq)
    case text.text => cases hm
    all_goals exact h.elim
  next => cases hc

/-- Every node stands in the place of the root. -/
theorem IsSound.within_at? (h : d.IsSound flavor source region) (hc : d.at? path = some c) :
    c.place.outer.Within d.place.outer := by
  induction path generalizing d with
  | nil =>
    cases hc
    exact ⟨Nat.le_refl _, Nat.le_refl _⟩
  | cons i path ih =>
    obtain ⟨x, hx, hxc⟩ := Option.bind_eq_some_iff.1 hc
    obtain ⟨h1, h2⟩ := ih (h.child? hx) hxc
    obtain ⟨h3, h4⟩ := h.within_child? hx
    exact ⟨Nat.le_trans h3 h1, Nat.le_trans h2 h4⟩

end Document

section Shape

variable {flavor : Flavor} {source : Text} {region : Span}

mutual

/-- A sound place has the shape of its node. -/
theorem Node.StandsAt.fits {n : Node} {p : Place} (h : n.StandsAt flavor source region p) :
    Fits (n, p) := by
  cases n <;> cases p
  case text.text => exact .text
  case element.element =>
    obtain ⟨l, rfl, rfl, hl⟩ := Node.StandAt.exists_fits h.2
    exact .element hl
  all_goals exact h.elim

theorem Node.StandAt.exists_fits {ns : List Node} {ps : List Place}
    (h : Node.StandAt flavor source region ns ps) :
    ∃ l : List (Node × Place), l.map Prod.fst = ns ∧ l.map Prod.snd = ps ∧ ∀ x ∈ l, Fits x := by
  cases ns <;> cases ps
  case nil.nil => exact ⟨[], rfl, rfl, nofun⟩
  case cons.cons n ns p ps =>
    obtain ⟨l, rfl, rfl, hl⟩ := Node.StandAt.exists_fits h.2
    exact ⟨(n, p) :: l, rfl, rfl, List.forall_mem_cons.2 ⟨Node.StandsAt.fits h.1, hl⟩⟩
  all_goals exact h.elim

end

end Shape

/-- An origin is the node of a document at its path, with its place. -/
def Origin.IsOf (d : Document) (o : Origin) : Prop := d.at? o.path = some ⟨o.node, o.place⟩

namespace Shadow

/-- The origin of a node under edit, if it has any, is a node of the document of its kind. -/
def IsFrom (d : Document) (s : Shadow) : Prop :=
  ∀ o ∈ s.origin, o.IsOf d ∧ o.node.isElement = s.isElement

/-- The origins of all nodes of a tree are nodes of the document. -/
def IsGenuine (d : Document) : Shadow → Prop := Tree.Throughout (IsFrom d)

variable {d : Document} {s t : Shadow}

theorem hereditary_isGenuine : Tree.Hereditary (IsGenuine d) :=
  Tree.hereditary_throughout (fun t ns h => by cases t <;> exact h)
    (fun t ns h => by
      cases t with
      | text => rfl
      | element => cases h)

theorem isGenuine_element {o : Option Origin} {tag : Text} {as st : Attrs} {cs : List Shadow} :
    IsGenuine d (.element o tag as st cs) ↔
      IsFrom d (.element o tag as st cs) ∧ ∀ c ∈ cs, IsGenuine d c := Tree.throughout_iff

/-- A node without children that has no origin. -/
theorem isFrom_of_origin (h : s.origin = none) : IsFrom d s := by
  intro o ho
  rw [h] at ho
  cases ho

theorem IsGenuine.isFrom (h : IsGenuine d s) : IsFrom d s := (Tree.throughout_iff.1 h).1

mutual

/-- New nodes have no origins. -/
theorem isGenuine_fresh (n : Node) : IsGenuine d (fresh n) := by
  cases n with
  | text => exact Tree.throughout_iff.2 ⟨isFrom_of_origin rfl, nofun⟩
  | element tag as st cs =>
    exact isGenuine_element.2 ⟨isFrom_of_origin rfl, isGenuine_freshAll cs⟩

theorem isGenuine_freshAll (ns : List Node) : ∀ c ∈ freshAll ns, IsGenuine d c := by
  cases ns with
  | nil => exact nofun
  | cons n ns => exact List.forall_mem_cons.2 ⟨isGenuine_fresh n, isGenuine_freshAll ns⟩

end

/-- The nodes of the document come from themselves. -/
theorem isGenuine_ofSource {x : Node × Place} (hx : Fits x) {path : NodePath}
    (h : d.at? path = some ⟨x.1, x.2⟩) : IsGenuine d (ofSource path x.2 x.1) := by
  induction hx generalizing path with
  | text =>
    refine Tree.throughout_iff.2 ⟨?_, nofun⟩
    rintro _ ⟨⟩
    exact ⟨h, rfl⟩
  | @element tag as st place l _ ih =>
    rw [ofSource, Place.children]
    refine isGenuine_element.2 ⟨?_, fun c hc => ?_⟩
    · rintro _ ⟨⟩
      exact ⟨h, rfl⟩
    · obtain ⟨i, y, hy, rfl⟩ := Fits.exists_of_mem_ofSources hc
      refine ih y (List.mem_of_getElem? hy) ?_
      rw [Document.at?_child h, Document.child?]
      simp [Tree.children, Tree.children?, Place.children, hy]

/-! ## Edits -/

/-- A node with new attributes and declarations or with another text, in place of the old one. -/
structure Revises (new old : Shadow) : Prop where
  origin : new.origin = old.origin
  tag? : new.toNode.tag? = old.toNode.tag?
  children : Tree.children new = Tree.children old

theorem revises_of_withDeltas {a b : Delta} (h : s.withDeltas a b = .ok t) : t.Revises s := by
  cases s with
  | text => cases h
  | element =>
    cases h
    exact ⟨rfl, rfl, rfl⟩

theorem revises_of_withContent {content : Text} (h : s.withContent content = .ok t) :
    t.Revises s := by
  cases s with
  | element => cases h
  | text =>
    cases h
    exact ⟨rfl, rfl, rfl⟩

theorem isElement_eq (s : Shadow) : s.isElement = s.toNode.tag?.isSome := by
  cases s <;> rfl

/-- The first of several edits, and the others. -/
theorem exists_of_applyAll_cons {e : Edit} {es : List Edit} (h : s.applyAll (e :: es) = .ok t) :
    ∃ u, s.edit e = .ok u ∧ u.applyAll es = .ok t := by
  rw [applyAll, apply] at h
  cases he : s.edit e with
  | error f =>
    rw [he] at h
    cases h
  | ok u =>
    rw [he] at h
    exact ⟨u, rfl, h⟩

section Hereditary

variable {P : Shadow → Prop} (hP : Tree.Hereditary P) (hfresh : ∀ n, P (fresh n))
  (hrevises : ∀ s t, t.Revises s → P s → P t)
include hP hfresh hrevises

/-- An edit keeps a property that passes to the children, that new nodes have and revised ones
keep. -/
theorem hereditary_edit (hs : P s) {e : Edit} (h : s.edit e = .ok t) : P t := by
  cases e with
  | insert p k n => exact hP.insertAt hs (hfresh n) h
  | remove p =>
    obtain ⟨⟨n, rest⟩, hd, rfl⟩ := exists_of_map_eq_ok h
    exact (hP.detach hs hd).2
  | replace p n =>
    have hu : Tree.updateAt s p (fun _ => .ok (fresh n)) = .ok t := h
    refine hP.updateAt (fun x y _ hy => ?_) hs hu
    cases hy
    exact hfresh n
  | updateAttributes p attributes style =>
    have hu : Tree.updateAt s p (withDeltas attributes style) = .ok t := h
    exact hP.updateAt (fun x y hx hy => hrevises x y (revises_of_withDeltas hy) hx) hs hu
  | updateText p content =>
    have hu : Tree.updateAt s p (withContent content) = .ok t := h
    exact hP.updateAt (fun x y hx hy => hrevises x y (revises_of_withContent hy) hx) hs hu
  | move p q k =>
    refine hP.move hs (q := q) (k := k) (p := p) ?_
    rw [edit, Outcome.result] at h
    split at h
    next hnone =>
      cases h
      exact congrArg (Outcome.mk _) hnone
    next => cases h

/-- Edits in order keep it. -/
theorem hereditary_applyAll (hs : P s) {es : List Edit} (h : s.applyAll es = .ok t) : P t := by
  induction es generalizing s with
  | nil =>
    cases h
    exact hs
  | cons e es ih =>
    obtain ⟨u, hu, hut⟩ := exists_of_applyAll_cons h
    exact ih (hereditary_edit hP hfresh hrevises hs hu) hut

end Hereditary

theorem IsGenuine.revises (hs : IsGenuine d s) (h : t.Revises s) : IsGenuine d t := by
  refine Tree.throughout_iff.2 ⟨fun o ho => ?_, h.children ▸ (Tree.throughout_iff.1 hs).2⟩
  rw [isElement_eq, h.tag?, ← isElement_eq]
  exact hs.isFrom o (h.origin ▸ ho)

/-- **Edits keep the origins of the nodes that they do not create.** -/
theorem isGenuine_applyAll (hs : IsGenuine d s) {es : List Edit} (h : s.applyAll es = .ok t) :
    IsGenuine d t :=
  hereditary_applyAll hereditary_isGenuine isGenuine_fresh (fun _ _ hr hs => hs.revises hr) hs h

end Shadow

end MarkupSync
