import MarkupSync.Proofs.Canvas.Built
import MarkupSync.Proofs.Canvas.Render
import MarkupSync.Proofs.Canvas.Step
import MarkupSync.Proofs.Diff.Reach

/-!
# Steps of a document on a display

* `Decoration.SparesTree`, `Decoration.IsApart`: documents without anything of the editor's;
* **`Canvas.Changes.keeps`**: a change of a shown node leaves the elements of the editor alone;
* `Display.Loses`: what edits take off the canvas;
* `Display.Shows`: a display whose canvas shows a document;
* `Display.exists_apply`, `Display.exists_apply_replace`: a step is carried out by the display;
* `Display.Retains`: the elements of the editor that are not taken off the canvas stay;
* **`Display.exists_applyAll`**, **`Display.exists_applyAll_diff`**: steps one after another;
* `Canvas.LeadsTo`: the canvas has the new document, and the elements of the editor stay;
* **`Canvas.leadsTo_of_adapt`**: the difference of two documents leads a canvas that shows the one to
  the other;
* `Canvas.isPlain_of_closed`: a canvas is plain if the nodes that are shown are;
* `Canvas.not_leadsTo`: attributes of a wrapping root, declarations without a name and elements named
  as the wrapping root.
-/

namespace MarkupSync

/-! ## Documents without decoration -/

namespace Decoration

variable {d : Decoration}

/-- Nothing of the editor's is in a document, and none of its texts is only white space. -/
def SparesTree (d : Decoration) : Node → Prop :=
  Node.Everywhere fun _ as st cs =>
    d.Spares as st ∧ ∀ t, Node.text t ∈ cs → t.all isSpace = false

instance decidableTexts : (cs : List Node) →
    Decidable (∀ t, Node.text t ∈ cs → t.all isSpace = false)
  | [] => .isTrue nofun
  | .text t :: cs =>
    have := decidableTexts cs
    decidable_of_iff (t.all isSpace = false ∧ ∀ t, Node.text t ∈ cs → t.all isSpace = false)
      (by simp)
  | .element .. :: cs =>
    have := decidableTexts cs
    decidable_of_iff (∀ t, Node.text t ∈ cs → t.all isSpace = false) (by simp)

instance (n : Node) : Decidable (d.SparesTree n) :=
  inferInstanceAs (Decidable (Node.Everywhere _ n))

/-- In addition there are no braces in its class lists. -/
def IsApart (d : Decoration) : Node → Prop :=
  Node.Everywhere fun _ as st cs =>
    d.IsFree as st ∧ ∀ t, Node.text t ∈ cs → t.all isSpace = false

theorem IsApart.sparesTree {n : Node} (h : d.IsApart n) : d.SparesTree n :=
  Node.Everywhere.mono (fun ⟨hfree, htexts⟩ => ⟨hfree.spares, htexts⟩) h

theorem inherited_isShowable : Node.Inherited d.IsShowable := by
  intro raw tag as st cs h n hn
  obtain ⟨-, -, -, -, hcs⟩ := h
  exact allShowable_iff.1 hcs n hn

theorem spares_empty : d.Spares .empty .empty :=
  ⟨List.forall_mem_nil _, fun h => absurd rfl h, List.forall_mem_nil _⟩

theorem isShowable_text {t : Text} (hn : t ≠ []) (ht : Text.collapse t = t)
    (hs : t.all isSpace = false) : d.IsShowable false (.text t) :=
  ⟨hs, collapsed?_of_collapse_eq hn ht⟩

mutual

/-- New nodes can stand for elements that HTML can express. -/
theorem isShowable_of_isNormal {raw : Bool} {n : Node} (h : n.IsNormal) (hel : n.isElement = true)
    (ha : d.SparesTree n) : d.IsShowable raw n := by
  cases n with
  | text => cases hel
  | element tag as st cs =>
    obtain ⟨htag, hattrs, hdecl, -, hcs⟩ := h
    obtain ⟨⟨hfree, htexts⟩, hall⟩ := ha
    refine ⟨fun hroot => absurd hroot htag.ne_rootTag, hfree, hattrs, hdecl, ?_⟩
    split_ifs at hcs with hraw
    · match cs, hcs, htexts with
      | [], _, _ => trivial
      | [.text t], ⟨hne, htrim, _⟩, htexts =>
        refine ⟨⟨htexts t List.mem_cons_self, ?_⟩, trivial⟩
        rw [hraw, runText?_raw, htrim, if_neg hne]
    · rw [Bool.not_eq_true] at hraw
      rw [hraw]
      exact allShowable_of_allNormal hcs.2 htexts hall

theorem allShowable_of_allNormal {ns : List Node} (h : Node.AllNormal ns)
    (ht : ∀ t, Node.text t ∈ ns → t.all isSpace = false)
    (ha : Node.AllEverywhere (fun _ as st cs =>
      d.Spares as st ∧ ∀ t, Node.text t ∈ cs → t.all isSpace = false) ns) :
    d.AllShowable false ns := by
  cases ns with
  | nil => trivial
  | cons n ns =>
    refine ⟨?_, allShowable_of_allNormal h.2 (fun t ht' => ht t (List.mem_cons_of_mem _ ht')) ha.2⟩
    cases n with
    | text t => exact isShowable_text h.1.1 h.1.2 (ht t List.mem_cons_self)
    | element => exact isShowable_of_isNormal h.1 rfl ha.1

end

/-- New nodes can stand for documents that HTML can express. -/
theorem isShowable_of_isNormalDocument {n : Node} (h : n.IsNormalDocument) (ha : d.SparesTree n) :
    d.IsShowable false n := by
  cases n with
  | text => exact h.elim
  | element tag as st cs =>
    rw [Node.IsNormalDocument] at h
    split_ifs at h with htag
    · obtain ⟨rfl, rfl, -, hcs, -⟩ := h
      subst htag
      exact ⟨fun _ => ⟨rfl, rfl⟩, spares_empty, List.forall_mem_nil _, List.forall_mem_nil _,
        allShowable_of_allNormal hcs ha.1.2 ha.2⟩
    · exact isShowable_of_isNormal h rfl ha

end Decoration

/-! ## What stays -/

namespace Canvas

variable {c c' : Canvas} {d : Decoration} {a x y : NodeId} {gone : List NodeId}

/-- The elements of the editor are still on the canvas, unless they are below a node of `gone`, and
nothing below them has changed. -/
structure Keeps (c c' : Canvas) (d : Decoration) (gone : List NodeId) : Prop where
  get? : ∀ a, c.IsArtifact d a → ∀ y, c.Below a y → c'.get? y = c.get? y
  isArtifact : ∀ a, c.IsArtifact d a → (∀ y ∈ gone, ¬ c.Below y a) → c'.IsArtifact d a

/-- What is below an element of the editor is still below it. -/
theorem Keeps.below (h : c.Keeps c' d gone) (ha : c.IsArtifact d a) (hy : c.Below a y) :
    c'.Below a y := by
  induction hy with
  | refl => rfl
  | @tail p y hp hy ih => exact ih.child ((parent?_congr (h.get? a ha y (Below.child hp hy))).trans hy)

/-- **A change of a shown node leaves the elements of the editor alone.** -/
theorem Changes.keeps (h : c.Changes c' d x gone) (hc : c.IsForest) (hx : c.Shown d x) :
    c.Keeps c' d gone := by
  have hkept : ∀ a, c.IsArtifact d a → ∀ y, c.Below a y → c'.get? y = c.get? y := by
    intro a ha y hy
    have hlt : y < c.nodes.length := by
      obtain rfl | ⟨p, hp, -⟩ := ha.below.eq_or_parent
      · exact absurd rfl ha.ne
      · exact hy.lt (lt_of_parent? hp)
    have hne : y ≠ x := fun hyx => hx.not_below hc ha (hyx ▸ hy)
    have hnot : y ∉ gone := by
      intro hgone
      obtain ⟨hparent, hd⟩ := h.gone y hgone
      obtain rfl | ⟨p, hp, hb⟩ := hy.eq_or_parent
      · exact Bool.noConfusion (hd.symm.trans ha.isDecoration)
      · cases hp.symm.trans hparent
        exact hx.not_below hc ha hb
    exact get?_congr (h.data? y hlt hne) (h.parent? y hlt hnot) (h.children y hlt hne)
  refine ⟨hkept, fun a ha hgone => ⟨?_, ha.ne, ?_⟩⟩
  · exact ha.below.congr fun y hy hlt _ => h.parent? y hlt fun hmem => hgone y hmem hy
  · rw [isDecoration_congr (data?_congr (hkept a ha a (.refl c a)))]
    exact ha.isDecoration

end Canvas

namespace Display

open Canvas

variable {s : Display} {d : Decoration} {n m : Node} {e : Edit}

/-- A node is below one that the edits take off the canvas. -/
def Loses (d : Decoration) : Display → List Edit → NodeId → Prop
  | _, [], _ => False
  | s, e :: es, x =>
    (∃ y ∈ s.removed d e, s.canvas.Below y x) ∨ Loses d (s.apply d e).state es x

/-- The canvas of a display shows a document. -/
structure Shows (d : Decoration) (s : Display) (n : Node) : Prop where
  forest : s.canvas.IsForest
  container : ∃ name live, s.canvas.data? Canvas.container = some (.element name live)
  hosts : s.canvas.Hosts d false Canvas.container n.topLevel
  isWrapped : s.isWrapped = n.isRoot
  isElement : n.isElement = true
  root : n.isRoot = true → n = .root n.children

namespace Shows

variable (h : Shows d s n)
include h

theorem container_lt : Canvas.container < s.canvas.nodes.length :=
  let ⟨_, _, hdata⟩ := h.container
  lt_of_data? hdata

/-- The container stands for a wrapping root. -/
theorem resolve_root (hn : n.isRoot = true) : s.resolve d [] = .ok Canvas.container := by
  rw [resolve, Display.root, h.isWrapped, if_pos hn]
  rfl

/-- The element of a document without a wrapping root is the one child of the container. -/
theorem exists_resolve (hn : n.isRoot = false) :
    ∃ x, (s.canvas.significant d Canvas.container)[0]? = some x ∧ s.resolve d [] = .ok x ∧
      s.canvas.Stands d false x n := by
  have hhosts := h.hosts.2
  rw [Node.topLevel, hn, if_neg Bool.false_ne_true] at hhosts
  obtain ⟨x, xs, hx, hxs, hsig⟩ := List.forall₂_cons_right_iff.1 hhosts
  obtain rfl := List.forall₂_nil_right_iff.1 hxs
  have hel := hx.isElement.trans h.isElement
  refine ⟨x, by rw [hsig]; rfl, ?_, hx⟩
  rw [resolve, Display.root, h.isWrapped, hn, hsig]
  simp [hel, descend]

/-- The order of attributes does not matter. -/
theorem same (hnm : n.Same m) (hm : m.IsNormalDocument) : Shows d s m := by
  refine ⟨h.forest, h.container, ⟨h.hosts.1, ?_⟩, h.isWrapped.trans hnm.isRoot, hm.isElement,
    hm.eq_root⟩
  exact standAll_iff.1 ((standAll_iff.2 h.hosts.2).same hnm.topLevel)

/-- **A document that is shown is read back from the canvas.** -/
theorem same_adapt (hn : n.IsNormalDocument) : (s.canvas.adapt d .html).Same n := by
  obtain ⟨name, live, hx⟩ := h.container
  obtain ⟨hnodes, htexts, heq⟩ := hn.topLevel
  have hread := h.hosts.same_adapt h.forest hx hnodes htexts
  rwa [heq] at hread

end Shows

/-- Steps that do not replace the document leave the kind of its root. -/
theorem root_of_step {P : Bool → Node → Prop} {raw : Bool} (h : Node.Step P raw n e m)
    (he : ∀ k, e ≠ .replace [] k) : m.isElement = n.isElement ∧ m.isRoot = n.isRoot := by
  cases h with
  | replace => exact absurd rfl (he _)
  | _ => exact ⟨rfl, rfl⟩

/-- A step of a document without a wrapping root. -/
theorem exists_step_element (h : Shows d s n)
    (hn : n.isRoot = false) (hstep : Node.Step d.IsShowable false n e m)
    (he : ∀ k, e ≠ .replace [] k) :
    ∃ c', s.apply d e = ⟨{ s with canvas := c' }, none⟩ ∧ Shows d { s with canvas := c' } m ∧
      s.canvas.Keeps c' d (s.removed d e) := by
  obtain ⟨x, hx, hresolve, hs⟩ := h.exists_resolve hn
  obtain ⟨c', hp, hs'⟩ := exists_step hstep he h.forest hresolve hs
  rw [Edit.under_nil] at hp
  obtain ⟨y, hxy, hy, hchanges⟩ := hp.changes
  obtain ⟨hel, hroot⟩ := root_of_step hstep he
  have hparent := h.forest.mem_children.1 (mem_significant.1 (List.mem_of_getElem? hx)).1
  have hne : Canvas.container ≠ y := by
    rintro rfl
    exact h.forest.not_below_parent hparent hxy
  have hdata := hchanges.data? _ (h.forest.lt_of_parent hparent) hne
  have hhosts := h.hosts.set h.forest hx hxy hchanges hs'
  rw [Node.topLevel, hn, if_neg Bool.false_ne_true] at hhosts
  refine ⟨c', hp.apply, ⟨hp.forest, ?_, ?_, h.isWrapped.trans hroot.symm, hel.trans h.isElement,
    fun hm => ?_⟩, hchanges.keeps h.forest hy⟩
  · rw [hdata]
    exact h.container
  · rw [Node.topLevel, hroot, hn, if_neg Bool.false_ne_true]
    exact hhosts
  · rw [hroot, hn] at hm
    cases hm

theorem updated_between_empty (live : Attrs) :
    d.updated live (.between .empty .empty) (.between .empty .empty) = live := by
  rfl

/-- A step of a document with a wrapping root. -/
theorem exists_step_wrapped (h : Shows d s n)
    (hn : n.isRoot = true) (hstep : Node.Step d.IsShowable false n e m)
    (he : ∀ k, e ≠ .replace [] k) :
    ∃ c', s.apply d e = ⟨{ s with canvas := c' }, none⟩ ∧ Shows d { s with canvas := c' } m ∧
      s.canvas.Keeps c' d (s.removed d e) := by
  have hresolve := h.resolve_root hn
  have hlt := h.container_lt
  -- it is enough that the edit is carried out at the container
  have key : ∀ {c' : Canvas} {ms : List Node}, m = .root ms →
      Performs d s (e.under []) Canvas.container c' →
      c'.data? Canvas.container = s.canvas.data? Canvas.container →
      c'.Hosts d false Canvas.container ms →
      ∃ c', s.apply d e = ⟨{ s with canvas := c' }, none⟩ ∧ Shows d { s with canvas := c' } m ∧
        s.canvas.Keeps c' d (s.removed d e) := by
    rintro c' ms rfl hp hdata hhosts
    rw [Edit.under_nil] at hp
    obtain ⟨y, -, hy, hchanges⟩ := hp.changes
    exact ⟨c', hp.apply, ⟨hp.forest, hdata ▸ h.container, hhosts, h.isWrapped.trans hn, rfl,
      fun _ => rfl⟩, hchanges.keeps h.forest hy⟩
  obtain ⟨cs, rfl⟩ : ∃ cs, n = .root cs := ⟨_, h.root hn⟩
  have hhosts : s.canvas.Hosts d false Canvas.container cs := h.hosts
  have hraw : isRaw Node.rootTag = false := by decide
  generalize hr : Node.root cs = r at hstep
  cases hstep with
  | text => cases hr
  | replace => exact absurd rfl (he _)
  | attributes hbs =>
    cases hr
    obtain ⟨rfl, rfl⟩ := hbs.1 rfl
    obtain ⟨name, live, hlive⟩ := h.container
    have happly := updateAttributes_eq (d := d) hlive (.between .empty .empty)
      (.between .empty .empty)
    rw [updated_between_empty] at happly
    refine key rfl (performs_setData h.forest hresolve hlive ?_ rfl) (by rw [setData_self hlive])
      (hosts_setData h.forest hhosts hlt)
    rw [Edit.under_nil, apply, hresolve]
    simp only [isElement_of_data? hlive, if_true, happly]
    rfl
  | insert hk hk' =>
    cases hr
    rw [hraw] at hk'
    obtain ⟨c', hp, hdata, hcs⟩ := exists_insert h.forest hresolve hhosts hlt hk hk'
    exact key rfl hp hdata hcs
  | remove hk =>
    cases hr
    obtain ⟨c', hp, hdata, hcs⟩ := exists_remove h.forest hresolve hhosts hk
    exact key rfl hp hdata hcs
  | move hi hk =>
    cases hr
    obtain ⟨c', hp, hdata, hcs⟩ := exists_move h.forest hresolve hhosts hi hk
    exact key rfl hp hdata hcs
  | inside hi hstep =>
    cases hr
    rw [hraw] at hstep
    obtain ⟨c', hp, hdata, hcs⟩ := exists_inside h.forest hresolve hhosts hi hstep
      fun he q y hy hs => exists_step hstep he h.forest hy hs
    exact key rfl hp hdata hcs

/-- A step of a document is carried out by the display. -/
theorem exists_apply (h : Shows d s n)
    (hstep : Node.Step d.IsShowable false n e m) (he : ∀ k, e ≠ .replace [] k) :
    ∃ c', s.apply d e = ⟨{ s with canvas := c' }, none⟩ ∧ Shows d { s with canvas := c' } m ∧
      s.canvas.Keeps c' d (s.removed d e) := by
  cases hn : n.isRoot with
  | false => exact exists_step_element h hn hstep he
  | true => exact exists_step_wrapped h hn hstep he

theorem allShowable_topLevel (hm : d.IsShowable false m)
    (hroot : m.isRoot = true → m = .root m.children) : d.AllShowable false m.topLevel := by
  rw [Node.topLevel]
  split_ifs with hr
  · rw [hroot hr] at hm
    obtain ⟨-, -, -, -, hcs⟩ := hm
    exact hcs
  · exact ⟨hm, trivial⟩

/-- A step that shows another document. -/
theorem exists_apply_replace (h : Shows d s n) (hm : d.IsShowable false m)
    (hel : m.isElement = true) (hroot : m.isRoot = true → m = .root m.children) :
    ∃ c', s.apply d (.replace [] m) = ⟨⟨c', m.isRoot⟩, none⟩ ∧ Shows d ⟨c', m.isRoot⟩ m ∧
      s.canvas.Keeps c' d (s.removed d (.replace [] m)) := by
  obtain ⟨c', hrender, hforest, hdata, hchanges, hhosts⟩ :=
    exists_render h.forest h.container_lt (allShowable_topLevel hm hroot)
  refine ⟨c', ?_, ⟨hforest, hdata ▸ h.container, hhosts, rfl, hel, hroot⟩, ?_⟩
  · simp only [apply, replace, NodePath.split?, hrender]
    rfl
  · rw [removed, if_pos rfl]
    exact hchanges.keeps h.forest .container

/-! ## Edits one after another -/

/-- The elements of the editor that the edits do not take off the canvas are still on it, and they
and all that is below them are as they were. -/
def Retains (d : Decoration) (s : Display) (es : List Edit) (s' : Display) : Prop :=
  ∀ a, s.canvas.IsArtifact d a → ¬ Loses d s es a →
    s'.canvas.IsArtifact d a ∧ ∀ y, s.canvas.Below a y → s'.canvas.get? y = s.canvas.get? y

theorem Retains.cons {s' s'' : Display} {es : List Edit} (happly : s.apply d e = ⟨s', none⟩)
    (h : s.canvas.Keeps s'.canvas d (s.removed d e)) (h' : Retains d s' es s'') :
    Retains d s (e :: es) s'' := by
  intro a ha hlost
  rw [Loses, happly, not_or] at hlost
  obtain ⟨ha'', hget⟩ := h' a (h.isArtifact a ha fun y hy hb => hlost.1 ⟨y, hy, hb⟩) hlost.2
  exact ⟨ha'', fun y hy => (hget y (h.below ha hy)).trans (h.get? a ha y hy)⟩

/-- **Steps of a document are carried out by the display.** -/
theorem exists_applyAll {es : List Edit}
    (h : Shows d s n) (hsteps : Node.Steps d.IsShowable false n es m)
    (hes : ∀ e ∈ es, ∀ k, e ≠ .replace [] k) :
    ∃ s', s.applyAll d es = ⟨s', none⟩ ∧ Shows d s' m ∧ Retains d s es s' := by
  induction hsteps generalizing s with
  | nil => exact ⟨s, rfl, h, fun _ ha _ => ⟨ha, fun _ _ => rfl⟩⟩
  | cons hstep _ ih =>
    obtain ⟨c', happly, h', hkeeps⟩ := exists_apply h hstep (hes _ List.mem_cons_self)
    obtain ⟨s', hrun, hs', hretains⟩ := ih h' fun e he => hes e (List.mem_cons_of_mem _ he)
    refine ⟨s', ?_, hs', hretains.cons happly hkeeps⟩
    rw [applyAll, Outcome.run, happly]
    exact hrun

/-- **The difference of two documents is carried out by the display.** -/
theorem exists_applyAll_diff (h : Shows d s n)
    (hm : m.IsNormalDocument) (hapart : d.SparesTree m) :
    ∃ s' k, s.applyAll d (n.diff m) = ⟨s', none⟩ ∧ Shows d s' k ∧ k.Same m ∧
      Retains d s (n.diff m) s' := by
  have hshow := Decoration.isShowable_of_isNormalDocument hm hapart
  by_cases htag : n.tag? = m.tag?
  · obtain ⟨k, hsteps, hk⟩ := Node.exists_steps_diff Decoration.inherited_isShowable false n m hshow
    obtain ⟨s', hrun, hs', hretains⟩ := exists_applyAll h hsteps fun e he j =>
      Node.ne_replace_of_mem_diff h.isElement htag he j
    exact ⟨s', k, hrun, hs', hk, hretains⟩
  · rw [Node.diff_eq_replace htag]
    obtain ⟨c', happly, h', hkeeps⟩ := exists_apply_replace h hshow hm.isElement hm.eq_root
    refine ⟨⟨c', m.isRoot⟩, m, ?_, h', .refl m, .cons happly hkeeps ?_⟩
    · rw [applyAll, Outcome.run, happly]
      rfl
    · exact fun _ ha _ => ⟨ha, fun _ _ => rfl⟩

end Display

/-! ## Differences on the canvas -/

namespace Canvas

open Decoration

variable {c : Canvas} {d : Decoration} {a b : Node}

/-- The difference of two documents leads the canvas from the one to the other. The elements of the
editor that are not in what is removed or replaced stay where they are, with all that they contain. -/
def LeadsTo (c : Canvas) (d : Decoration) (a b : Node) : Prop :=
  ∃ s, Display.applyAll d (.of c a) (a.diff b) = ⟨s, none⟩ ∧ (s.canvas.adapt d .html).Same b ∧
    Display.Retains d (.of c a) (a.diff b) s

/-- A canvas from which a document is read shows it. -/
theorem shows_of_adapt (hc : c.IsBuilt) (hp : c.IsPlain d)
    (hbraces : ∀ x, c.Shown d x → d.HasPlainClasses (c.attributes x))
    (htop : ∀ x ∈ c.significant d container, c.tag? x ≠ some Node.rootTag)
    (ha : a.IsNormalDocument) (hsame : (c.adapt d .html).Same a) : Display.Shows d (.of c a) a := by
  obtain ⟨hforest, name, live, hx⟩ := hc.isSound
  exact ⟨hforest, ⟨name, live, hx⟩, hosts_of_adapt hforest hp hbraces hx htop hsame ha, rfl, ha.isElement,
    ha.eq_root⟩

/-- A canvas on which a document is shown anew. -/
theorem exists_render_shows (hc : c.IsBuilt) (hb : b.IsNormalDocument) (hspares : d.SparesTree b) :
    ∃ c', c.render d b = ⟨c', none⟩ ∧ Display.Shows d (.of c' b) b := by
  obtain ⟨hforest, name, live, hx⟩ := hc.isSound
  have hshow := isShowable_of_isNormalDocument hb hspares
  obtain ⟨c', hrender, hforest', hdata, -, hhosts⟩ :=
    exists_render hforest (lt_of_data? hx) (Display.allShowable_topLevel hshow hb.eq_root)
  exact ⟨c', hrender, hforest', ⟨name, live, hdata.trans hx⟩, hhosts, rfl, hb.isElement, hb.eq_root⟩

/-- **The difference of two documents leads a canvas that shows the one to the other.** -/
theorem leadsTo_of_adapt (hc : c.IsBuilt) (hp : c.IsPlain d)
    (htop : ∀ x ∈ c.significant d container, c.tag? x ≠ some Node.rootTag)
    (hd : ∀ w ∈ d.classes, IsBraceless w) (ha : a.IsNormalDocument)
    (hsame : (c.adapt d .html).Same a) (hb : b.IsNormalDocument) (hapart : d.IsApart b) :
    c.LeadsTo d a b := by
  obtain ⟨s, n, hrun, hs, hn, hretains⟩ :=
    Display.exists_applyAll_diff (shows_of_adapt hc hp (fun _ _ w _ => hd w) htop ha hsame) hb
      hapart.sparesTree
  exact ⟨s, hrun, (hs.same_adapt (hb.same hn.symm)).trans hn, hretains⟩

/-! ## A card with a button of the editor -/

/-- A canvas is plain if the nodes that are reached without passing decoration are. -/
theorem isPlain_of_closed (xs : List NodeId) (hx : container ∈ xs)
    (hclosed : ∀ x ∈ xs, ∀ y ∈ c.significant d x, y ∈ xs)
    (hgaps : ∀ x ∈ xs, ∀ y ∈ c.children x, ∀ s ∈ c.content? y,
      s.all isSpace = true → s.all isBlank = true)
    (hapart : ∀ x ∈ xs, (c.significant d x).IsChain fun y z =>
      ¬ (c.isElement y = false ∧ c.isElement z = false)) : c.IsPlain d := by
  have hmem : ∀ x, c.Shown d x → x ∈ xs := by
    intro x h
    induction h with
    | container => exact hx
    | child _ hy ih => exact hclosed _ ih _ hy
  refine ⟨fun x h y hy s hs hspace => ?_, fun x h _ => hapart x (hmem x h)⟩
  have hcontent : c.content? y = some s := by
    obtain ⟨q, cs, hget⟩ := exists_get? hs
    rw [content?, hget]
  exact List.all_eq_true.1 (hgaps x (hmem x h) y hy s hcontent hspace)

/-- A button that the editor has put into a card. -/
def button : Node := .element ['i'] ⟨[(className, ['r'])], by decide⟩ .empty [.text ['x']]

/-- A card. -/
def card (children : List Node) : Node :=
  .element ['p'] ⟨[(className, ['c'])], by decide⟩ .empty children

theorem leadsTo_of_adapt_card :
    let d : Decoration := ⟨[['s']], [['r']], [], ['u']⟩
    let c := Canvas.ofNode (card [.text ['a'], button])
    c.IsArtifact d 3 ∧ c.LeadsTo d (card [.text ['a']])
      (card [.element ['b'] .empty .empty [.text ['a']], .text ['c']]) := by
  intro d c
  have hparent : c.parent? 1 = some container := rfl
  have hapart : d.IsApart (card [.element ['b'] .empty .empty [.text ['a']], .text ['c']]) :=
    ⟨⟨by decide, by simp [isSpace]⟩, ⟨⟨by decide, by simp [isSpace]⟩, trivial, trivial⟩, trivial,
      trivial⟩
  exact ⟨⟨((Below.refl c container).child hparent).child rfl, by decide, rfl⟩,
    leadsTo_of_adapt (.mount .empty _)
      (isPlain_of_closed [0, 1, 2] (by decide) (by decide) (by decide) (by decide))
      (by decide) (by decide) (by decide) (.refl _) (by decide) hapart⟩

/-! ## What is not kept apart -/

/-- A document whose wrapping root has an attribute. -/
def markedRoot : Node := .element Node.rootTag ⟨[(['a'], ['b'])], by decide⟩ .empty [.text ['x']]

/-- An element with a declaration that has no name. -/
def namelessStyle : Node := .element ['p'] .empty ⟨[([], ['r'])], by decide⟩ []

/-- A canvas on which an element is named as the wrapping root. -/
def nestedRoot : Canvas :=
  ((empty.append 0 (.element Node.rootTag .empty)).1.append 1 (.text ['x'])).1

theorem isBuilt_nestedRoot : nestedRoot.IsBuilt :=
  .append (.append .empty (by decide) _) (by decide) _

theorem LeadsTo.error (h : c.LeadsTo d a b) :
    (Display.applyAll d (.of c a) (a.diff b)).error = none := by
  obtain ⟨s, hs, -⟩ := h
  rw [hs]

theorem LeadsTo.same (h : c.LeadsTo d a b) :
    ((Display.applyAll d (.of c a) (a.diff b)).state.canvas.adapt d .html).Same b := by
  obtain ⟨s, hs, hsame, -⟩ := h
  rwa [hs]

/-- The attributes of a wrapping root and a declaration without a name are not read back, and an
element that is named as the wrapping root is taken for a node below it. -/
theorem not_leadsTo :
    let d : Decoration := ⟨[['s']], [['r']], [], ['u']⟩
    let x := Node.root [.text ['x']]
    let p := Node.element ['p'] .empty .empty []
    (((Canvas.ofNode x).adapt d .html).Same x ∧ ¬ (Canvas.ofNode x).LeadsTo d x markedRoot) ∧
      (((Canvas.ofNode p).adapt d .html).Same p ∧
        ¬ (Canvas.ofNode p).LeadsTo d p namelessStyle) ∧
      nestedRoot.IsBuilt ∧ (nestedRoot.adapt d .html).Same x ∧
        ¬ nestedRoot.LeadsTo d x (.root [.text ['y']]) := by
  refine ⟨⟨.refl _, fun h => ?_⟩, ⟨.refl _, fun h => ?_⟩, isBuilt_nestedRoot, .refl _, fun h => ?_⟩
  · exact absurd (h.same.2.1 ['a']) (by decide)
  · exact absurd (h.same.2.2.1 []) (by decide)
  · cases h.error

end Canvas

end MarkupSync
