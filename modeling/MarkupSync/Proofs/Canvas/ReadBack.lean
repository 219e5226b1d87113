import MarkupSync.Proofs.Canvas.Shown

/-!
# Documents that are read back

A document that is shown on the canvas is read back as it is exactly if every element of it is shown
as it is.

* `Canvas.length_adaptAll_le`: no more nodes are read than there are;
* `Canvas.ReadAlone`, `Canvas.readAlone_of_adaptAll`: children that are read as they are, are read
  each by itself;
* `Canvas.everywhere_isShownTag`: elements that are read as they are;
* **`Canvas.ofTopLevel_adaptAll_iff`**: documents.
-/

namespace MarkupSync

/-- An element that is no decoration. -/
def Decoration.IsUnmarked (d : Decoration) (_tag : Text) (as st : Attrs) (_cs : List Node) : Prop :=
  d.marks (Canvas.writtenAttributes as st) = false

theorem TextsApart.element {ns : List Node} (h : TextsApart ns) (tag : Text) (as st : Attrs)
    (cs : List Node) : TextsApart (.element tag as st cs :: ns) :=
  List.isChain_cons.2 ⟨fun _ _ h => Bool.noConfusion h.1, h⟩

namespace Canvas

open Decoration Text

variable {d : Decoration} {flavor : Flavor} {raw : Bool}

/-! ## Numbers of nodes -/

theorem length_runNodes_le (raw : Bool) (run : Text) : (runNodes raw run).length ≤ 1 := by
  rw [runNodes]
  cases runText? raw run <;> simp

theorem runText?_of_runNodes {run t : Text} (h : runNodes raw run = [.text t]) :
    runText? raw run = some t := by
  rw [runNodes] at h
  cases hr : runText? raw run with
  | none =>
    rw [hr] at h
    cases h
  | some u =>
    rw [hr] at h
    cases h
    rfl

/-- No more nodes are read than there are. -/
theorem length_adaptAll_le (d : Decoration) (flavor : Flavor) (raw : Bool) (ns : List Node)
    (run : Text) :
    (d.adaptAll flavor raw run (Node.allLive ns)).length ≤
      (runNodes raw run).length + ns.length := by
  induction ns generalizing run with
  | nil => rw [Node.allLive, adaptAll]; exact Nat.le_refl _
  | cons n ns ih =>
    rw [Node.allLive, List.length_cons]
    cases n with
    | text t =>
      rw [Node.live, adaptAll]
      split
      · have hline : ((joinedLines? t).map Node.text).toList.length ≤ 1 := by
          cases joinedLines? t <;> simp
        have := ih run
        rw [List.length_append]
        omega
      · have := ih (run ++ t)
        have := length_runNodes_le raw (run ++ t)
        omega
    | element tag as st cs =>
      rw [Node.live, adaptAll_element]
      have := ih run
      have := ih []
      rw [runNodes_nil, List.length_nil] at this
      split
      · omega
      · rw [List.length_append, List.length_cons]
        omega

theorem isElement_adaptNode {tag : Text} {as st : Attrs} {cs : List Node} :
    (d.adaptNode flavor (Node.element tag as st cs).live).isElement = true := by
  rw [Node.live, adaptNode]
  rfl

/-- A text in front of children that are read behind a run is the text of the run. -/
theorem runNodes_of_adaptAll {ns : List Node} {run t : Text}
    (hmarks : Node.AllEverywhere d.IsUnmarked ns) (hruns : flavor = .html ∨ raw = true)
    (h : d.adaptAll flavor raw run (Node.allLive ns) = .text t :: ns) :
    runNodes raw run = [.text t] := by
  cases ns with
  | nil => rwa [Node.allLive, adaptAll] at h
  | cons n ns =>
    rw [Node.allLive] at h
    cases n with
    | text u =>
      -- the run and the text are read as one
      rw [Node.live, adaptAll_text hruns] at h
      have hle := length_adaptAll_le d flavor raw ns (run ++ u)
      have := length_runNodes_le raw (run ++ u)
      rw [h, List.length_cons, List.length_cons] at hle
      omega
    | element tag as st cs =>
      have hel := @isElement_adaptNode d flavor tag as st cs
      rw [Node.live] at h hel
      rw [adaptAll_element, if_neg (Bool.eq_false_iff.1 hmarks.1.1)] at h
      cases hr : runText? raw run with
      | none =>
        rw [runNodes, hr] at h
        rw [(List.cons.inj h).1] at hel
        cases hel
      | some u =>
        rw [runNodes_eq_singleton hr] at h ⊢
        rw [(List.cons.inj h).1]

/-! ## Lists of children -/

/-- Elements and texts that are read as they are, each by itself. -/
structure ReadAlone (d : Decoration) (flavor : Flavor) (raw : Bool) (ns : List Node) : Prop where
  elements : ∀ n ∈ ns, n.isElement = true → d.adaptNode flavor n.live = n
  texts : ∀ t, .text t ∈ ns → shownText? flavor raw t = some t

namespace ReadAlone

variable {ns : List Node}

theorem nil : ReadAlone d flavor raw [] :=
  ⟨List.forall_mem_nil _, fun _ ht => absurd ht List.not_mem_nil⟩

theorem text {t : Text} (ht : shownText? flavor raw t = some t)
    (h : ReadAlone d flavor raw ns) : ReadAlone d flavor raw (.text t :: ns) where
  elements := List.forall_mem_cons.2 ⟨nofun, h.elements⟩
  texts u hu := by
    obtain hu | hu := List.mem_cons.1 hu
    · cases hu
      exact ht
    · exact h.texts u hu

theorem element {tag : Text} {as st : Attrs} {cs : List Node}
    (hel : d.adaptNode flavor (Node.element tag as st cs).live = .element tag as st cs)
    (h : ReadAlone d flavor raw ns) : ReadAlone d flavor raw (.element tag as st cs :: ns) where
  elements := List.forall_mem_cons.2 ⟨fun _ => hel, h.elements⟩
  texts u hu := h.texts u ((List.mem_cons.1 hu).resolve_left nofun)

end ReadAlone

/-- Where every text is read by itself. -/
theorem readAlone_of_lines {ns : List Node} (hmarks : Node.AllEverywhere d.IsUnmarked ns)
    (h : d.adaptAll .jsx false [] (Node.allLive ns) = ns) : ReadAlone d .jsx false ns := by
  induction ns with
  | nil => exact .nil
  | cons n ns ih =>
    rw [Node.allLive] at h
    cases n with
    | text t =>
      rw [Node.live, adaptAll_line] at h
      cases hj : joinedLines? t with
      | none =>
        have hle := length_adaptAll_le d .jsx false ns []
        rw [hj] at h
        rw [show d.adaptAll .jsx false [] (Node.allLive ns) = .text t :: ns from h, runNodes_nil,
          List.length_cons, List.length_nil] at hle
        omega
      | some u =>
        rw [hj] at h
        obtain ⟨hu, hns⟩ := List.cons.inj h
        cases hu
        exact (ih hmarks.2 hns).text (by rw [shownText?, if_pos ⟨rfl, rfl⟩, hj])
    | element tag as st cs =>
      rw [Node.live, adaptAll_element, if_neg (Bool.eq_false_iff.1 hmarks.1.1), runNodes_nil] at h
      obtain ⟨hel, hns⟩ := List.cons.inj h
      exact (ih hmarks.2 hns).element hel

/-- Where texts are read in runs, none of them is read as one with another or with the run in front
of them. -/
theorem readAlone_of_runs {ns : List Node} (run : Text)
    (hmarks : Node.AllEverywhere d.IsUnmarked ns) (hruns : flavor = .html ∨ raw = true)
    (h : d.adaptAll flavor raw run (Node.allLive ns) = runNodes raw run ++ ns) :
    ReadAlone d flavor raw ns ∧ TextsApart (runNodes raw run ++ ns) := by
  induction ns generalizing run with
  | nil =>
    refine ⟨.nil, ?_⟩
    rw [List.append_nil, runNodes]
    cases runText? raw run with
    | none => exact .nil
    | some => exact .singleton _
  | cons n ns ih =>
    rw [Node.allLive] at h
    cases n with
    | text t =>
      rw [Node.live, adaptAll_text hruns] at h
      -- with a run that shows there would be a node too many
      have hblank : runNodes raw run = [] := by
        have hle := length_adaptAll_le d flavor raw ns (run ++ t)
        have := length_runNodes_le raw (run ++ t)
        rw [h, List.length_append, List.length_cons] at hle
        exact List.length_eq_zero_iff.1 (by omega)
      rw [hblank, List.nil_append] at h ⊢
      have hnodes := runNodes_of_adaptAll hmarks.2 hruns h
      have ht : shownText? flavor raw t = some t := by
        rw [shownText?, if_neg (by rintro ⟨rfl, hraw⟩; simp_all),
          ← runText?_blank_append (runNodes_eq_nil_iff.1 hblank)]
        exact runText?_of_runNodes hnodes
      obtain ⟨hread, hapart⟩ := ih (run ++ t) hmarks.2 (by rw [h, hnodes]; rfl)
      rw [hnodes] at hapart
      exact ⟨hread.text ht, hapart⟩
    | element tag as st cs =>
      rw [Node.live, adaptAll_element, if_neg (Bool.eq_false_iff.1 hmarks.1.1)] at h
      obtain ⟨hel, hns⟩ := List.cons.inj (List.append_cancel_left h)
      obtain ⟨hread, hapart⟩ := ih [] hmarks.2 (by rw [runNodes_nil]; exact hns)
      rw [runNodes_nil, List.nil_append] at hapart
      refine ⟨hread.element hel, ?_⟩
      have hns := hapart.element tag as st cs
      rw [runNodes]
      cases runText? raw run with
      | none => exact hns
      | some u => exact List.isChain_cons_cons.2 ⟨fun h => Bool.noConfusion h.2, hns⟩

/-- **Children that are read as they are, are read each by itself.** -/
theorem readAlone_of_adaptAll {ns : List Node} (hmarks : Node.AllEverywhere d.IsUnmarked ns)
    (h : d.adaptAll flavor raw [] (Node.allLive ns) = ns) :
    ReadAlone d flavor raw ns ∧ (flavor = .html ∨ raw = true → TextsApart ns) := by
  by_cases hline : flavor = .jsx ∧ raw = false
  · obtain ⟨rfl, rfl⟩ := hline
    exact ⟨readAlone_of_lines hmarks h, by simp⟩
  · have hruns : flavor = .html ∨ raw = true := by
      cases flavor with
      | html => exact .inl rfl
      | jsx => exact .inr (Bool.of_not_eq_false fun hraw => hline ⟨rfl, hraw⟩)
    obtain ⟨hread, hapart⟩ := readAlone_of_runs [] hmarks hruns
      (by rw [runNodes_nil]; exact h)
    rw [runNodes_nil] at hapart
    exact ⟨hread, fun _ => hapart⟩

/-! ## Elements -/

mutual

/-- **An element that is read as it is has only such elements in it.** -/
theorem everywhere_isShownTag {n : Node} (hmarks : n.Everywhere d.IsUnmarked)
    (h : n.isElement = true → d.adaptNode flavor n.live = n) :
    n.Everywhere (d.IsShownTag flavor) := by
  cases n with
  | text => trivial
  | element tag as st cs =>
    replace h := h rfl
    rw [Node.live, adaptNode] at h
    injection h with _ has hst hcs
    obtain ⟨hread, hapart⟩ := readAlone_of_adaptAll hmarks.2 hcs
    have hhead : d.head (writtenAttributes as st) = ⟨as, st⟩ :=
      calc d.head (writtenAttributes as st)
        _ = ⟨(d.head (writtenAttributes as st)).attributes,
            (d.head (writtenAttributes as st)).style⟩ := rfl
        _ = ⟨as, st⟩ := by rw [has, hst]
    exact ⟨⟨hmarks.1, hhead, ⟨hread.texts, hapart⟩⟩,
      allEverywhere_isShownTag hmarks.2 hread.elements⟩

theorem allEverywhere_isShownTag {ns : List Node} (hmarks : Node.AllEverywhere d.IsUnmarked ns)
    (h : ∀ n ∈ ns, n.isElement = true → d.adaptNode flavor n.live = n) :
    Node.AllEverywhere (d.IsShownTag flavor) ns := by
  cases ns with
  | nil => trivial
  | cons n ns =>
    obtain ⟨hn, hns⟩ := List.forall_mem_cons.1 h
    exact ⟨everywhere_isShownTag hmarks.1 hn, allEverywhere_isShownTag hmarks.2 hns⟩

end

/-! ## Documents -/

/-- Elements are read as elements with the same tags. -/
theorem isRoot_of_mem_adaptAll {ns : List Node} {run : Text} {m : Node}
    (hns : ∀ n ∈ ns, n.isRoot = false)
    (hm : m ∈ d.adaptAll flavor raw run (Node.allLive ns)) : m.isRoot = false := by
  have hruns {run : Text} (hm : m ∈ runNodes raw run) : m.isRoot = false := by
    rw [runNodes, Option.mem_toList] at hm
    obtain ⟨t, -, rfl⟩ := Option.map_eq_some_iff.1 hm
    rfl
  induction ns generalizing run with
  | nil =>
    rw [Node.allLive, adaptAll] at hm
    exact hruns hm
  | cons n ns ih =>
    obtain ⟨hn, hrest⟩ := List.forall_mem_cons.1 hns
    rw [Node.allLive] at hm
    cases n with
    | text t =>
      rw [Node.live, adaptAll] at hm
      split at hm
      · obtain hm | hm := List.mem_append.1 hm
        · obtain ⟨u, -, rfl⟩ := Option.map_eq_some_iff.1 (Option.mem_toList.1 hm)
          rfl
        · exact ih hrest hm
      · exact ih hrest hm
    | element tag as st cs =>
      rw [Node.live, adaptAll_element] at hm
      split at hm
      · exact ih hrest hm
      · obtain hm | hm := List.mem_append.1 hm
        · exact hruns hm
        · obtain rfl | hm := List.mem_cons.1 hm
          · rw [adaptNode]
            exact hn
          · exact ih hrest hm

/-- **A document is read back as it is exactly if all its elements are shown as they are.** -/
theorem ofTopLevel_adaptAll_iff {n : Node} (hmarks : n.Everywhere d.IsUnmarked)
    (hel : n.isElement = true) (htop : n = .ofTopLevel n.topLevel)
    (hroot : ∀ m ∈ n.topLevel, m.isRoot = false) :
    .ofTopLevel (d.adaptAll flavor false [] (Node.allLive n.topLevel)) = n ↔
      n.Everywhere (d.IsShownTag flavor) := by
  constructor
  · intro h
    have hread : d.adaptAll flavor false [] (Node.allLive n.topLevel) = n.topLevel := by
      rw [← Node.topLevel_ofTopLevel fun m => isRoot_of_mem_adaptAll hroot, h]
    have hmarks' := Node.allEverywhere_iff.2 hmarks.topLevel
    obtain ⟨halone, hapart⟩ := readAlone_of_adaptAll hmarks' hread
    cases n with
    | text => cases hel
    | element tag as st cs =>
      have hall := allEverywhere_isShownTag hmarks' halone.elements
      by_cases htag : tag = Node.rootTag
      · -- the wrapping root has neither attributes nor declarations
        have hcs : Node.topLevel (.element tag as st cs) = cs := by
          simp [Node.topLevel, Node.isRoot, Node.tag?, Node.children, htag]
        rw [hcs] at htop halone hapart hall
        rw [Node.ofTopLevel.eq_def] at htop
        split at htop
        next => cases htop
        next =>
          cases htop
          exact ⟨⟨hmarks.1, rfl, ⟨halone.texts, hapart⟩⟩, hall⟩
      · have hcs : Node.topLevel (.element tag as st cs) = [.element tag as st cs] := by
          simp [Node.topLevel, Node.isRoot, Node.tag?, htag]
        rw [hcs] at hall
        exact hall.1
  · intro h
    obtain ⟨hshown, htexts⟩ := topLevel_isShown h hel
    rw [adaptAll_allLive hshown htexts]
    exact htop.symm

end Canvas

end MarkupSync
