import MarkupSync.Proofs.Diff.Continued
import MarkupSync.Proofs.Document.Spans
import MarkupSync.Proofs.Patch.Kept
import MarkupSync.Proofs.Patch.Shadow

/-!
# Where kept nodes stand in a patched source

* `Text.IsLayout`: nodes stand in a text as those of a document do: inside the nodes above them, and
  one behind the other in their order;
* `Shadow.keptAt?`, `Shadow.keptIn?`: the node at a path if it and all above it have origins;
* `Shadow.exists_layout`: in what a node is written as, its kept nodes have a layout;
* `Shadow.keptAt?_continuedAs`: nodes that a difference keeps have origins all the way up;
* **`exists_layout_patchText`**: a source is patched with a difference so that all nodes that are kept
  have a layout in it, and those in which nothing changes keep their bytes.
-/

namespace MarkupSync

open Text

/-! ## Layouts -/

/-- The nodes at the paths `K` have spots in a text: each inside the spots of the nodes above it, and
of two nodes neither of which is above the other the one that comes first ends before the other
starts. -/
structure Text.IsLayout (t : Text) (K : NodePath → Prop) (spot : NodePath → Span) : Prop where
  range : ∀ q, K q → t.IsRange ⟨0, width t⟩ (spot q)
  nested : ∀ q r, K q → K (q ++ r) → (spot (q ++ r)).Within (spot q)
  apart : ∀ q i j r r', i < j → K (q ++ i :: r) → K (q ++ j :: r') →
    (spot (q ++ i :: r)).stop ≤ (spot (q ++ j :: r')).start

theorem Text.holds_part (a b c : Text) :
    (a ++ (b ++ c)).Holds ⟨width a, width a + width b⟩ b := ⟨a, c, by simp, rfl⟩

theorem Text.holds_rest (a b c : Text) :
    (a ++ (b ++ c)).Holds ⟨width a + width b, width a + width b + width c⟩ c :=
  ⟨a ++ b, [], by simp, by simp⟩

/-- A range of a part of a text. -/
theorem Text.Holds.isRange_shift {s t : Text} {r q : Span} (h : s.Holds r t)
    (hq : t.IsRange ⟨0, width t⟩ q) : s.IsRange r (q.shift r.start) := by
  obtain ⟨u, hu⟩ := hq.exists_holds
  exact (h.trans hu).isRange (h.shift_within hu)

theorem Text.Holds.isRange_whole {s t : Text} {r q : Span} (h : s.Holds r t)
    (hq : s.IsRange r q) : s.IsRange ⟨0, width s⟩ q :=
  ⟨⟨Nat.zero_le _, Nat.le_trans hq.within.2 h.stop_le⟩, hq.le, hq.start, hq.stop⟩

/-- The spots of a tree whose root takes up a text. -/
def rootSpot (whole : Span) (spot : NodePath → Span) : NodePath → Span
  | [] => whole
  | i :: path => spot (i :: path)

/-- The spots of several trees: those of the first one and those of the others, each from a byte on. -/
def consSpot (first rest : Nat) (spot spot' : NodePath → Span) : NodePath → Span
  | [] => ⟨0, 0⟩
  | 0 :: path => (spot path).shift first
  | (i + 1) :: path => (spot' (i :: path)).shift rest

namespace Text.IsLayout

variable {t gap part rest : Text} {K K' K'' : NodePath → Prop} {spot spot' : NodePath → Span}

/-- The first of several trees. -/
theorem first (h : t.IsLayout K spot) (hK : ∀ q, K' q → K (0 :: q)) :
    t.IsLayout K' fun q => spot (0 :: q) where
  range q hq := h.range _ (hK q hq)
  nested q r hq hr := h.nested (0 :: q) r (hK q hq) (hK _ hr)
  apart q i j r r' hij hi hj := h.apart (0 :: q) i j r r' hij (hK _ hi) (hK _ hj)

/-- A root takes up the text that its children stand in. -/
theorem root (h : t.IsLayout K' spot) (hK : ∀ i q, K (i :: q) → K' (i :: q)) :
    t.IsLayout K (rootSpot ⟨0, width t⟩ spot) where
  range q hq := by
    cases q with
    | nil => exact (Holds.self t).isRange ⟨Nat.le_refl _, Nat.le_refl _⟩
    | cons i q => exact h.range _ (hK i q hq)
  nested q r hq hr := by
    cases q with
    | nil =>
      cases r with
      | nil => exact ⟨Nat.le_refl _, Nat.le_refl _⟩
      | cons i r => exact (h.range _ (hK i r hr)).within
    | cons i q => exact h.nested (i :: q) r (hK i q hq) (hK i _ hr)
  apart q i j r r' hij hi hj := by
    cases q with
    | nil => exact h.apart [] i j r r' hij (hK i r hi) (hK j r' hj)
    | cons k q => exact h.apart (k :: q) i j r r' hij (hK k _ hi) (hK k _ hj)

/-- Trees that stand one behind the other. -/
theorem cons (h : part.IsLayout K' spot) (h' : rest.IsLayout K'' spot') (hnil : ¬ K [])
    (hzero : ∀ q, K (0 :: q) → K' q) (hsucc : ∀ i q, K ((i + 1) :: q) → K'' (i :: q)) :
    (gap ++ (part ++ rest)).IsLayout K
      (consSpot (width gap) (width gap + width part) spot spot') := by
  have hpart := holds_part gap part rest
  have hrest := holds_rest gap part rest
  have hfirst {q : NodePath} (hq : K (0 :: q)) := hpart.isRange_shift (h.range q (hzero q hq))
  have hother {i : Nat} {q : NodePath} (hq : K ((i + 1) :: q)) :=
    hrest.isRange_shift (h'.range (i :: q) (hsucc i q hq))
  refine ⟨fun q hq => ?_, fun q r hq hr => ?_, fun q i j r r' hij hi hj => ?_⟩
  · match q, hq with
    | [], hq => exact (hnil hq).elim
    | 0 :: q, hq => exact hpart.isRange_whole (hfirst hq)
    | (i + 1) :: q, hq => exact hrest.isRange_whole (hother hq)
  · match q, hq with
    | [], hq => exact (hnil hq).elim
    | 0 :: q, hq =>
      obtain ⟨h1, h2⟩ := h.nested q r (hzero q hq) (hzero _ hr)
      exact ⟨Nat.add_le_add_right h1 _, Nat.add_le_add_right h2 _⟩
    | (i + 1) :: q, hq =>
      obtain ⟨h1, h2⟩ := h'.nested (i :: q) r (hsucc i q hq) (hsucc i _ hr)
      exact ⟨Nat.add_le_add_right h1 _, Nat.add_le_add_right h2 _⟩
  · -- in the same tree, or in the first one and behind it
    match q, i, j, hij, hi, hj with
    | [], 0, j + 1, _, hi, hj => exact Nat.le_trans (hfirst hi).within.2 (hother hj).within.1
    | [], i + 1, j + 1, hij, hi, hj =>
      exact Nat.add_le_add_right (h'.apart [] i j r r' (Nat.lt_of_succ_lt_succ hij) (hsucc i r hi)
        (hsucc j r' hj)) _
    | 0 :: q, i, j, hij, hi, hj =>
      exact Nat.add_le_add_right (h.apart q i j r r' hij (hzero _ hi) (hzero _ hj)) _
    | (k + 1) :: q, i, j, hij, hi, hj =>
      exact Nat.add_le_add_right (h'.apart (k :: q) i j r r' hij (hsucc k _ hi) (hsucc k _ hj)) _

end Text.IsLayout

/-! ## Kept nodes in a text -/

namespace Shadow

/-- The node at a path, if it and all nodes above it have origins. -/
def keptAt? (s : Shadow) : NodePath → Option Shadow
  | [] => if s.origin.isSome then some s else none
  | i :: path => if s.origin.isSome then (Tree.children s)[i]?.bind (keptAt? · path) else none

/-- The node at a path of one of the trees, if it and all nodes above it have origins. -/
def keptIn? (ss : List Shadow) : NodePath → Option Shadow
  | [] => none
  | i :: path => ss[i]?.bind (keptAt? · path)

variable {source t : Text} {s : Shadow} {ss : List Shadow}

theorem keptAt?_of_origin (h : s.origin = none) (q : NodePath) : s.keptAt? q = none := by
  cases q <;> simp [keptAt?, h]

theorem keptAt?_cons (h : s.origin.isSome) (i : Nat) (q : NodePath) :
    s.keptAt? (i :: q) = keptIn? (Tree.children s) (i :: q) := by
  rw [keptAt?, if_pos h, keptIn?]

/-- Nodes have a layout in a text, and those that have not changed have kept their bytes. -/
structure AreLaidOut (source t : Text) (nodes : NodePath → Option Shadow)
    (spot : NodePath → Span) : Prop where
  layout : t.IsLayout (fun q => (nodes q).isSome) spot
  bytes : ∀ q x o, nodes q = some x → x.origin = some o → x = o.shadow →
    t.Holds (spot q) (source.at o.place.outer)

/-- Where no node is kept, nothing has to be laid out. -/
theorem areLaidOut_of_none {nodes : NodePath → Option Shadow} (h : ∀ q, nodes q = none)
    (spot : NodePath → Span) : AreLaidOut source t nodes spot := by
  have hnone {P : Prop} (q : NodePath) (hq : (nodes q).isSome) : P := by simp [h] at hq
  refine ⟨⟨fun q hq => hnone q hq, fun q r hq _ => hnone q hq, fun q i j r r' _ hi _ => hnone _ hi⟩,
    fun q x o hx => hnone q (by simp [hx])⟩

/-- A node with an origin takes up the text that its children stand in. -/
theorem AreLaidOut.root {o : Origin} (ho : s.origin = some o)
    (hsame : s = o.shadow → t = source.at o.place.outer) {spot : NodePath → Span}
    (h : AreLaidOut source t (keptIn? (Tree.children s)) spot) :
    AreLaidOut source t s.keptAt? (rootSpot ⟨0, width t⟩ spot) := by
  have hsome : s.origin.isSome := by rw [ho]; rfl
  refine ⟨h.layout.root fun i q hq => keptAt?_cons hsome i q ▸ hq, fun q x o' hx ho' hx' => ?_⟩
  cases q with
  | nil =>
    rw [keptAt?, if_pos hsome] at hx
    cases hx
    obtain rfl : o' = o := Option.some.inj (ho'.symm.trans ho)
    rw [← hsame hx']
    exact .self t
  | cons i q => exact h.bytes (i :: q) x o' (keptAt?_cons hsome i q ▸ hx) ho' hx'

/-- A tree and others behind it. -/
theorem AreLaidOut.cons {gap part rest : Text} {spot spot' : NodePath → Span}
    (h : AreLaidOut source part s.keptAt? spot) (h' : AreLaidOut source rest (keptIn? ss) spot') :
    AreLaidOut source (gap ++ (part ++ rest)) (keptIn? (s :: ss))
      (consSpot (width gap) (width gap + width part) spot spot') := by
  refine ⟨h.layout.cons h'.layout Bool.false_ne_true (fun _ hq => hq) (fun _ _ hq => hq),
    fun q x o hx ho hx' => ?_⟩
  match q, hx with
  | 0 :: q, hx => exact (holds_part gap part rest).trans (h.bytes q x o hx ho hx')
  | (i + 1) :: q, hx => exact (holds_rest gap part rest).trans (h'.bytes (i :: q) x o hx ho hx')

mutual

/-- **The kept nodes of a tree have a layout** in what it is written as. -/
theorem exists_layout (s : Shadow) (hs : Tree.Throughout HasNativeChildren s) {t : Text}
    (h : s.IsWrittenAs source t) : ∃ spot, AreLaidOut source t s.keptAt? spot := by
  obtain ⟨hnative, hchildren⟩ := Tree.throughout_iff.1 hs
  cases ho : s.origin with
  | none => exact ⟨fun _ => ⟨0, 0⟩, areLaidOut_of_none (keptAt?_of_origin ho) _⟩
  | some o =>
    obtain ⟨hsame, hcs⟩ := isWrittenAs_iff.1 h o ho
    obtain ⟨spot, hspot⟩ : ∃ spot, AreLaidOut source t (keptIn? (Tree.children s)) spot := by
      cases s with
      | text => exact exists_layouts [] hchildren (hcs hnative)
      | element _ tag as st cs => exact exists_layouts cs hchildren (hcs hnative)
    exact ⟨_, hspot.root ho hsame⟩

/-- The kept nodes of trees have a layout in the text that the trees are written in. -/
theorem exists_layouts (ss : List Shadow) (hss : ∀ s ∈ ss, Tree.Throughout HasNativeChildren s)
    {t : Text} (h : AreWrittenIn source ss t) : ∃ spot, AreLaidOut source t (keptIn? ss) spot := by
  cases ss with
  | nil => exact ⟨fun _ => ⟨0, 0⟩, areLaidOut_of_none (fun q => by cases q <;> rfl) _⟩
  | cons s ss =>
    obtain ⟨hs, hss⟩ := List.forall_mem_cons.1 hss
    obtain ⟨gap, part, rest, rfl, hpart, hrest⟩ := h
    obtain ⟨spot, hspot⟩ := exists_layout s hs hpart
    obtain ⟨spot', hspot'⟩ := exists_layouts ss hss hrest
    exact ⟨_, hspot.cons hspot'⟩

end

/-! ## Nodes that a difference keeps -/

mutual

theorem hasNativeChildren_fresh (n : Node) : Tree.Throughout HasNativeChildren (fresh n) := by
  cases n with
  | text => exact Tree.throughout_iff.2 ⟨nofun, nofun⟩
  | element tag as st cs => exact Tree.throughout_iff.2 ⟨nofun, hasNativeChildren_freshAll cs⟩

theorem hasNativeChildren_freshAll (ns : List Node) :
    ∀ c ∈ freshAll ns, Tree.Throughout HasNativeChildren c := by
  cases ns with
  | nil => exact nofun
  | cons n ns =>
    exact List.forall_mem_cons.2 ⟨hasNativeChildren_fresh n, hasNativeChildren_freshAll ns⟩

end

theorem hasNativeChildren_ofSource {x : Node × Place} (hx : Fits x) (path : NodePath) :
    Tree.Throughout HasNativeChildren (ofSource path x.2 x.1) := by
  induction hx generalizing path with
  | text => exact Tree.throughout_iff.2 ⟨fun _ _ => nofun, nofun⟩
  | @element tag as st place l _ ih =>
    refine Tree.throughout_iff.2 ⟨?_, fun c hc => ?_⟩
    · rintro _ ⟨⟩ c hc o ho
      obtain ⟨i, x, -, rfl⟩ := Fits.exists_of_mem_ofSources hc
      rw [Fits.origin_ofSource] at ho
      cases ho
      exact ⟨i, rfl⟩
    · obtain ⟨i, x, hx, rfl⟩ := Fits.exists_of_mem_ofSources hc
      exact ih x (List.mem_of_getElem? hx) _

/-- A new child has no origin, or that of the child that it continues. -/
theorem exists_of_origin_allContinuedAs {cs : List Shadow} {sources : List (Option Nat)}
    {ns : List Node} {c : Shadow} (hc : c ∈ allContinuedAs cs sources ns) {o : Origin}
    (ho : c.origin = some o) : ∃ c' ∈ cs, c'.origin = some o := by
  rw [allContinuedAs_eq_map] at hc
  obtain ⟨⟨source, n⟩, -, rfl⟩ := List.mem_map.1 hc
  rw [childContinuedAs] at ho
  split at ho
  · rw [origin_fresh] at ho
    cases ho
  next c hc =>
    obtain ⟨i, -, hi⟩ := Option.bind_eq_some_iff.1 hc
    rw [origin_continuedAs] at ho
    split at ho
    · exact ⟨c, List.mem_of_getElem? hi, ho⟩
    · cases ho

mutual

/-- Nodes that continue others have the origins of their children. -/
theorem hasNativeChildren_continuedAs {s : Shadow} (hs : Tree.Throughout HasNativeChildren s)
    (new : Node) : Tree.Throughout HasNativeChildren (s.continuedAs new) := by
  obtain ⟨hnative, hchildren⟩ := Tree.throughout_iff.1 hs
  cases new with
  | text b =>
    cases s with
    | text => exact Tree.throughout_iff.2 ⟨fun _ _ => nofun, nofun⟩
    | element => exact hasNativeChildren_fresh _
  | element tag bs rt ds =>
    cases s with
    | text => exact hasNativeChildren_fresh _
    | element o oldTag as st cs =>
      rw [continuedAs]
      split_ifs with htag
      · refine Tree.throughout_iff.2 ⟨fun o ho c hc o' ho' => ?_,
          hasNativeChildren_allContinuedAs hchildren _ ds⟩
        obtain ⟨c', hc', hco⟩ := exists_of_origin_allContinuedAs hc ho'
        exact hnative o ho c' hc' o' hco
      · exact hasNativeChildren_fresh _

theorem hasNativeChildren_allContinuedAs {cs : List Shadow}
    (hcs : ∀ c ∈ cs, Tree.Throughout HasNativeChildren c) (sources : List (Option Nat))
    (ns : List Node) : ∀ c ∈ allContinuedAs cs sources ns, Tree.Throughout HasNativeChildren c := by
  cases ns with
  | nil => exact nofun
  | cons n ns =>
    cases sources with
    | nil => exact nofun
    | cons source sources =>
      rw [allContinuedAs_cons]
      refine List.forall_mem_cons.2 ⟨?_, hasNativeChildren_allContinuedAs hcs sources ns⟩
      rw [childContinuedAs]
      split
      · exact hasNativeChildren_fresh n
      next c hc =>
        obtain ⟨i, -, hi⟩ := Option.bind_eq_some_iff.1 hc
        exact hasNativeChildren_continuedAs (hcs c (List.mem_of_getElem? hi)) n

end

theorem IsSourced.isSome_origin_continuedAs (hs : s.IsSourced) {new : Node}
    (htag : s.toNode.tag? = new.tag?) : (s.continuedAs new).origin.isSome := by
  rw [origin_continuedAs, if_pos htag]
  exact hs.isSome_origin

/-- **A node that a difference keeps** is continued as the node at its new path, and it and all nodes
above it have origins. -/
theorem keptAt?_continuedAs {s : Shadow} (hs : s.IsSourced) {new : Node} {p q : NodePath}
    (h : s.toNode.continued? new q = some p) : ∃ c n, Tree.descend s p = some c ∧ c.IsSourced ∧
      Tree.descend new q = some n ∧ (s.continuedAs new).keptAt? q = some (c.continuedAs n) := by
  induction q generalizing s new p with
  | nil =>
    obtain ⟨htag, rfl⟩ := Node.continued?_nil h
    exact ⟨s, new, rfl, hs, rfl, if_pos (hs.isSome_origin_continuedAs htag)⟩
  | cons j q ih =>
    obtain ⟨origin, tag, as, st, cs, bs, rt, ds, i, c, n, r, rfl, rfl, hm, hc, hn, hr, rfl⟩ :=
      exists_of_continued?_cons h
    have hsourced : c.IsSourced := hs.2.isSourced (List.mem_of_getElem? hc)
    obtain ⟨c', n', hc', hsourced', hn', hkept⟩ := ih hsourced hr
    refine ⟨c', n', Option.bind_eq_some_iff.2 ⟨c, hc, hc'⟩, hsourced',
      Option.bind_eq_some_iff.2 ⟨n, hn, hn'⟩, ?_⟩
    have hsome : ((Shadow.element origin tag as st cs).continuedAs
        (.element tag bs rt ds)).origin.isSome := hs.isSome_origin_continuedAs rfl
    rw [keptAt?_cons hsome, continuedAs, if_pos rfl]
    exact Option.bind_eq_some_iff.2 ⟨_, getElem?_allContinuedAs_of_matched hm hc hn, hkept⟩

end Shadow

/-- The nodes of a source document are the nodes of the document. -/
theorem Fits.exists_of_descend {x : Node × Place} (hx : Fits x) {path p : NodePath} {s : Shadow}
    (h : Tree.descend (Shadow.ofSource path x.2 x.1) p = some s) :
    ∃ c, Document.at? ⟨x.1, x.2⟩ p = some c ∧ s = .ofSource (path ++ p) c.place c.root := by
  induction p generalizing x path with
  | nil =>
    cases h
    exact ⟨⟨x.1, x.2⟩, rfl, by rw [List.append_nil]⟩
  | cons i p ih =>
    obtain ⟨t, ht, hts⟩ := Option.bind_eq_some_iff.1 h
    cases hx with
    | text => cases ht
    | @element tag as st place l hl =>
      have ht : (Shadow.ofSources path 0 (l.map Prod.snd) (l.map Prod.fst))[i]? = some t := ht
      rw [Fits.getElem?_ofSources] at ht
      obtain ⟨y, hy, rfl⟩ := Option.map_eq_some_iff.1 ht
      obtain ⟨c, hc, rfl⟩ := ih (hl y (List.mem_of_getElem? hy)) hts
      refine ⟨c, ?_, by simp [NodePath.child]⟩
      rw [Document.at?, Document.child?]
      simp [Tree.children, Tree.children?, Place.children, hy, hc]

/-! ## Patched sources -/

variable {flavor : Flavor} {s : Text} {d : Document}

/-- **Patching a source with a difference keeps what has not changed.** The patch succeeds, and all
nodes that are kept have spots in the new source: inside those of the nodes above them, and siblings
in the order of the new document. Each of them is a node of the source and goes on as a node of the
new document; where the edits between the two are none, the spot holds the bytes of the node. -/
theorem exists_layout_patchText (hd : Document.read flavor s = .ok d) (new : Node)
    (options : FormatOptions) :
    ∃ t spot, patchText s d (Node.diff d.root new) flavor options = .ok t ∧
      t.IsLayout (fun q => (Node.continued? d.root new q).isSome) spot ∧
      ∀ q p, Node.continued? d.root new q = some p →
        ∃ c n, d.at? p = some c ∧ Tree.descend new q = some n ∧
          ((Node.diff c.root n).map (Edit.under p)).Sublist (Node.diff d.root new) ∧
          (Node.diff c.root n = [] → t.Holds (spot q) (s.at c.place.outer)) := by
  have hsound := Document.isSound_read hd
  have hfits : Fits (d.root, d.place) := hsound.fits
  have hsourced : (Shadow.ofDocument d).IsSourced := (hfits.isSourced []).1
  have hroot : (Shadow.ofDocument d).toNode = d.root := (hfits.isSourced []).2
  have hsteps := Shadow.steps_diff (P := fun _ _ => True) (fun _ _ _ _ _ _ _ _ => trivial) false
    hsourced new trivial
  rw [hroot] at hsteps
  have hshadow := Shadow.applyAll_of_steps hsteps
  have hgenuine := Shadow.isGenuine_applyAll (Shadow.isGenuine_ofSource (d := d) hfits rfl) hshadow
  have hnative := Shadow.hasNativeChildren_continuedAs (s := .ofDocument d)
    (Shadow.hasNativeChildren_ofSource hfits []) new
  obtain ⟨es, t, hes, hrw, hwritten⟩ :=
    Patcher.rewrites_rootSplices (p := ⟨s, flavor, options⟩) hsound hgenuine
  obtain ⟨spot, hlayout, hbytes⟩ :=
    Shadow.exists_layouts _ (List.forall_mem_singleton.2 hnative) hwritten
  have hkept {q p : NodePath} (h : Node.continued? d.root new q = some p) :=
    Shadow.keptAt?_continuedAs (q := q) hsourced (by rw [hroot]; exact h)
  refine ⟨t, fun q => spot (0 :: q), ?_, hlayout.first fun q hq => ?_, fun q p hq => ?_⟩
  · rw [patchText, textSplices, Node.diff, hshadow]
    simp only [hes, hrw.applyAll]
    rfl
  · obtain ⟨p, hp⟩ := Option.isSome_iff_exists.1 hq
    obtain ⟨c, n, -, -, -, hkept⟩ := hkept hp
    exact Option.isSome_iff_exists.2 ⟨_, hkept⟩
  · obtain ⟨x, n, hx, hxsourced, hn, hkept⟩ := hkept hq
    obtain ⟨c, hc, rfl⟩ := hfits.exists_of_descend hx
    have hcroot : (Shadow.ofSource ([] ++ p) c.place c.root).toNode = c.root :=
      ((hsound.at? hc).fits.isSourced _).2
    have hdescend : Tree.descend d.root p = some c.root := by
      rw [← hroot, Shadow.isMap_toNode.descend, hx, Option.map_some, hcroot]
    refine ⟨c, n, hc, hn, Node.sublist_diff hq hdescend hn, fun hdiff => ?_⟩
    -- without edits the node goes on as it was, so its bytes are kept
    rw [Shadow.continuedAs_of_diff_eq_nil hxsourced (by rw [hcroot]; exact hdiff)] at hkept
    exact hbytes (0 :: q) _ ⟨[] ++ p, c.root, c.place⟩ hkept (Fits.origin_ofSource ..) rfl

/-- Two items change places. The one with a key has not changed; the text of the other one has. -/
theorem exists_layout_patchText_list :
    let s : Text := "<ul>\n  <li>a</li>\n  <li  id=b>b<!-- --> <i>c</i></li>\n</ul>".toList
    let i : Node := .element ['i'] .empty .empty [.text ['c']]
    let item : Node := .element ['l', 'i'] (.ofList [(['i', 'd'], ['b'])]) .empty [.text ['b'], i]
    let new : Node := .element ['u', 'l'] .empty .empty
      [item, .element ['l', 'i'] .empty .empty [.text ['z']]]
    ∃ d, Document.read .html s = .ok d ∧ ∃ t, ∃ spot : NodePath → Span,
      patchText s d (Node.diff d.root new) .html {} = .ok t ∧
        t.Holds (spot [0]) "<li  id=b>b<!-- --> <i>c</i></li>".toList ∧
        t.Holds (spot [0, 1]) "<i>c</i>".toList ∧ (spot [0, 1]).Within (spot [0]) ∧
        (spot [0]).stop ≤ (spot [1]).start := by
  intro s i item new
  let shown (d : Document) (p : NodePath) (n : Node) : Option (Bool × Text) :=
    (d.at? p).map fun c => ((Node.diff c.root n).isEmpty, s.at c.place.outer)
  have h : (Document.read .html s).toOption.map (fun d =>
      ([[0], [0, 1], [1]].map (Node.continued? d.root new), [shown d [1] item, shown d [1, 1] i])) =
        some ([some [1], some [1, 1], some [0]],
          [some (true, "<li  id=b>b<!-- --> <i>c</i></li>".toList), some (true, "<i>c</i>".toList)]) := by
    decide +kernel
  obtain ⟨d, hd, h⟩ := Option.map_eq_some_iff.1 h
  have hd := eq_ok_of_toOption hd
  simp only [Prod.mk.injEq, List.map_cons, List.map_nil, List.cons.injEq, and_true] at h
  obtain ⟨⟨h0, h01, h1⟩, hitem, hi⟩ := h
  obtain ⟨t, spot, ht, hlayout, hbytes⟩ := exists_layout_patchText hd new {}
  have hkept {q p : NodePath} (h : Node.continued? d.root new q = some p) :
      (Node.continued? d.root new q).isSome := by rw [h]; rfl
  have hholds {q p : NodePath} {n : Node} {u : Text} (hq : Node.continued? d.root new q = some p)
      (hn : Tree.descend new q = some n) (h : shown d p n = some (true, u)) :
      t.Holds (spot q) u := by
    obtain ⟨c, n', hc, hn', -, hholds⟩ := hbytes q p hq
    obtain rfl := Option.some.inj (hn.symm.trans hn')
    obtain ⟨c', hc', h⟩ := Option.map_eq_some_iff.1 h
    obtain rfl := Option.some.inj (hc.symm.trans hc')
    obtain ⟨hdiff, rfl⟩ := Prod.mk.inj h
    exact hholds (List.isEmpty_iff.1 hdiff)
  exact ⟨d, hd, t, spot, ht, hholds h0 rfl hitem, hholds h01 rfl hi,
    hlayout.nested [0] [1] (hkept h0) (hkept h01),
    hlayout.apart [] 0 1 [] [] Nat.zero_lt_one (hkept h0) (hkept h1)⟩

end MarkupSync
