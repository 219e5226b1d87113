import MarkupSync.Proofs.Canvas.Adapt

/-!
# New nodes of the canvas

* `filter_insertIdx`, `filter_bne`: places in a list and among the items that count;
* `Canvas.IsPlace`: a place among the children of a node, with its index in the document;
* **`Canvas.Hosts.link`**, **`Canvas.Hosts.unlink`**: a child is put in or taken out
  (`Canvas.exists_insertBefore`: at an index);
* `Decoration.IsShowable`: trees that new nodes stand for;
* `Canvas.Grows`: new nodes below a node, and all else as it was;
* `Canvas.create_spec`, `Canvas.createAll_spec`: new nodes leave the others as they are;
* **`Canvas.stands_create`**, **`Canvas.hosts_createAll`**: they stand for the trees for which they
  were made;
* **`Canvas.exists_place`**: a new tree among the children of a node.
-/

namespace MarkupSync

/-! ## Lists -/

section List

variable {α : Type} {p : α → Bool} {l : List α} {a y : α} {i j : Nat}

/-- In front of an item of a list and of those that count. -/
theorem filter_insertIdx (hl : l.Nodup) (hi : l[i]? = some a) (hj : (l.filter p)[j]? = some a)
    (hy : p y = true) : (l.insertIdx i y).filter p = (l.filter p).insertIdx j y := by
  induction l generalizing i j with
  | nil => cases hi
  | cons b l ih =>
    obtain ⟨hb, hl⟩ := List.nodup_cons.1 hl
    cases i with
    | zero =>
      cases hi
      have hpa : p a = true := (List.mem_filter.1 (List.mem_of_getElem? hj)).2
      rw [List.filter_cons_of_pos hpa] at hj ⊢
      cases j with
      | zero => simp [hy, hpa]
      | succ j => exact absurd (List.mem_filter.1 (List.mem_of_getElem? hj)).1 hb
    | succ i =>
      have hal : a ∈ l := List.mem_of_getElem? hi
      rw [List.insertIdx_succ_cons]
      by_cases hpb : p b = true
      · rw [List.filter_cons_of_pos hpb] at hj ⊢
        rw [List.filter_cons_of_pos hpb]
        cases j with
        | zero =>
          cases hj
          exact absurd hal hb
        | succ j => rw [List.insertIdx_succ_cons, ih hl hi hj]
      · rw [List.filter_cons_of_neg hpb] at hj ⊢
        rw [List.filter_cons_of_neg hpb, ih hl hi hj]

/-- Behind all items of a list. -/
theorem filter_insertIdx_length (hy : p y = true) :
    (l.insertIdx l.length y).filter p = (l.filter p).insertIdx (l.filter p).length y := by
  rw [List.insertIdx_length_self, List.insertIdx_length_self, List.filter_append]
  simp [hy]

/-- A list without an item, among the items that count. -/
theorem filter_bne [BEq α] [LawfulBEq α] (hl : l.Nodup) (hj : (l.filter p)[j]? = some y) :
    (l.filter (· != y)).filter p = (l.filter p).eraseIdx j := by
  obtain ⟨hlt, rfl⟩ := List.getElem?_eq_some_iff.1 hj
  rw [List.filter_comm, ← (hl.filter p).erase_eq_filter, (hl.filter p).erase_getElem j hlt]

end List

section Forall₂

variable {α β : Type} {R : α → β → Prop} {l : List α} {m : List β} {a : α} {b : β}

theorem forall₂_insertIdx (h : List.Forall₂ R l m) (hr : R a b) (k : Nat) :
    List.Forall₂ R (l.insertIdx k a) (m.insertIdx k b) := by
  induction h generalizing k with
  | nil => cases k <;> simp [hr]
  | cons hab h ih =>
    cases k with
    | zero => simpa using ⟨hr, hab, h⟩
    | succ k => simpa using ⟨hab, ih k⟩

theorem forall₂_eraseIdx (h : List.Forall₂ R l m) (k : Nat) :
    List.Forall₂ R (l.eraseIdx k) (m.eraseIdx k) := by
  induction h generalizing k with
  | nil => simp
  | cons hab h ih =>
    cases k with
    | zero => simpa using h
    | succ k => simpa using ⟨hab, ih k⟩

end Forall₂

namespace Canvas

variable {c c' : Canvas} {d : Decoration} {raw : Bool} {p x y z : NodeId} {ns : List Node}
  {n : Node} {j : Nat} {k : Option Nat}

/-- The place `k` among the children of `p` has the index `j` among those that stand for nodes of
the document. -/
structure IsPlace (c : Canvas) (d : Decoration) (p y : NodeId) (k : Option Nat) (j : Nat) : Prop where
  le : ∀ i, k = some i → i ≤ (c.children p).length
  filter : ((c.children p).insertIdx (k.getD (c.children p).length) y).filter (c.isSignificant d) =
    (c.significant d p).insertIdx j y

theorem IsPlace.getD_le (h : c.IsPlace d p y k j) :
    k.getD (c.children p).length ≤ (c.children p).length := by
  cases k with
  | none => exact Nat.le_refl _
  | some i => exact h.le i rfl

/-! ## Putting in -/

/-- A node is put in elsewhere. -/
theorem Stands.link (h : c.Stands d raw z n) (hc : c.IsForest) (hp : p < c.nodes.length)
    (hz : ¬ c.Below z p) : (c.link p y k).Stands d raw z n := by
  refine h.congr hc fun w hw => ⟨data?_link, ?_⟩
  rw [children_link hp, if_neg]
  rintro rfl
  exact hz hw

/-- **A child is put in.** -/
theorem Hosts.link (h : c.Hosts d raw p ns) (hc : c.IsForest) (hp : p < c.nodes.length)
    (hy : c.Stands d raw y n) (hbelow : ¬ c.Below y p)
    (hk : c.IsPlace d p y k j) : (c.link p y k).Hosts d raw p (ns.insertIdx j n) := by
  have hchildren : (c.link p y k).children p =
      (c.children p).insertIdx (k.getD (c.children p).length) y := by
    rw [children_link hp, if_pos rfl]
  constructor
  · intro z hz s hs hspace
    rw [hchildren, List.mem_insertIdx hk.getD_le] at hz
    rw [data?_link] at hs
    rcases hz with rfl | hz
    · have := hy.isSignificant
      rw [isSignificant_text hs, hspace] at this
      cases this
    · exact h.1 z hz s hs hspace
  · have hsig : (c.link p y k).significant d p = (c.significant d p).insertIdx j y := by
      rw [significant, hchildren, ← hk.filter]
      exact List.filter_congr fun z _ => isSignificant_congr data?_link
    rw [hsig]
    refine forall₂_insertIdx ?_ (hy.link hc hp hbelow) j
    obtain ⟨hlen, hall⟩ := List.forall₂_iff_zip.1 h.2
    refine List.forall₂_iff_zip.2 ⟨hlen, fun {z m} hmem => (hall hmem).link hc hp ?_⟩
    exact hc.not_below_parent (hc.mem_children.1 (mem_significant.1 (List.of_mem_zip hmem).1).1)

/-! ## Taking out -/

/-- A node is taken out elsewhere. -/
theorem Stands.unlink (h : c.Stands d raw z n) (hc : c.IsForest) (hy : c.parent? y = some p)
    (hz : ¬ c.Below z p) : (c.unlink y).Stands d raw z n := by
  refine h.congr hc fun w hw => ⟨data?_unlink, ?_⟩
  rw [children_unlink, if_neg]
  rw [hy]
  rintro ⟨⟩
  exact hz hw

/-- **A child is taken out.** -/
theorem Hosts.unlink (h : c.Hosts d raw p ns) (hc : c.IsForest)
    (hy : (c.significant d p)[j]? = some y) :
    (c.unlink y).Hosts d raw p (ns.eraseIdx j) := by
  have hparent : c.parent? y = some p :=
    hc.mem_children.1 (mem_significant.1 (List.mem_of_getElem? hy)).1
  have hchildren : (c.unlink y).children p = (c.children p).filter (· != y) := by
    rw [children_unlink, if_pos hparent]
  constructor
  · intro z hz s hs hspace
    rw [hchildren, List.mem_filter] at hz
    rw [data?_unlink] at hs
    exact h.1 z hz.1 s hs hspace
  · have hsig : (c.unlink y).significant d p = (c.significant d p).eraseIdx j := by
      rw [significant, significant, hchildren, ← filter_bne (hc.nodup p) hy]
      exact List.filter_congr fun z _ => isSignificant_congr data?_unlink
    rw [hsig]
    refine forall₂_eraseIdx ?_ j
    obtain ⟨hlen, hall⟩ := List.forall₂_iff_zip.1 h.2
    refine List.forall₂_iff_zip.2 ⟨hlen, fun {z m} hmem => (hall hmem).unlink hc hparent ?_⟩
    exact hc.not_below_parent (hc.mem_children.1 (mem_significant.1 (List.of_mem_zip hmem).1).1)

/-! ## Finding the place -/

theorem unlink_of_parent? (h : c.parent? y = none) : c.unlink y = c := by
  rw [Canvas.unlink, h]

/-- A node without a parent gets to an index among the children that stand for nodes of the
document. -/
theorem exists_insertBefore (hc : c.IsForest) (hp : p < c.nodes.length) (hy : y < c.nodes.length)
    (hsig : c.isSignificant d y = true) (hbelow : ¬ c.Below y p) (hnone : c.parent? y = none)
    (hj : j ≤ (c.significant d p).length) :
    ∃ k, c.IsPlace d p y k j ∧
      c.insertBefore p y (c.significant d p)[j]? = ⟨c.link p y k, none⟩ := by
  have hanc : c.isAncestor y p = false := Bool.eq_false_iff.2 fun h => hbelow (hc.isAncestor_iff.1 h)
  simp only [insertBefore, known_of_lt hp, known_of_lt hy, hanc, unlink_of_parent? hnone,
    Bool.false_eq_true, if_false]
  cases ha : (c.significant d p)[j]? with
  | none =>
    obtain rfl : j = (c.significant d p).length :=
      Nat.le_antisymm hj (List.getElem?_eq_none_iff.1 ha)
    exact ⟨none, ⟨by rintro _ ⟨⟩, filter_insertIdx_length hsig⟩, rfl⟩
  | some a =>
    have hmem := (mem_significant.1 (List.mem_of_getElem? ha)).1
    cases hi : (c.children p).idxOf? a with
    | none => exact absurd hmem (List.idxOf?_eq_none_iff.1 hi)
    | some i =>
      obtain ⟨hlt, heq, -⟩ := List.findIdx?_eq_some_iff_getElem.1 hi
      have hget : (c.children p)[i]? = some a := by
        rw [List.getElem?_eq_getElem hlt, beq_iff_eq.1 heq]
      refine ⟨some i, ⟨?_, filter_insertIdx (hc.nodup p) hget ha hsig⟩, by simp only [hi]⟩
      rintro _ ⟨⟩
      exact Nat.le_of_lt hlt

end Canvas

/-! ## Trees that are shown -/

namespace Decoration

mutual

/-- A tree that new nodes of the canvas stand for. -/
def IsShowable (d : Decoration) (raw : Bool) : Node → Prop
  | .text t => t.all isSpace = false ∧ runText? raw t = some t
  | .element tag as st cs =>
    (tag = Node.rootTag → as = .empty ∧ st = .empty) ∧ d.Spares as st ∧
      (∀ e ∈ as.entries, IsAttribute e) ∧ (∀ e ∈ st.entries, Style.IsDeclaration e) ∧
      AllShowable d (isRaw tag) cs

/-- Trees that new children of a node stand for. -/
def AllShowable (d : Decoration) (raw : Bool) : List Node → Prop
  | [] => True
  | n :: ns => IsShowable d raw n ∧ AllShowable d raw ns

end

theorem allShowable_iff {d : Decoration} {raw : Bool} {ns : List Node} :
    d.AllShowable raw ns ↔ ∀ n ∈ ns, d.IsShowable raw n := by
  induction ns with
  | nil => simp [AllShowable]
  | cons n ns ih => simp [AllShowable, ih]

end Decoration

namespace Canvas

variable {c c' : Canvas} {d : Decoration} {raw : Bool} {p x y : NodeId} {ns : List Node}
  {n : Node} {j : Nat}

/-- There are new nodes below `p`; nothing else has changed. -/
structure Grows (c c' : Canvas) (p : NodeId) : Prop where
  le : c.nodes.length ≤ c'.nodes.length
  get? : ∀ x < c.nodes.length, x ≠ p → c'.get? x = c.get? x
  data? : c'.data? p = c.data? p
  parent? : c'.parent? p = c.parent? p

theorem Grows.trans {c'' : Canvas} (h : c.Grows c' p) (h' : c'.Grows c'' p) : c.Grows c'' p where
  le := h.le.trans h'.le
  get? x hx hne := (h'.get? x (hx.trans_le h.le) hne).trans (h.get? x hx hne)
  data? := h'.data?.trans h.data?
  parent? := h'.parent?.trans h.parent?

/-! ## Nodes that stay -/

section Stay

variable (hget : ∀ x < c.nodes.length, c'.get? x = c.get? x)
include hget

theorem Stands.of_get? (h : c.Stands d raw x n) (hc : c.IsForest) : c'.Stands d raw x n :=
  h.congr hc fun y hy => by
    have hy := hget y (hy.lt h.lt_length)
    exact ⟨data?_congr hy, children_congr hy⟩

theorem significant_of_get? (hc : c.IsForest) (hp : p < c.nodes.length) :
    c'.significant d p = c.significant d p :=
  significant_congr (children_congr (hget p hp)) fun y hy =>
    data?_congr (hget y (lt_of_parent? (hc.mem_children.1 hy)))

theorem Hosts.of_get? (h : c.Hosts d raw p ns) (hc : c.IsForest) (hp : p < c.nodes.length) :
    c'.Hosts d raw p ns := by
  refine h.congr hc (children_congr (hget p hp)) fun y hy z hz => ?_
  have hz := hget z (hz.lt (lt_of_parent? (hc.mem_children.1 hy)))
  exact ⟨data?_congr hz, children_congr hz⟩

/-- Only new nodes are below a new one. -/
theorem le_of_below (hc : c.IsForest) (hx : c.nodes.length ≤ x) (h : c'.Below x y) :
    c.nodes.length ≤ y := by
  induction h with
  | refl => exact hx
  | @tail p y _ hy ih =>
    refine Nat.le_of_not_lt fun hlt => absurd ih (Nat.not_le.2 ?_)
    rw [parent?_congr (hget y hlt)] at hy
    exact hc.lt_of_parent hy

theorem not_below_new (hc : c.IsForest) (hp : p < c.nodes.length) : ¬ c'.Below c.nodes.length p :=
  fun hb => absurd hp (Nat.not_lt.2 (le_of_below hget hc (Nat.le_refl _) hb))

/-- A new node is put among the children of an old one. -/
theorem grows_link (hlt : c.nodes.length < c'.nodes.length) (hp : p < c.nodes.length)
    (k : Option Nat) : c.Grows (c'.link p c.nodes.length k) p := by
  refine ⟨by simpa using hlt.le, fun x hx hne => ?_, ?_, ?_⟩
  · refine (get?_congr data?_link ?_ ?_).trans (hget x hx)
    · rw [parent?_link hlt, if_neg (Nat.ne_of_lt hx)]
    · rw [children_link (hp.trans hlt), if_neg hne]
  · rw [data?_link, data?_congr (hget p hp)]
  · rw [parent?_link hlt, if_neg (Nat.ne_of_lt hp), parent?_congr (hget p hp)]

end Stay

theorem IsForest.alloc (hc : c.IsForest) (data : LiveData) : (c.alloc data).1.IsForest :=
  hc.of_eq (fun _ => parent?_alloc c data) fun _ => children_alloc c data

theorem data?_alloc (c : Canvas) (data : LiveData) :
    (c.alloc data).1.data? c.nodes.length = some data := by
  rw [Canvas.data?, get?_alloc, if_pos rfl]
  rfl

theorem children_of_le (h : c.nodes.length ≤ x) : c.children x = [] := by
  rw [children, get?_eq_none_iff.2 h]

theorem parent?_of_le (h : c.nodes.length ≤ x) : c.parent? x = none := by
  rw [Canvas.parent?, get?_eq_none_iff.2 h]
  rfl

theorem createAll_cons (h : (c.create n).2 = c.nodes.length) : c.createAll p (n :: ns) =
    ((c.create n).1.link p c.nodes.length none).createAll p ns := by
  rw [← h]
  rfl

/-- A node without a parent is put behind the children of another. -/
theorem Hosts.link_none (h : c.Hosts d raw p ns) (hc : c.IsForest) (hp : p < c.nodes.length)
    (hx : c.Stands d raw x n) (hbelow : ¬ c.Below x p) :
    (c.link p x none).Hosts d raw p (ns ++ [n]) := by
  have hplace : c.IsPlace d p x none (c.significant d p).length :=
    ⟨by rintro _ ⟨⟩, filter_insertIdx_length hx.isSignificant⟩
  have := h.link hc hp hx hbelow hplace
  rwa [h.2.length_eq, List.insertIdx_length_self] at this

/-! ## New nodes -/

theorem get?_alloc_of_lt (data : LiveData) (hx : x < c.nodes.length) :
    (c.alloc data).1.get? x = c.get? x := by
  rw [get?_alloc, if_neg (Nat.ne_of_lt hx)]

mutual

/-- **A new node has no parent; the others stay as they are.** -/
theorem create_spec {c : Canvas} (hc : c.IsForest) (n : Node) :
    (c.create n).1.IsForest ∧ (c.create n).2 = c.nodes.length ∧
      (∀ x < c.nodes.length, (c.create n).1.get? x = c.get? x) ∧
      c.nodes.length < (c.create n).1.nodes.length ∧
      (c.create n).1.parent? c.nodes.length = none := by
  cases n with
  | text t =>
    refine ⟨hc.alloc _, rfl, fun x hx => get?_alloc_of_lt _ hx, by simp [create], ?_⟩
    rw [create, parent?_alloc, parent?_of_le (Nat.le_refl _)]
  | element tag as st cs =>
    have hlt : c.nodes.length <
        (c.alloc (.element tag (writtenAttributes as st))).1.nodes.length := by simp
    obtain ⟨hforest, hgrows⟩ := createAll_spec (hc.alloc _) hlt cs
    refine ⟨hforest, rfl, fun x hx => ?_, hlt.trans_le hgrows.le, ?_⟩
    · exact (hgrows.get? x (hx.trans hlt) (Nat.ne_of_lt hx)).trans (get?_alloc_of_lt _ hx)
    · exact hgrows.parent?.trans ((parent?_alloc c _).trans (parent?_of_le (Nat.le_refl _)))

/-- **New children of a node; the other nodes stay as they are.** -/
theorem createAll_spec {c : Canvas} {p : NodeId} (hc : c.IsForest) (hp : p < c.nodes.length)
    (ns : List Node) : (c.createAll p ns).IsForest ∧ c.Grows (c.createAll p ns) p := by
  cases ns with
  | nil => exact ⟨hc, ⟨Nat.le_refl _, fun _ _ _ => rfl, rfl, rfl⟩⟩
  | cons n ns =>
    obtain ⟨hforest, hid, hget, hlt, hnone⟩ := create_spec hc n
    have hp' := hp.trans hlt
    have hlinked := hforest.link_none hp' hlt hnone (not_below_new hget hc hp)
    obtain ⟨hforest', hgrows⟩ := createAll_spec hlinked (by simpa using hp') ns
    rw [createAll_cons hid]
    exact ⟨hforest', (grows_link hget hlt hp none).trans hgrows⟩

end

theorem hosts_alloc (data : LiveData) : (c.alloc data).1.Hosts d raw c.nodes.length [] := by
  have hnone := children_of_le (Nat.le_refl c.nodes.length)
  constructor
  · intro y hy
    rw [children_alloc, hnone] at hy
    cases hy
  · rw [significant, children_alloc, hnone]
    exact .nil

mutual

/-- **A new node stands for the tree for which it was made.** -/
theorem stands_create {raw : Bool} {c : Canvas} (hc : c.IsForest) (n : Node)
    (hn : d.IsShowable raw n) : (c.create n).1.Stands d raw c.nodes.length n := by
  cases n with
  | text t => exact stands_text.2 ⟨t, data?_alloc c _, hn⟩
  | element tag as st cs =>
    obtain ⟨-, hfree, hattrs, hdecl, hcs⟩ := hn
    have hlt : c.nodes.length <
        (c.alloc (.element tag (writtenAttributes as st))).1.nodes.length := by simp
    obtain ⟨-, hgrows⟩ := createAll_spec (hc.alloc _) hlt cs
    refine stands_element.2 ⟨⟨writtenAttributes as st, ?_, ?_⟩,
      hosts_createAll (hc.alloc _) hlt (hosts_alloc _) cs hcs⟩
    · exact hgrows.data?.trans (data?_alloc c _)
    · exact Decoration.reads_writtenAttributes hfree hattrs hdecl

/-- **New children of a node stand for the trees for which they were made.** -/
theorem hosts_createAll {raw : Bool} {c : Canvas} {p : NodeId} {ms : List Node} (hc : c.IsForest)
    (hp : p < c.nodes.length) (h : c.Hosts d raw p ms) (ns : List Node)
    (hns : d.AllShowable raw ns) : (c.createAll p ns).Hosts d raw p (ms ++ ns) := by
  cases ns with
  | nil =>
    rw [List.append_nil]
    exact h
  | cons n ns =>
    obtain ⟨hforest, hid, hget, hlt, hnone⟩ := create_spec hc n
    have hbelow := not_below_new hget hc hp
    have hp' := hp.trans hlt
    have hhosts := (h.of_get? hget hc hp).link_none hforest hp' (stands_create hc n hns.1) hbelow
    have hlinked := hforest.link_none hp' hlt hnone hbelow
    have hall := hosts_createAll hlinked (by simpa using hp') hhosts ns hns.2
    rw [createAll_cons hid]
    rwa [List.append_assoc] at hall

end

/-- **A new tree is put among the children of a node.** -/
theorem exists_place (hc : c.IsForest) (hp : p < c.nodes.length) (h : c.Hosts d raw p ns)
    (hn : d.IsShowable raw n) (hj : j ≤ ns.length) :
    ∃ c', c.place p (c.significant d p)[j]? n = ⟨c', none⟩ ∧ c'.IsForest ∧ c.Grows c' p ∧
      c'.Hosts d raw p (ns.insertIdx j n) ∧
      c'.significant d p = (c.significant d p).insertIdx j c.nodes.length := by
  obtain ⟨hforest, hid, hget, hlt, hnone⟩ := create_spec hc n
  have hstands := stands_create hc n hn
  have hbelow := not_below_new hget hc hp
  have hp' := hp.trans hlt
  have hsig : (c.create n).1.significant d p = c.significant d p := significant_of_get? hget hc hp
  have hle : j ≤ ((c.create n).1.significant d p).length := by
    rw [hsig, h.2.length_eq]
    exact hj
  obtain ⟨k, hk, hinsert⟩ := exists_insertBefore hforest hp' hlt hstands.isSignificant
    hbelow hnone hle
  refine ⟨(c.create n).1.link p c.nodes.length k, ?_, hforest.link hp' hlt hnone hbelow hk.le,
    grows_link hget hlt hp k, (h.of_get? hget hc hp).link hforest hp' hstands hbelow hk, ?_⟩
  · rw [← hinsert, hsig, ← hid]
    rfl
  · rw [← hsig, ← hk.filter, significant, children_link hp', if_pos rfl]
    exact List.filter_congr fun z _ => isSignificant_congr data?_link

end Canvas

end MarkupSync
