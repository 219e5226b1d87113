import Mathlib.Data.List.Nodup
import MarkupSync.Node
import MarkupSync.Proofs.Diff.Delta

/-!
# Properties of all elements of a tree

* `Node.Same.refl`, `Node.Same.symm`, `Node.Same.trans`: trees equal up to the order of attributes;
* `Node.Everywhere`: every element of a tree has a property of its tag, its attributes, its
  declarations and its children;
* **`Node.Everywhere.same`**: such a property passes to the same tree in another order;
* `Node.Same.eq_of_length`: trees that have no other order;
* `Attrs.Same.entries`, `Node.SameAll.isText`: what trees that are the same have in common.
-/

namespace MarkupSync

/-! ## Trees equal up to the order of attributes -/

namespace Node

mutual

theorem Same.refl (n : Node) : n.Same n := by
  cases n with
  | text a => exact rfl
  | element t a s cs => exact ⟨rfl, .refl a, .refl s, SameAll.refl cs⟩

theorem SameAll.refl (ns : List Node) : SameAll ns ns := by
  cases ns with
  | nil => trivial
  | cons n ns => exact ⟨Same.refl n, SameAll.refl ns⟩

end

mutual

theorem Same.symm {n m : Node} (h : n.Same m) : m.Same n := by
  cases n <;> cases m
  case text.text => exact Eq.symm h
  case element.element => exact ⟨h.1.symm, h.2.1.symm, h.2.2.1.symm, SameAll.symm h.2.2.2⟩
  all_goals exact h.elim

theorem SameAll.symm {ns ms : List Node} (h : SameAll ns ms) : SameAll ms ns := by
  cases ns <;> cases ms
  case nil.nil => trivial
  case cons.cons => exact ⟨Same.symm h.1, SameAll.symm h.2⟩
  all_goals exact h.elim

end

mutual

theorem Same.trans {n m k : Node} (h : n.Same m) (h' : m.Same k) : n.Same k := by
  cases n <;> cases m
  case text.text =>
    obtain rfl : _ = _ := h
    exact h'
  case element.element =>
    cases k with
    | text => exact h'.elim
    | element =>
      exact ⟨h.1.trans h'.1, h.2.1.trans h'.2.1, h.2.2.1.trans h'.2.2.1,
        SameAll.trans h.2.2.2 h'.2.2.2⟩
  all_goals exact h.elim

theorem SameAll.trans {ns ms ks : List Node} (h : SameAll ns ms) (h' : SameAll ms ks) :
    SameAll ns ks := by
  cases ns <;> cases ms
  case nil.nil => exact h'
  case cons.cons =>
    cases ks with
    | nil => exact h'.elim
    | cons => exact ⟨Same.trans h.1 h'.1, SameAll.trans h.2 h'.2⟩
  all_goals exact h.elim

end

end Node

/-! ## Properties of all elements -/

theorem Attrs.mem_entries_iff {m : Attrs} {e : Entry} : e ∈ m.entries ↔ m.find? e.1 = some e.2 :=
  ⟨find?_of_mem, mem_of_find?⟩

/-- Maps that are the same have the same entries. -/
theorem Attrs.Same.entries {a b : Attrs} (h : a.Same b) {e : Entry} :
    e ∈ a.entries ↔ e ∈ b.entries := by
  rw [mem_entries_iff, mem_entries_iff, h]

theorem Attrs.eq_empty_iff {m : Attrs} : m = .empty ↔ ∀ e, e ∉ m.entries := by
  rw [← List.eq_nil_iff_forall_not_mem]
  exact ⟨fun h => h ▸ rfl, fun h => Attrs.ext h⟩

theorem Attrs.eq_empty_of_isEmpty {m : Attrs} (h : m.isEmpty = true) : m = .empty :=
  Attrs.ext (List.isEmpty_iff.1 h)

theorem Attrs.Same.isEmpty {a b : Attrs} (h : a.Same b) : a.isEmpty = b.isEmpty := by
  rw [Bool.eq_iff_iff, Attrs.isEmpty, Attrs.isEmpty, List.isEmpty_iff, List.isEmpty_iff,
    List.eq_nil_iff_forall_not_mem, List.eq_nil_iff_forall_not_mem]
  exact forall_congr' fun e => not_congr h.entries

/-- A map of one entry at most has no other order. -/
theorem Attrs.Same.eq_of_length {a b : Attrs} (h : a.Same b) (hb : b.entries.length ≤ 1) :
    a = b := by
  have hperm : a.entries.Perm b.entries :=
    (List.perm_ext_iff_of_nodup (List.Nodup.of_map _ a.nodup) (List.Nodup.of_map _ b.nodup)).2
      fun _ => h.entries
  refine Attrs.ext ?_
  match b.entries, hb, hperm with
  | [], _, hperm => exact hperm.eq_nil
  | [e], _, hperm => exact List.perm_singleton.1 hperm

theorem Attrs.mem_entries_insert {m : Attrs} {n v : Text} {e : Entry} :
    e ∈ (m.insert n v).entries ↔ e = (n, v) ∨ e.1 ≠ n ∧ e ∈ m.entries := by
  obtain ⟨k, w⟩ := e
  rw [mem_entries_iff, find?_insert, mem_entries_iff]
  by_cases h : k = n
  · simp [h, eq_comm]
  · simp [h]

/-- The entries of a map are among those that it was made of. -/
theorem Attrs.mem_of_mem_ofList {es : List Entry} {e : Entry} (h : e ∈ (ofList es).entries) :
    e ∈ es := by
  refine List.foldlRecOn es (fun m e => m.insert e.1 e.2)
    (motive := fun m : Attrs => e ∈ m.entries → e ∈ es) ?_ ?_ h
  · rintro ⟨⟩
  · intro m hm d hd he
    obtain rfl | he := mem_entries_insert.1 he
    · exact hd
    · exact hm he.2

namespace Node

theorem Same.isText {n m : Node} (h : n.Same m) : n.isText = m.isText := by
  cases n <;> cases m
  case text.text => rfl
  case element.element => rfl
  all_goals exact h.elim

theorem Same.eq_text {n : Node} {t : Text} (h : n.Same (.text t)) : n = .text t := by
  cases n with
  | text a => exact congrArg _ h
  | element => exact h.elim

theorem SameAll.length {ns ms : List Node} (h : SameAll ns ms) : ns.length = ms.length := by
  induction ns generalizing ms with
  | nil => cases ms with
    | nil => rfl
    | cons => exact h.elim
  | cons n ns ih => cases ms with
    | nil => exact h.elim
    | cons m ms => exact congrArg (· + 1) (ih h.2)

theorem SameAll.map_isText {ns ms : List Node} (h : SameAll ns ms) :
    ns.map isText = ms.map isText := by
  induction ns generalizing ms with
  | nil => cases ms with
    | nil => rfl
    | cons => exact h.elim
  | cons n ns ih => cases ms with
    | nil => exact h.elim
    | cons m ms => rw [List.map_cons, List.map_cons, h.1.isText, ih h.2]

theorem SameAll.append {ns ms ks ls : List Node} (h : SameAll ns ms) (h' : SameAll ks ls) :
    SameAll (ns ++ ks) (ms ++ ls) := by
  induction ns generalizing ms with
  | nil => cases ms with
    | nil => exact h'
    | cons => exact h.elim
  | cons n ns ih => cases ms with
    | nil => exact h.elim
    | cons m ms => exact ⟨h.1, ih h.2⟩

/-- Trees that are the same have the same texts among their children. -/
theorem SameAll.mem_text {ns ms : List Node} (h : SameAll ns ms) {t : Text} :
    .text t ∈ ns ↔ .text t ∈ ms := by
  induction ns generalizing ms with
  | nil => cases ms with
    | nil => rfl
    | cons => exact h.elim
  | cons n ns ih => cases ms with
    | nil => exact h.elim
    | cons m ms =>
      have : .text t = n ↔ .text t = m :=
        ⟨fun hn => (Same.eq_text (hn ▸ h.1.symm)).symm, fun hm => (Same.eq_text (hm ▸ h.1)).symm⟩
      rw [List.mem_cons, List.mem_cons, this, ih h.2]

theorem SameAll.ofTopLevel {ns ms : List Node} (h : SameAll ns ms) :
    (ofTopLevel ns).Same (ofTopLevel ms) := by
  have hroot : (root ns).Same (root ms) := ⟨rfl, fun _ => rfl, fun _ => rfl, h⟩
  match ns, ms, h with
  | [], [], _ => exact hroot
  | [.text _], [.text _], _ => exact hroot
  | [.element ..], [.element ..], h => exact h.1
  | .text _ :: _ :: _, .text _ :: _ :: _, _ => exact hroot
  | .element .. :: _ :: _, .element .. :: _ :: _, _ => exact hroot

theorem isElement_ofTopLevel (ns : List Node) : (ofTopLevel ns).isElement = true := by
  rw [ofTopLevel.eq_def]
  split <;> rfl

theorem Same.isRoot {n m : Node} (h : n.Same m) : n.isRoot = m.isRoot := by
  cases n <;> cases m
  case text.text => rfl
  case element.element => simp only [Node.isRoot, Node.tag?, h.1]
  all_goals exact h.elim

theorem Same.topLevel {n m : Node} (h : n.Same m) : SameAll n.topLevel m.topLevel := by
  rw [Node.topLevel, Node.topLevel, ← h.isRoot]
  split_ifs
  · cases n <;> cases m
    case text.text => trivial
    case element.element => exact h.2.2.2
    all_goals exact h.elim
  · exact ⟨h, trivial⟩

theorem topLevel_ofTopLevel {ns : List Node} (h : ∀ n ∈ ns, n.isRoot = false) :
    (ofTopLevel ns).topLevel = ns := by
  match ns, h with
  | [], _ => rfl
  | [.text _], _ => rfl
  | [.element ..], h => rw [ofTopLevel, topLevel, h _ List.mem_cons_self]; rfl
  | .text _ :: _ :: _, _ => rfl
  | .element .. :: _ :: _, _ => rfl

mutual

/-- Every element of a tree has the property `Q`. -/
def Everywhere (Q : Text → Attrs → Attrs → List Node → Prop) : Node → Prop
  | .text _ => True
  | .element tag attributes style children =>
    Q tag attributes style children ∧ AllEverywhere Q children

/-- Every element of the trees of a list has the property `Q`. -/
def AllEverywhere (Q : Text → Attrs → Attrs → List Node → Prop) : List Node → Prop
  | [] => True
  | n :: ns => n.Everywhere Q ∧ AllEverywhere Q ns

end

section Decide

variable {Q : Text → Attrs → Attrs → List Node → Prop} [∀ tag as st cs, Decidable (Q tag as st cs)]

mutual

/-- Decides whether every element of a tree has a property. -/
def decidableEverywhere : (n : Node) → Decidable (n.Everywhere Q)
  | .text _ => inferInstanceAs (Decidable True)
  | .element tag attributes style children =>
    have := decidableAllEverywhere children
    inferInstanceAs (Decidable (Q tag attributes style children ∧ AllEverywhere Q children))

/-- Decides whether every element of the trees of a list has a property. -/
def decidableAllEverywhere : (ns : List Node) → Decidable (AllEverywhere Q ns)
  | [] => inferInstanceAs (Decidable True)
  | n :: ns =>
    have := decidableEverywhere n
    have := decidableAllEverywhere ns
    inferInstanceAs (Decidable (n.Everywhere Q ∧ AllEverywhere Q ns))

end

instance (n : Node) : Decidable (n.Everywhere Q) := decidableEverywhere n

end Decide

variable {Q R : Text → Attrs → Attrs → List Node → Prop}

theorem allEverywhere_iff {ns : List Node} : AllEverywhere Q ns ↔ ∀ n ∈ ns, n.Everywhere Q := by
  induction ns with
  | nil => simp [AllEverywhere]
  | cons n ns ih => simp [AllEverywhere, ih]

/-- The top-level nodes of a document have what its elements have. -/
theorem Everywhere.topLevel {n : Node} (h : n.Everywhere Q) : ∀ m ∈ n.topLevel, m.Everywhere Q := by
  rw [Node.topLevel]
  split
  · cases n with
    | text => exact List.forall_mem_nil _
    | element => exact allEverywhere_iff.1 h.2
  · exact List.forall_mem_singleton.2 h

mutual

theorem Everywhere.mono (hQ : ∀ {tag as st cs}, Q tag as st cs → R tag as st cs) {n : Node}
    (h : n.Everywhere Q) : n.Everywhere R := by
  cases n with
  | text => trivial
  | element tag as st cs => exact ⟨hQ h.1, AllEverywhere.mono hQ h.2⟩

theorem AllEverywhere.mono (hQ : ∀ {tag as st cs}, Q tag as st cs → R tag as st cs)
    {ns : List Node} (h : AllEverywhere Q ns) : AllEverywhere R ns := by
  cases ns with
  | nil => trivial
  | cons n ns => exact ⟨Everywhere.mono hQ h.1, AllEverywhere.mono hQ h.2⟩

end

mutual

theorem Everywhere.and {n : Node} (h : n.Everywhere Q) (h' : n.Everywhere R) :
    n.Everywhere fun tag as st cs => Q tag as st cs ∧ R tag as st cs := by
  cases n with
  | text => trivial
  | element tag as st cs => exact ⟨⟨h.1, h'.1⟩, AllEverywhere.and h.2 h'.2⟩

theorem AllEverywhere.and {ns : List Node} (h : AllEverywhere Q ns) (h' : AllEverywhere R ns) :
    AllEverywhere (fun tag as st cs => Q tag as st cs ∧ R tag as st cs) ns := by
  cases ns with
  | nil => trivial
  | cons n ns => exact ⟨Everywhere.and h.1 h'.1, AllEverywhere.and h.2 h'.2⟩

end

mutual

/-- **A property of all elements passes to the same tree in another order.** -/
theorem Everywhere.same (hQ : ∀ {tag as bs st rt cs ds}, Attrs.Same as bs → Attrs.Same st rt →
    SameAll cs ds → Q tag as st cs → Q tag bs rt ds) {n m : Node} (h : n.Everywhere Q)
    (hs : n.Same m) : m.Everywhere Q := by
  cases n <;> cases m
  case text.text => trivial
  case element.element =>
    obtain ⟨rfl, has, hst, hcs⟩ := hs
    exact ⟨hQ has hst hcs h.1, AllEverywhere.same hQ h.2 hcs⟩
  all_goals exact hs.elim

theorem AllEverywhere.same (hQ : ∀ {tag as bs st rt cs ds}, Attrs.Same as bs → Attrs.Same st rt →
    SameAll cs ds → Q tag as st cs → Q tag bs rt ds) {ns ms : List Node} (h : AllEverywhere Q ns)
    (hs : SameAll ns ms) : AllEverywhere Q ms := by
  cases ns <;> cases ms
  case nil.nil => trivial
  case cons.cons => exact ⟨Everywhere.same hQ h.1 hs.1, AllEverywhere.same hQ h.2 hs.2⟩
  all_goals exact hs.elim

end

mutual

/-- A tree whose maps have one entry at most has no other order. -/
theorem Same.eq_of_length {n m : Node} (h : n.Same m)
    (hm : m.Everywhere fun _ as st _ => as.entries.length ≤ 1 ∧ st.entries.length ≤ 1) : n = m := by
  cases n <;> cases m
  case text.text => exact congrArg _ h
  case element.element =>
    obtain ⟨rfl, has, hst, hcs⟩ := h
    rw [has.eq_of_length hm.1.1, hst.eq_of_length hm.1.2, SameAll.eq_of_length hcs hm.2]
  all_goals exact h.elim

theorem SameAll.eq_of_length {ns ms : List Node} (h : SameAll ns ms)
    (hm : AllEverywhere (fun _ as st _ => as.entries.length ≤ 1 ∧ st.entries.length ≤ 1) ms) :
    ns = ms := by
  cases ns <;> cases ms
  case nil.nil => rfl
  case cons.cons => rw [Same.eq_of_length h.1 hm.1, SameAll.eq_of_length h.2 hm.2]
  all_goals exact h.elim

end

end Node

end MarkupSync
