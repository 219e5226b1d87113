import Mathlib.Data.List.InsertIdx
import MarkupSync.Patch.Shadow
import MarkupSync.Proofs.Tree.Local

/-!
# Steps of a document

An edit of a difference changes one list of children, the attributes of one element or one text.

* `Node.Step`: an edit that can be applied, with the document before and after it. The new nodes,
  texts and attributes have a property `P`, which may depend on whether the content around them is
  kept as it is written;
* `Node.Steps`: edits one after another;
* **`Node.applyAll_of_steps`**: applying the edits of a chain of steps never fails and ends where
  the chain ends;
* `Shadow.Step`, `Shadow.Steps`: the same of a document whose nodes remember their origins. What
  edits have put into it they may replace as a whole, but they change nothing inside;
* **`Shadow.applyAll_of_steps`**, `Shadow.Steps.toNode`: the edits lead both the document with
  origins and the document itself to the end of the chain.
-/

namespace MarkupSync

namespace Node

/-- An edit that leads from a document to another. The first argument of `P`, and the index `raw`,
say whether the content around the node is kept as it is written. -/
inductive Step (P : Bool → Node → Prop) : Bool → Node → Edit → Node → Prop
  | text {raw : Bool} {a b : Text} (h : P raw (.text b)) :
    Step P raw (.text a) (.updateText [] b) (.text b)
  | replace {raw : Bool} {n m : Node} (h : P raw m) : Step P raw n (.replace [] m) m
  | attributes {raw : Bool} {tag : Text} {as bs st rt : Attrs} {cs ds : List Node}
    (h : P raw (.element tag bs rt ds)) :
    Step P raw (.element tag as st cs) (.updateAttributes [] (.between as bs) (.between st rt))
      (.element tag ((Delta.between as bs).apply as) ((Delta.between st rt).apply st) cs)
  | insert {raw : Bool} {tag : Text} {as st : Attrs} {cs : List Node} {k : Nat} {n : Node}
    (hk : k ≤ cs.length) (h : P (isRaw tag) n) :
    Step P raw (.element tag as st cs) (.insert [] k n) (.element tag as st (cs.insertIdx k n))
  | remove {raw : Bool} {tag : Text} {as st : Attrs} {cs : List Node} {k : Nat}
    (hk : k < cs.length) :
    Step P raw (.element tag as st cs) (.remove [k]) (.element tag as st (cs.eraseIdx k))
  | move {raw : Bool} {tag : Text} {as st : Attrs} {cs : List Node} {i k : Nat} {c : Node}
    (hc : cs[i]? = some c) (hk : k ≤ (cs.eraseIdx i).length) :
    Step P raw (.element tag as st cs) (.move [i] [] k)
      (.element tag as st ((cs.eraseIdx i).insertIdx k c))
  | inside {raw : Bool} {tag : Text} {as st : Attrs} {cs : List Node} {i : Nat} {c c' : Node}
    {e : Edit} (hc : cs[i]? = some c) (h : Step P (isRaw tag) c e c') :
    Step P raw (.element tag as st cs) (e.under [i]) (.element tag as st (cs.set i c'))

/-- Edits that lead from a document to another. -/
inductive Steps (P : Bool → Node → Prop) (raw : Bool) : Node → List Edit → Node → Prop
  | nil {n : Node} : Steps P raw n [] n
  | cons {n m k : Node} {e : Edit} {es : List Edit} (h : Step P raw n e m) (hs : Steps P raw m es k) :
    Steps P raw n (e :: es) k

variable {P : Bool → Node → Prop} {raw : Bool}

/-- A step is what applying its edit does. -/
theorem apply_of_step {n m : Node} {e : Edit} (h : Step P raw n e m) : n.apply e = ⟨m, none⟩ := by
  induction h with
  | text | replace | attributes => rfl
  | insert hk =>
    simp [apply, Tree.insertAt, Tree.childrenAt, Tree.descend, Tree.children?, Tree.modifyAt,
      Tree.withChildren, Outcome.ofExcept, Nat.not_lt.2 hk]
  | remove hk =>
    simp [apply, Tree.detach, Tree.slot, NodePath.split?, Tree.childrenAt, Tree.descend,
      Tree.children?, Tree.modifyAt, Tree.withChildren, Outcome.ofExcept, hk, Except.map]
  | move hc hk =>
    simp [apply, Tree.move, Tree.insertAt, Tree.detach, Tree.slot, NodePath.split?, Tree.childrenAt,
      Tree.descend, Tree.children?, Tree.modifyAt, Tree.withChildren, Outcome.ofExcept, hc,
      Nat.not_lt.2 hk]
  | inside hc _ ih => exact apply_under (n := .element _ _ _ _) hc ih

/-- **Applying the edits of a chain of steps never fails and ends where the chain ends.** -/
theorem applyAll_of_steps {n m : Node} {es : List Edit} (h : Steps P raw n es m) :
    n.applyAll es = ⟨m, none⟩ := by
  induction h with
  | nil => rfl
  | cons h _ ih =>
    rw [applyAll, Outcome.run, apply_of_step h]
    exact ih

end Node

/-! ## Documents with origins -/

namespace Shadow

theorem toNodes_eq_map (ss : List Shadow) : toNodes ss = ss.map toNode := by
  induction ss with
  | nil => rfl
  | cons s ss ih => rw [toNodes, ih, List.map_cons]

mutual

@[simp] theorem toNode_fresh (n : Node) : (fresh n).toNode = n := by
  cases n with
  | text a => rfl
  | element t a s cs => rw [fresh, toNode, toNodes_freshAll]

@[simp] theorem toNodes_freshAll (ns : List Node) : toNodes (freshAll ns) = ns := by
  cases ns with
  | nil => rfl
  | cons n ns => rw [freshAll, toNodes, toNode_fresh, toNodes_freshAll]

end

@[simp] theorem origin_fresh (n : Node) : (fresh n).origin = none := by
  cases n <;> rfl

/-- An edit that leads from a document with origins to another. -/
inductive Step (P : Bool → Node → Prop) : Bool → Shadow → Edit → Shadow → Prop
  | text {raw : Bool} {o : Origin} {a b : Text} (h : P raw (.text b)) :
    Step P raw (.text (some o) a) (.updateText [] b) (.text (some o) b)
  | replace {raw : Bool} {s : Shadow} {m : Node} (h : P raw m) :
    Step P raw s (.replace [] m) (fresh m)
  | attributes {raw : Bool} {o : Origin} {tag : Text} {as bs st rt : Attrs} {cs : List Shadow}
    {ds : List Node} (h : P raw (.element tag bs rt ds)) :
    Step P raw (.element (some o) tag as st cs)
      (.updateAttributes [] (.between as bs) (.between st rt))
      (.element (some o) tag ((Delta.between as bs).apply as) ((Delta.between st rt).apply st) cs)
  | insert {raw : Bool} {o : Origin} {tag : Text} {as st : Attrs} {cs : List Shadow} {k : Nat}
    {n : Node} (hk : k ≤ cs.length) (h : P (isRaw tag) n) :
    Step P raw (.element (some o) tag as st cs) (.insert [] k n)
      (.element (some o) tag as st (cs.insertIdx k (fresh n)))
  | remove {raw : Bool} {o : Origin} {tag : Text} {as st : Attrs} {cs : List Shadow} {k : Nat}
    (hk : k < cs.length) :
    Step P raw (.element (some o) tag as st cs) (.remove [k])
      (.element (some o) tag as st (cs.eraseIdx k))
  | move {raw : Bool} {o : Origin} {tag : Text} {as st : Attrs} {cs : List Shadow} {i k : Nat}
    {c : Shadow} (hc : cs[i]? = some c) (hk : k ≤ (cs.eraseIdx i).length) :
    Step P raw (.element (some o) tag as st cs) (.move [i] [] k)
      (.element (some o) tag as st ((cs.eraseIdx i).insertIdx k c))
  | inside {raw : Bool} {o : Origin} {tag : Text} {as st : Attrs} {cs : List Shadow} {i : Nat}
    {c c' : Shadow} {e : Edit} (hc : cs[i]? = some c) (h : Step P (isRaw tag) c e c') :
    Step P raw (.element (some o) tag as st cs) (e.under [i])
      (.element (some o) tag as st (cs.set i c'))

/-- Edits that lead from a document with origins to another. -/
inductive Steps (P : Bool → Node → Prop) (raw : Bool) : Shadow → List Edit → Shadow → Prop
  | nil {s : Shadow} : Steps P raw s [] s
  | cons {s t u : Shadow} {e : Edit} {es : List Edit} (h : Step P raw s e t)
    (hs : Steps P raw t es u) : Steps P raw s (e :: es) u

variable {P : Bool → Node → Prop} {raw : Bool}

theorem Steps.single {s t : Shadow} {e : Edit} (h : Step P raw s e t) : Steps P raw s [e] t :=
  .cons h .nil

theorem Steps.append {s t u : Shadow} {es fs : List Edit} (h : Steps P raw s es t)
    (h' : Steps P raw t fs u) : Steps P raw s (es ++ fs) u := by
  induction h with
  | nil => exact h'
  | cons h _ ih => exact .cons h (ih h')

/-- Steps of a child are steps of its parent. -/
theorem Steps.inside {o : Origin} {tag : Text} {as st : Attrs} {cs : List Shadow} {i : Nat}
    {c c' : Shadow} {es : List Edit} (hc : cs[i]? = some c) (h : Steps P (isRaw tag) c es c') :
    Steps P raw (.element (some o) tag as st cs) (es.map (Edit.under [i]))
      (.element (some o) tag as st (cs.set i c')) := by
  induction h generalizing cs with
  | nil =>
    obtain ⟨hi, rfl⟩ := List.getElem?_eq_some_iff.1 hc
    rw [List.set_getElem_self]
    exact .nil
  | cons h _ ih =>
    obtain ⟨hi, -⟩ := List.getElem?_eq_some_iff.1 hc
    have := ih (List.getElem?_set_self hi)
    rw [List.set_set] at this
    exact .cons (.inside hc h) this

/-- A step with origins is a step of the document. -/
theorem Step.toNode {s t : Shadow} {e : Edit} (h : Step P raw s e t) :
    Node.Step P raw s.toNode e t.toNode := by
  induction h with
  | text h => exact .text h
  | replace h =>
    rw [toNode_fresh]
    exact .replace h
  | attributes h => exact .attributes h
  | insert hk h =>
    simp only [Shadow.toNode, toNodes_eq_map, List.map_insertIdx, toNode_fresh]
    rw [← List.length_map Shadow.toNode] at hk
    exact .insert hk h
  | remove hk =>
    simp only [Shadow.toNode, toNodes_eq_map, ← List.eraseIdx_map]
    rw [← List.length_map Shadow.toNode] at hk
    exact .remove hk
  | move hc hk =>
    simp only [Shadow.toNode, toNodes_eq_map, List.map_insertIdx, ← List.eraseIdx_map]
    rw [← List.length_map Shadow.toNode, ← List.eraseIdx_map] at hk
    exact .move (by simp [hc]) hk
  | inside hc _ ih =>
    simp only [Shadow.toNode, toNodes_eq_map, List.map_set]
    exact .inside (by simp [hc]) ih

/-- Steps with origins are steps of the document. -/
theorem Steps.toNode {s t : Shadow} {es : List Edit} (h : Steps P raw s es t) :
    Node.Steps P raw s.toNode es t.toNode := by
  induction h with
  | nil => exact .nil
  | cons h _ ih => exact .cons h.toNode ih

/-- A step with origins is what its edit does to the document with origins. -/
theorem edit_of_step {s t : Shadow} {e : Edit} (h : Step P raw s e t) : s.edit e = .ok t := by
  induction h with
  | text | replace | attributes => rfl
  | insert hk =>
    simp [edit, Tree.insertAt, Tree.childrenAt, Tree.descend, Tree.children?, Tree.modifyAt,
      Tree.withChildren, Nat.not_lt.2 hk]
  | remove hk =>
    simp [edit, Tree.detach, Tree.slot, NodePath.split?, Tree.childrenAt, Tree.descend,
      Tree.children?, Tree.modifyAt, Tree.withChildren, hk, Except.map]
  | move hc hk =>
    simp [edit, Tree.move, Tree.insertAt, Tree.detach, Tree.slot, NodePath.split?, Tree.childrenAt,
      Tree.descend, Tree.children?, Tree.modifyAt, Tree.withChildren, Outcome.ofExcept,
      Outcome.result, hc, Nat.not_lt.2 hk]
  | inside hc _ ih => exact edit_under (s := .element _ _ _ _ _) hc ih

/-- **The edits of a chain of steps lead the document with origins to the end of the chain.** -/
theorem applyAll_of_steps {s t : Shadow} {es : List Edit} (h : Steps P raw s es t) :
    s.applyAll es = .ok t := by
  induction h with
  | nil => rfl
  | cons h _ ih =>
    rw [applyAll, apply, edit_of_step h]
    exact ih

end Shadow

end MarkupSync
