import MarkupSync.Proofs.Diff.Reach

/-!
# The order of a difference

* `Node.Admits`: the edits that a difference from a document may have;
* `Edit.Before`: two edits in the order of a difference: changes of an element come in front of
  those inside its children, these in front of the removals of children, last child first, and
  these in front of the insertions and moves;
* **`Node.admits_and_before_diff`**: every difference consists of such edits in this order;
* `Edit.InOrder`, **`Node.inOrder_diff`**: the same said of one list of children, wherever it is.
-/

namespace MarkupSync

namespace Edit

/-- An insertion into the children of the root, or a move among them. -/
inductive Places : Edit → Prop
  | insert {index : Nat} {n : Node} : Places (.insert [] index n)
  | move {source index : Nat} : Places (.move [source] [] index)

/-- The root is not taken out. -/
def KeepsRoot : Edit → Prop
  | remove path => path ≠ []
  | move source _ _ => source ≠ []
  | _ => True

/-- Two edits in the order of a difference. -/
inductive Before : Edit → Edit → Prop
  | attributes {attributes style : Delta} {e : Edit} :
    Before (.updateAttributes [] attributes style) e
  | inside {i : Nat} {e f : Edit} (he : e.KeepsRoot) (hf : f.KeepsRoot) (h : Before e f) :
    Before (e.under [i]) (f.under [i])
  | apart {i j : Nat} {e f : Edit} (he : e.KeepsRoot) (hf : f.KeepsRoot) (h : i ≠ j) :
    Before (e.under [i]) (f.under [j])
  | removed {i j : Nat} {e : Edit} (he : e.KeepsRoot) : Before (e.under [i]) (.remove [j])
  | placed {i : Nat} {e f : Edit} (he : e.KeepsRoot) (hf : f.Places) : Before (e.under [i]) f
  | removals {i j : Nat} (h : j < i) : Before (.remove [i]) (.remove [j])
  | placedRemoved {i : Nat} {f : Edit} (hf : f.Places) : Before (.remove [i]) f
  | placements {e f : Edit} (he : e.Places) (hf : f.Places) : Before e f

end Edit

namespace Node

/-- The edits that a difference from a document may have. -/
inductive Admits : Node → Edit → Prop
  | text {a b : Text} : Admits (.text a) (.updateText [] b)
  | replace {n m : Node} : Admits n (.replace [] m)
  | attributes {tag : Text} {as st : Attrs} {cs : List Node} {attributes style : Delta} :
    Admits (.element tag as st cs) (.updateAttributes [] attributes style)
  | removal {tag : Text} {as st : Attrs} {cs : List Node} {i : Nat} :
    Admits (.element tag as st cs) (.remove [i])
  | placement {tag : Text} {as st : Attrs} {cs : List Node} {e : Edit} (he : e.Places) :
    Admits (.element tag as st cs) e
  | inside {tag : Text} {as st : Attrs} {cs : List Node} {i : Nat} {c : Node} {e : Edit}
    (hc : cs[i]? = some c) (h : Admits c e) : Admits (.element tag as st cs) (e.under [i])

theorem Admits.keepsRoot {n : Node} {e : Edit} (h : n.Admits e) : e.KeepsRoot := by
  cases h with
  | text | replace | attributes => trivial
  | removal => exact List.cons_ne_nil _ _
  | placement he =>
    cases he with
    | insert => trivial
    | move => exact List.cons_ne_nil _ _
  | @inside _ _ _ _ i _ e => cases e <;> first | trivial | exact List.cons_ne_nil _ _

end Node

/-! ## One list of children -/

theorem eq_of_mem_attributeEdits {attributes style : Delta} {e : Edit}
    (he : e ∈ attributeEdits [] attributes style) : e = .updateAttributes [] attributes style := by
  rw [attributeEdits] at he
  split_ifs at he
  · cases he
  · exact List.mem_singleton.1 he

theorem exists_of_mem_removals {matched : List (Option Nat)} {count : Nat} {e : Edit}
    (he : e ∈ removals [] matched count) : ∃ i, e = .remove [i] := by
  obtain ⟨i, -, rfl⟩ := List.mem_map.1 he
  exact ⟨i, rfl⟩

/-- The removals take the last child first. -/
theorem before_removals (matched : List (Option Nat)) (count : Nat) :
    (removals [] matched count).Pairwise Edit.Before := by
  rw [removals, List.pairwise_map]
  refine List.Pairwise.filter _ (List.pairwise_reverse.2 ?_)
  exact List.pairwise_lt_range.imp .removals

theorem places_of_mem_placements {stays : List Nat} {anchor : Option Slot} {current : List Slot}
    {ts : List Target} {e : Edit} (he : e ∈ placements [] stays anchor current ts) : e.Places := by
  induction ts generalizing anchor current with
  | nil => cases he
  | cons t ts ih =>
    rw [placements] at he
    split at he
    · rcases List.mem_cons.1 he with rfl | he
      · exact .insert
      · exact ih he
    · split_ifs at he
      · exact ih he
      split at he
      · exact ih he
      · rcases List.mem_cons.1 he with rfl | he
        · exact .move
        · exact ih he

/-- The edits of a list of children come in order: removals, then insertions and moves. -/
theorem before_rearrangement (matched : List (Option Nat)) (count : Nat) (new : List Node) :
    (rearrangement [] matched count new).Pairwise Edit.Before := by
  refine List.pairwise_append.2 ⟨before_removals matched count, ?_, fun e he f hf => ?_⟩
  · exact List.pairwise_of_forall_mem_list fun e he f hf =>
      .placements (places_of_mem_placements he) (places_of_mem_placements hf)
  · obtain ⟨i, rfl⟩ := exists_of_mem_removals he
    exact .placedRemoved (places_of_mem_placements hf)

/-! ## Whole differences -/

namespace Node

theorem diffMatched_some {cs : List Node} {i : Nat} {c : Node} (hc : cs[i]? = some c)
    (sources : List (Option Nat)) (n : Node) (ns : List Node) :
    diffMatched [] cs (some i :: sources) (n :: ns) =
      (diff c n).map (Edit.under [i]) ++ diffMatched [] cs sources ns := by
  have hmap : diffAt (NodePath.child [] i) c n = (diff c n).map (Edit.under [i]) :=
    diffAt_eq_map_under _ _ _
  simp only [diffMatched, hc, hmap]

mutual

/-- **A difference consists of the edits that the old document admits, in order.** -/
theorem admits_and_before_diff (old new : Node) :
    (∀ e ∈ diff old new, old.Admits e) ∧ (diff old new).Pairwise Edit.Before := by
  have single {e : Edit} (h : old.Admits e) :
      (∀ f ∈ [e], old.Admits f) ∧ [e].Pairwise Edit.Before :=
    ⟨by simpa using h, List.pairwise_singleton _ _⟩
  rw [diff]
  cases new with
  | text b =>
    cases old with
    | text a =>
      rw [diffAt]
      split_ifs
      · exact ⟨by simp, .nil⟩
      · exact single .text
    | element => exact single .replace
  | element tag bs rt ds =>
    cases old with
    | text => exact single .replace
    | element oldTag as st cs =>
      rw [diffAt]
      split_ifs
      · obtain ⟨hinside, horder⟩ := inside_and_before_diffMatched cs _ (nodup_matching cs ds) ds
        -- what comes in front of or behind the edits inside the children
        have hrest : ∀ e ∈ rearrangement [] (matching cs ds) cs.length ds,
            (∃ i, e = .remove [i]) ∨ e.Places := fun e he =>
          (List.mem_append.1 he).imp exists_of_mem_removals places_of_mem_placements
        constructor
        · intro e he
          rcases List.mem_append.1 he with he | he
          · rcases List.mem_append.1 he with he | he
            · rw [eq_of_mem_attributeEdits he]
              exact .attributes
            · obtain ⟨i, c, e', -, hc, he', rfl⟩ := hinside e he
              exact .inside hc he'
          · obtain ⟨i, rfl⟩ | he := hrest e he
            · exact .removal
            · exact .placement he
        · rw [List.append_assoc]
          refine List.pairwise_append.2 ⟨?_, List.pairwise_append.2
            ⟨horder, before_rearrangement _ _ _, fun e he f hf => ?_⟩, fun e he f _ => ?_⟩
          · rw [attributeEdits]
            split_ifs
            · exact .nil
            · exact List.pairwise_singleton _ _
          · obtain ⟨i, c, e', -, -, he', rfl⟩ := hinside e he
            obtain ⟨j, rfl⟩ | hf := hrest f hf
            · exact .removed he'.keepsRoot
            · exact .placed he'.keepsRoot hf
          · rw [eq_of_mem_attributeEdits he]
            exact .attributes
      · exact single .replace

/-- The edits inside matched children are admitted by them. Those of one child come in order, and
no two children are the same. -/
theorem inside_and_before_diffMatched (cs : List Node) (sources : List (Option Nat))
    (hd : (sources.filterMap id).Nodup) (ns : List Node) :
    (∀ e ∈ diffMatched [] cs sources ns, ∃ i c e', some i ∈ sources ∧ cs[i]? = some c ∧
      c.Admits e' ∧ e = Edit.under [i] e') ∧
      (diffMatched [] cs sources ns).Pairwise Edit.Before := by
  cases ns with
  | nil => simp [diffMatched]
  | cons n ns =>
    cases sources with
    | nil => simp [diffMatched]
    | cons source sources =>
      cases source with
      | none =>
        rw [show diffMatched [] cs (none :: sources) (n :: ns) = diffMatched [] cs sources ns from rfl]
        obtain ⟨hinside, horder⟩ := inside_and_before_diffMatched cs sources
          (by simpa using hd) ns
        refine ⟨fun e he => ?_, horder⟩
        obtain ⟨i, c, e', hi, h⟩ := hinside e he
        exact ⟨i, c, e', List.mem_cons_of_mem _ hi, h⟩
      | some i =>
        obtain ⟨hi, hd⟩ := List.nodup_cons.1 hd
        obtain ⟨hinside, horder⟩ := inside_and_before_diffMatched cs sources hd ns
        cases hc : cs[i]? with
        | none =>
          rw [show diffMatched [] cs (some i :: sources) (n :: ns) = diffMatched [] cs sources ns by
            simp only [diffMatched, hc, List.nil_append]]
          refine ⟨fun e he => ?_, horder⟩
          obtain ⟨j, c, e', hj, h⟩ := hinside e he
          exact ⟨j, c, e', List.mem_cons_of_mem _ hj, h⟩
        | some c =>
          obtain ⟨hadmits, hbefore⟩ := admits_and_before_diff c n
          rw [diffMatched_some hc]
          constructor
          · intro e he
            rcases List.mem_append.1 he with he | he
            · obtain ⟨e', he', rfl⟩ := List.mem_map.1 he
              exact ⟨i, c, e', List.mem_cons_self, hc, hadmits e' he', rfl⟩
            · obtain ⟨j, c', e', hj, h⟩ := hinside e he
              exact ⟨j, c', e', List.mem_cons_of_mem _ hj, h⟩
          · refine List.pairwise_append.2 ⟨?_, horder, fun e he f hf => ?_⟩
            · rw [List.pairwise_map]
              exact hbefore.imp_of_mem fun he hf h =>
                .inside (hadmits _ he).keepsRoot (hadmits _ hf).keepsRoot h
            · obtain ⟨e', he', rfl⟩ := List.mem_map.1 he
              obtain ⟨j, c', f', hj, -, hf', rfl⟩ := hinside f hf
              have hij : i ≠ j := fun hij => hi (by simpa [hij] using hj)
              exact .apart (hadmits e' he').keepsRoot hf'.keepsRoot hij

end

end Node

/-! ## The list of children at a path -/

namespace Edit

/-- The path of the node that an edit changes: its children, its text, its attributes or all of
it. -/
def site : Edit → NodePath
  | insert parent _ _ => parent
  | remove path => path.dropLast
  | replace path _ => path
  | updateAttributes path _ _ => path
  | updateText path _ => path
  | move source _ _ => source.dropLast

/-- An edit inside a child of the node at a path. -/
def IsInside (p : NodePath) (e : Edit) : Prop := ∃ i, p.child i <+: e.site

/-- An insertion into the children of the node at a path, or a move from or to them. -/
def PlacesAt (p : NodePath) : Edit → Prop
  | insert parent _ _ => parent = p
  | move source parent _ => source.dropLast = p ∨ parent = p
  | _ => False

/-- Two edits in the order that a list of children asks for. -/
structure InOrder (p : NodePath) (e f : Edit) : Prop where
  /-- Removals take the last child first. -/
  descending : ∀ i j, e = .remove (p.child i) → f = .remove (p.child j) → j < i
  /-- Nothing is changed inside a child once any child is removed. -/
  inside : f.IsInside p → ∀ i, e ≠ .remove (p.child i)
  /-- No child is removed once any child is inserted or moved. -/
  placed : e.PlacesAt p → ∀ i, f ≠ .remove (p.child i)

variable {e f : Edit} {i : Nat} {p : NodePath}

theorem KeepsRoot.site_under (he : e.KeepsRoot) : (e.under [i]).site = i :: e.site := by
  cases e with
  | insert | replace | updateAttributes | updateText => rfl
  | remove => exact List.dropLast_cons_of_ne_nil he
  | move => exact List.dropLast_cons_of_ne_nil he

theorem KeepsRoot.eq_of_under_eq_remove (he : e.KeepsRoot) {k : Nat}
    (h : e.under [i] = .remove (p.child k)) :
    ∃ q : NodePath, p = i :: q ∧ e = .remove (q.child k) := by
  cases e with
  | remove path =>
    have hpath : i :: path = p ++ [k] := by simpa [under, NodePath.child] using h
    cases p with
    | nil => exact absurd (List.cons.inj hpath).2 he
    | cons j q =>
      obtain ⟨rfl, rfl⟩ := List.cons.inj hpath
      exact ⟨q, rfl, rfl⟩
  | insert | replace | updateAttributes | updateText | move => cases h

theorem IsInside.of_under (he : e.KeepsRoot) {j : Nat} (h : (e.under [i]).IsInside (j :: p)) :
    i = j ∧ e.IsInside p := by
  obtain ⟨k, hk⟩ := h
  rw [he.site_under] at hk
  obtain ⟨hij, hprefix⟩ := List.cons_prefix_cons.1 hk
  exact ⟨hij.symm, k, hprefix⟩

theorem PlacesAt.of_under (he : e.KeepsRoot) {j : Nat} (h : (e.under [i]).PlacesAt (j :: p)) :
    i = j ∧ e.PlacesAt p := by
  cases e with
  | insert parent =>
    obtain ⟨rfl, rfl⟩ := List.cons.inj (show i :: parent = j :: p from h)
    exact ⟨rfl, rfl⟩
  | move source parent k =>
    have h : (i :: source).dropLast = j :: p ∨ i :: parent = j :: p := h
    rw [List.dropLast_cons_of_ne_nil he] at h
    obtain h | h := h
    · obtain ⟨rfl, hp⟩ := List.cons.inj h
      exact ⟨rfl, .inl hp⟩
    · obtain ⟨rfl, hp⟩ := List.cons.inj h
      exact ⟨rfl, .inr hp⟩
  | remove | replace | updateAttributes | updateText => cases h

theorem Places.not_isInside (he : e.Places) : ¬ e.IsInside p := by
  rintro ⟨k, hk⟩
  have hsite : e.site = [] := by cases he <;> rfl
  rw [hsite] at hk
  exact List.append_ne_nil_of_right_ne_nil _ (List.cons_ne_nil _ _) (List.prefix_nil.1 hk)

theorem Places.ne_remove (he : e.Places) (q : NodePath) : e ≠ .remove q := by
  cases he <;> nofun

theorem not_isInside_remove {k : Nat} : ¬ (Edit.remove [k]).IsInside p := by
  rintro ⟨j, hj⟩
  exact List.append_ne_nil_of_right_ne_nil _ (List.cons_ne_nil _ _) (List.prefix_nil.1 hj)

/-- **What the order of a difference says of the list of children at any path.** -/
theorem Before.inOrder (h : e.Before f) (p : NodePath) : InOrder p e f := by
  induction h generalizing p with
  | attributes => exact ⟨nofun, fun _ => nofun, nofun⟩
  | @inside i e f he hf _ ih =>
    refine ⟨fun k l hk hl => ?_, fun hin k hk => ?_, fun hp k hk => ?_⟩
    · obtain ⟨q, rfl, hek⟩ := he.eq_of_under_eq_remove hk
      obtain ⟨_, hq, hfl⟩ := hf.eq_of_under_eq_remove hl
      cases hq
      exact (ih q).descending k l hek hfl
    · obtain ⟨q, rfl, hek⟩ := he.eq_of_under_eq_remove hk
      exact (ih q).inside (hin.of_under hf).2 k hek
    · obtain ⟨q, rfl, hfk⟩ := hf.eq_of_under_eq_remove hk
      exact (ih q).placed (hp.of_under he).2 k hfk
  | @apart i j e f he hf hij =>
    refine ⟨fun k l hk hl => ?_, fun hin k hk => ?_, fun hp k hk => ?_⟩
    · obtain ⟨q, rfl, -⟩ := he.eq_of_under_eq_remove hk
      obtain ⟨_, hq, -⟩ := hf.eq_of_under_eq_remove hl
      cases hq
      exact absurd rfl hij
    · obtain ⟨q, rfl, -⟩ := he.eq_of_under_eq_remove hk
      exact hij (hin.of_under hf).1.symm
    · obtain ⟨q, rfl, -⟩ := hf.eq_of_under_eq_remove hk
      exact hij (hp.of_under he).1
  | @removed i j e he =>
    refine ⟨fun k l hk hl => ?_, fun hin => (not_isInside_remove hin).elim, fun hp k hk => ?_⟩
    · obtain ⟨q, rfl, -⟩ := he.eq_of_under_eq_remove hk
      simp [NodePath.child] at hl
    · have hp' : [j] = p ++ [k] := by simpa [NodePath.child] using hk
      cases p with
      | nil =>
        cases e with
        | insert parent => exact List.cons_ne_nil _ _ (show i :: parent = [] from hp)
        | move source parent n =>
          obtain h | h := show (i :: source).dropLast = [] ∨ i :: parent = [] from hp
          · rw [List.dropLast_cons_of_ne_nil he] at h
            exact List.cons_ne_nil _ _ h
          · exact List.cons_ne_nil _ _ h
        | remove | replace | updateAttributes | updateText => cases hp
      | cons => simp at hp'
  | placed _ hf =>
    exact ⟨fun _ l _ hl => (hf.ne_remove _ hl).elim, fun hin => (hf.not_isInside hin).elim,
      fun _ k => hf.ne_remove _⟩
  | @removals i j hij =>
    refine ⟨fun k l hk hl => ?_, fun hin => (not_isInside_remove hin).elim, nofun⟩
    have hk : [i] = p ++ [k] := by simpa [NodePath.child] using hk
    have hl : [j] = p ++ [l] := by simpa [NodePath.child] using hl
    cases p with
    | nil =>
      cases hk
      cases hl
      exact hij
    | cons => simp at hk
  | placedRemoved hf =>
    exact ⟨fun _ l _ hl => (hf.ne_remove _ hl).elim, fun hin => (hf.not_isInside hin).elim, nofun⟩
  | placements he hf =>
    exact ⟨fun k _ hk => (he.ne_remove _ hk).elim, fun hin => (hf.not_isInside hin).elim,
      fun _ k => hf.ne_remove _⟩

end Edit

/-- **Within any list of children, a difference makes the changes inside the children first, then
removes children, the last one first, and then inserts and moves.** -/
theorem Node.inOrder_diff (old new : Node) (p : NodePath) :
    (diff old new).Pairwise (Edit.InOrder p) :=
  (admits_and_before_diff old new).2.imp fun h => h.inOrder p

end MarkupSync
