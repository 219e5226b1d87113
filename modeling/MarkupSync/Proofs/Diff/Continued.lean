import MarkupSync.Proofs.Diff.Order

/-!
# Nodes that a difference keeps

* `Node.continued?`: the path of the old node that a new node continues;
* `Node.sublist_diff`: what a difference changes inside a node that it keeps is the difference to the
  node that continues it;
* `Edit.placedIn?`: the node among whose children an edit puts another one;
* `Node.childEdits`, `Node.diffMatched_eq_flatMap`: the edits inside each of the matched children;
* `Node.flatMap_childEdits`: what only concerns one old child is found in its edits;
* **`Node.placedIn_diff`**: a difference puts nodes among the children of an element that it keeps
  just as the placements of these children say.
-/

namespace MarkupSync

namespace Node

/-- The path of the old node that the new node at a path continues. Roots belong together if they are
texts or elements of one tag, and so do their matched children. -/
def continued? (old new : Node) : NodePath → Option NodePath
  | [] => if old.tag? = new.tag? then some [] else none
  | j :: path =>
    if old.tag? = new.tag? then
      match (matching (Tree.children old) (Tree.children new))[j]?, (Tree.children new)[j]? with
      | some (some i), some n =>
        (Tree.children old)[i]?.bind fun o => (continued? o n path).map (i :: ·)
      | _, _ => none
    else none

variable {old new : Node} {p q : NodePath} {i j : Nat}

theorem continued?_nil (h : continued? old new [] = some p) : old.tag? = new.tag? ∧ p = [] := by
  rw [continued?] at h
  split_ifs at h with htag
  exact ⟨htag, (Option.some.inj h).symm⟩

theorem exists_of_continued?_cons (h : continued? old new (j :: q) = some p) :
    ∃ tag as st cs bs rt ds i o n r, old = .element tag as st cs ∧ new = .element tag bs rt ds ∧
      (matching cs ds)[j]? = some (some i) ∧ cs[i]? = some o ∧ ds[j]? = some n ∧
      continued? o n q = some r ∧ p = i :: r := by
  rw [continued?] at h
  split_ifs at h with htag
  split at h
  next i n hm hn =>
    obtain ⟨o, ho, hr⟩ := Option.bind_eq_some_iff.1 h
    obtain ⟨r, hor, rfl⟩ := Option.map_eq_some_iff.1 hr
    cases old with
    | text => cases ho
    | element tag as st cs =>
      cases new with
      | text => cases hn
      | element _ bs rt ds =>
        cases htag
        exact ⟨tag, as, st, cs, bs, rt, ds, i, o, n, r, rfl, rfl, hm, ho, hn, hor, rfl⟩
  next => cases h

/-- Nodes that belong together are texts or elements of one tag. -/
theorem tag?_eq_of_continued? (h : continued? old new q = some p) {o n : Node}
    (ho : Tree.descend old p = some o) (hn : Tree.descend new q = some n) : o.tag? = n.tag? := by
  induction q generalizing old new p with
  | nil =>
    obtain ⟨htag, rfl⟩ := continued?_nil h
    cases ho
    cases hn
    exact htag
  | cons j q ih =>
    obtain ⟨tag, as, st, cs, bs, rt, ds, i, c, d, r, rfl, rfl, -, hc, hd, hr, rfl⟩ :=
      exists_of_continued?_cons h
    rw [Tree.descend_child (c := c) hc] at ho
    rw [Tree.descend_child (c := d) hd] at hn
    exact ih hr ho hn

/-- The edits inside a matched child are among those inside all matched children. -/
theorem sublist_diffMatched {path : NodePath} {cs : List Node} {sources : List (Option Nat)}
    {ns : List Node} {o n : Node} (hm : sources[j]? = some (some i)) (ho : cs[i]? = some o)
    (hn : ns[j]? = some n) :
    (diffAt (path.child i) o n).Sublist (diffMatched path cs sources ns) := by
  induction ns generalizing sources j with
  | nil => cases hn
  | cons m ns ih =>
    cases sources with
    | nil => cases hm
    | cons source sources =>
      simp only [diffMatched]
      cases j with
      | zero =>
        cases hm
        cases hn
        simp only [ho]
        exact List.sublist_append_left _ _
      | succ j => exact (ih (j := j) hm hn).trans (List.sublist_append_right _ _)

/-- **What a difference changes inside a node that it keeps** is the difference to the node that
continues it. -/
theorem sublist_diff (h : continued? old new q = some p) {o n : Node}
    (ho : Tree.descend old p = some o) (hn : Tree.descend new q = some n) :
    ((diff o n).map (Edit.under p)).Sublist (diff old new) := by
  induction q generalizing old new p with
  | nil =>
    obtain ⟨-, rfl⟩ := continued?_nil h
    cases ho
    cases hn
    simp [funext Edit.under_nil]
  | cons j q ih =>
    obtain ⟨tag, as, st, cs, bs, rt, ds, i, c, d, r, rfl, rfl, hm, hc, hd, hr, rfl⟩ :=
      exists_of_continued?_cons h
    obtain ⟨c', hc', hco⟩ := Option.bind_eq_some_iff.1 ho
    obtain ⟨d', hd', hdn⟩ := Option.bind_eq_some_iff.1 hn
    obtain rfl := Option.some.inj (hc.symm.trans hc')
    obtain rfl := Option.some.inj (hd.symm.trans hd')
    have hsub := ih hr hco hdn
    have hunder : (diff o n).map (Edit.under (i :: r)) =
        ((diff o n).map (Edit.under r)).map (Edit.under [i]) := by simp
    have hmatched : (diffAt (NodePath.child [] i) c d).Sublist
        (diffMatched [] cs (matching cs ds) ds) := sublist_diffMatched hm hc hd
    rw [diffAt_eq_map_under] at hmatched
    rw [hunder]
    simp only [diff, diffAt, if_true] at hsub hmatched ⊢
    exact ((hsub.map _).trans hmatched).trans
      ((List.sublist_append_right _ _).trans (List.sublist_append_left _ _))

end Node

/-! ## Edits that put nodes among children -/

namespace Edit

/-- The path of the node among whose children an edit puts a node. -/
def placedIn? : Edit → Option NodePath
  | insert parent _ _ => some parent
  | move _ parent _ => some parent
  | remove _ | replace .. | updateAttributes .. | updateText .. => none

/-- The edits that put nodes among the children of the node at a path. -/
def placedIn (p : NodePath) (es : List Edit) : List Edit := es.filter (·.placedIn? == some p)

variable {p : NodePath} {i j : Nat} {e : Edit} {es : List Edit}

theorem placedIn?_under (q : NodePath) (e : Edit) :
    (e.under q).placedIn? = e.placedIn?.map (q ++ ·) := by
  cases e <;> rfl

theorem placedIn_append (p : NodePath) (es fs : List Edit) :
    placedIn p (es ++ fs) = placedIn p es ++ placedIn p fs := List.filter_append _ _

theorem placedIn_eq_nil (h : ∀ e ∈ es, e.placedIn? ≠ some p) : placedIn p es = [] :=
  List.filter_eq_nil_iff.2 fun e he => by simpa using h e he

theorem placedIn_eq_self (h : ∀ e ∈ es, e.placedIn? = some p) : placedIn p es = es :=
  List.filter_eq_self.2 fun e he => by simpa using h e he

theorem placedIn_cons_map_under (i : Nat) (p : NodePath) (es : List Edit) :
    placedIn (i :: p) (es.map (under [i])) = (placedIn p es).map (under [i]) := by
  rw [placedIn, placedIn, List.filter_map]
  congr 2
  funext e
  rw [Function.comp_apply, placedIn?_under]
  cases e.placedIn? <;> simp

/-- Edits inside a child put nothing among the children of nodes that are not in it. -/
theorem placedIn_map_under (hp : ∀ q, p ≠ i :: q) : placedIn p (es.map (under [i])) = [] := by
  refine placedIn_eq_nil fun e he h => ?_
  obtain ⟨e', -, rfl⟩ := List.mem_map.1 he
  rw [placedIn?_under] at h
  obtain ⟨q, -, hq⟩ := Option.map_eq_some_iff.1 h
  exact hp q hq.symm

theorem Places.placedIn? (h : e.Places) : e.placedIn? = some [] := by
  cases h <;> rfl

end Edit

/-! ## The edits inside children -/

/-- A list of which all but one item give nothing. -/
theorem flatMap_eq_of_getElem? {α β : Type} {f : α → List β} {l : List α} {j : Nat} {x : α}
    (hx : l[j]? = some x) (h : ∀ k y, l[k]? = some y → k ≠ j → f y = []) : l.flatMap f = f x := by
  induction l generalizing j with
  | nil => cases hx
  | cons y l ih =>
    rw [List.flatMap_cons]
    cases j with
    | zero =>
      cases hx
      have hrest : l.flatMap f = [] := by
        rw [List.flatMap_eq_nil_iff]
        intro y hy
        obtain ⟨k, hk⟩ := List.mem_iff_getElem?.1 hy
        exact h (k + 1) y hk (Nat.succ_ne_zero k)
      rw [hrest, List.append_nil]
    | succ j =>
      rw [h 0 y rfl (Nat.succ_ne_zero j).symm, List.nil_append]
      exact ih hx fun k y hk hkj => h (k + 1) y hk fun hkj' => hkj (Nat.succ.inj hkj')

namespace Node

/-- The edits inside the old child that a new child continues. -/
def childEdits (cs : List Node) (source : Option Nat) (n : Node) : List Edit :=
  match source with
  | none => []
  | some i =>
    match cs[i]? with
    | none => []
    | some c => (diff c n).map (Edit.under [i])

theorem childEdits_some {cs : List Node} {i : Nat} {c : Node} (hc : cs[i]? = some c) (n : Node) :
    childEdits cs (some i) n = (diff c n).map (Edit.under [i]) := by
  simp only [childEdits, hc]

theorem childEdits_cases (cs : List Node) (source : Option Nat) (n : Node) :
    childEdits cs source n = [] ∨ ∃ i c, source = some i ∧ cs[i]? = some c ∧
      childEdits cs source n = (diff c n).map (Edit.under [i]) := by
  cases source with
  | none => exact .inl rfl
  | some i =>
    cases hc : cs[i]? with
    | none => exact .inl (by simp only [childEdits, hc])
    | some c => exact .inr ⟨i, c, rfl, hc, childEdits_some hc n⟩

theorem diffMatched_eq_append (cs : List Node) (source : Option Nat) (sources : List (Option Nat))
    (n : Node) (ns : List Node) : diffMatched [] cs (source :: sources) (n :: ns) =
      childEdits cs source n ++ diffMatched [] cs sources ns := by
  cases source with
  | none => rfl
  | some i =>
    cases hc : cs[i]? with
    | none => simp only [diffMatched, childEdits, hc]
    | some c => rw [childEdits_some hc, diffMatched_some hc]

theorem diffMatched_eq_flatMap (cs : List Node) (sources : List (Option Nat)) (ns : List Node) :
    diffMatched [] cs sources ns = (sources.zip ns).flatMap fun x => childEdits cs x.1 x.2 := by
  induction ns generalizing sources with
  | nil => cases sources <;> rfl
  | cons n ns ih =>
    cases sources with
    | nil => rfl
    | cons source sources =>
      rw [diffMatched_eq_append, ih, List.zip_cons_cons, List.flatMap_cons]

/-- What is nothing in the edits of all old children but one is found in the edits of this one. -/
theorem flatMap_childEdits {β : Type} {f : Option Nat × Node → List β} {sources : List (Option Nat)}
    (hd : (sources.filterMap id).Nodup) {ns : List Node} {i j : Nat} {n : Node}
    (hm : sources[j]? = some (some i)) (hn : ns[j]? = some n)
    (hf : ∀ source m, source ≠ some i → f (source, m) = []) :
    (sources.zip ns).flatMap f = f (some i, n) := by
  refine flatMap_eq_of_getElem? (List.getElem?_zip_eq_some.2 ⟨hm, hn⟩) fun k y hk hkj => ?_
  obtain ⟨source, m⟩ := y
  refine hf source m fun hsource => hkj ?_
  subst hsource
  exact index_unique hd (List.getElem?_zip_eq_some.1 hk).1 hm rfl rfl

/-! ## Whole differences -/

variable {old new : Node} {p q : NodePath} {tag tag' : Text} {as st bs rt : Attrs}
  {cs ds : List Node}

/-- The edits of two elements with one tag. -/
theorem diff_element : diff (.element tag as st cs) (.element tag bs rt ds) =
    attributeEdits [] (.between as bs) (.between st rt) ++
      ((matching cs ds).zip ds).flatMap (fun x => childEdits cs x.1 x.2) ++
      (removals [] (matching cs ds) cs.length ++
        placements [] (longestRise (newOrder (matching cs ds) cs.length)) none
          ((survivors (matching cs ds) cs.length).map .kept) (targets (matching cs ds) ds).reverse) := by
  rw [diff, diffAt, if_pos rfl, ← diffMatched_eq_flatMap]
  rfl

theorem placedIn_attributeEdits (attributes style : Delta) :
    Edit.placedIn p (attributeEdits [] attributes style) = [] :=
  Edit.placedIn_eq_nil fun e he => by rw [eq_of_mem_attributeEdits he]; exact nofun

theorem placedIn_removals (matched : List (Option Nat)) (count : Nat) :
    Edit.placedIn p (removals [] matched count) = [] := by
  refine Edit.placedIn_eq_nil fun e he => ?_
  obtain ⟨i, rfl⟩ := exists_of_mem_removals he
  exact nofun

/-- **A difference puts nodes among the children of an element that it keeps as the placements of
these children say.** -/
theorem placedIn_diff (h : continued? old new q = some p)
    (ho : Tree.descend old p = some (.element tag as st cs))
    (hn : Tree.descend new q = some (.element tag' bs rt ds)) :
    Edit.placedIn p (diff old new) =
      (placements [] (longestRise (newOrder (matching cs ds) cs.length)) none
        ((survivors (matching cs ds) cs.length).map .kept)
        (targets (matching cs ds) ds).reverse).map (Edit.under p) := by
  induction q generalizing old new p with
  | nil =>
    obtain ⟨htag, rfl⟩ := continued?_nil h
    cases ho
    cases hn
    cases htag
    have hinside : Edit.placedIn [] (((matching cs ds).zip ds).flatMap fun x =>
        childEdits cs x.1 x.2) = [] := by
      refine Edit.placedIn_eq_nil fun e he hplaced => ?_
      obtain ⟨x, -, he⟩ := List.mem_flatMap.1 he
      obtain hnil | ⟨i, c, -, -, hc⟩ := childEdits_cases cs x.1 x.2
      · rw [hnil] at he
        cases he
      · rw [hc] at he
        have hnone : Edit.placedIn [] ((diff c x.2).map (Edit.under [i])) = [] :=
          Edit.placedIn_map_under nofun
        rw [Edit.placedIn, List.filter_eq_nil_iff] at hnone
        exact hnone e he (by rw [hplaced]; rfl)
    rw [diff_element, Edit.placedIn_append, Edit.placedIn_append, Edit.placedIn_append,
      placedIn_attributeEdits, hinside, placedIn_removals,
      Edit.placedIn_eq_self fun e he => (places_of_mem_placements he).placedIn?]
    simp [funext Edit.under_nil]
  | cons j q ih =>
    obtain ⟨tag₀, as₀, st₀, cs₀, bs₀, rt₀, ds₀, i, c, d, r, rfl, rfl, hm, hc, hd, hr, rfl⟩ :=
      exists_of_continued?_cons h
    obtain ⟨c', hc', hco⟩ := Option.bind_eq_some_iff.1 ho
    obtain ⟨d', hd', hdn⟩ := Option.bind_eq_some_iff.1 hn
    obtain rfl := Option.some.inj (hc.symm.trans hc')
    obtain rfl := Option.some.inj (hd.symm.trans hd')
    -- only the edits inside the child on the way count
    have hinside : Edit.placedIn (i :: r) (((matching cs₀ ds₀).zip ds₀).flatMap fun x =>
        childEdits cs₀ x.1 x.2) = (Edit.placedIn r (diff c d)).map (Edit.under [i]) := by
      have hother : ∀ source m, source ≠ some i →
          Edit.placedIn (i :: r) (childEdits cs₀ source m) = [] := fun source m hsource => by
        obtain hnil | ⟨k, c', rfl, -, hc'⟩ := childEdits_cases cs₀ source m
        · rw [hnil]
          rfl
        · rw [hc']
          exact Edit.placedIn_map_under fun q hq => hsource (by rw [(List.cons.inj hq).1])
      rw [Edit.placedIn, List.filter_flatMap]
      refine (flatMap_childEdits (nodup_matching cs₀ ds₀) hm hd hother).trans ?_
      show Edit.placedIn (i :: r) (childEdits cs₀ (some i) d) = _
      rw [childEdits_some hc, Edit.placedIn_cons_map_under]
    have hplaced : Edit.placedIn (i :: r) (placements []
        (longestRise (newOrder (matching cs₀ ds₀) cs₀.length)) none
        ((survivors (matching cs₀ ds₀) cs₀.length).map .kept)
        (targets (matching cs₀ ds₀) ds₀).reverse) = [] :=
      Edit.placedIn_eq_nil fun e he => by
        rw [(places_of_mem_placements he).placedIn?]
        exact nofun
    rw [diff_element, Edit.placedIn_append, Edit.placedIn_append, Edit.placedIn_append,
      placedIn_attributeEdits, hinside, placedIn_removals, hplaced, ih hr hco hdn]
    simp

end Node

/-- The first step on the way to a node that continues another one, with the children that have
origins. -/
theorem Shadow.exists_of_continued?_cons {s : Shadow} {new : Node} {p q : NodePath} {j : Nat}
    (h : s.toNode.continued? new (j :: q) = some p) :
    ∃ o tag as st cs bs rt ds i c n r, s = .element o tag as st cs ∧ new = .element tag bs rt ds ∧
      (matching (toNodes cs) ds)[j]? = some (some i) ∧ cs[i]? = some c ∧ ds[j]? = some n ∧
      c.toNode.continued? n q = some r ∧ p = i :: r := by
  obtain ⟨tag, as, st, ms, bs, rt, ds, i, m, n, r, hnode, rfl, hm, hget, hn, hr, rfl⟩ :=
    Node.exists_of_continued?_cons h
  cases s with
  | text => cases hnode
  | element o tag as st cs =>
    cases hnode
    rw [toNodes_eq_map, List.getElem?_map] at hget
    obtain ⟨c, hc, rfl⟩ := Option.map_eq_some_iff.1 hget
    exact ⟨o, tag, as, st, cs, bs, rt, ds, i, c, n, r, rfl, rfl, hm, hc, hn, hr, rfl⟩

end MarkupSync
