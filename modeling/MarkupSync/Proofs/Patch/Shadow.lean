import MarkupSync.Proofs.Patch.Markup
import MarkupSync.Proofs.Patch.Origin

/-!
# Documents with origins stand for documents

* `Shadow.isMap_toNode`: the document has the children of the document with origins;
* `Shadow.toNode_edit`, `Shadow.toNode_applyAll`: an edit, and edits in order;
* `Shadow.HasKind`: a node is of the kind of its origin;
* `Shadow.origins`: the origins of all nodes. `Shadow.subperm_edit`: an edit adds and doubles none;
* `Shadow.HasOwnOrigins.eq_of_origin`: nodes with different origins;
* `Shadow.nodup_ofSource`: the origins of a source document are all different;
* **`Shadow.applyAll_ofDocument`**: edits of a parsed document with origins succeed when they do on
  the document, with the same result; its nodes have origins of their own, of their kinds and tags.
-/

namespace MarkupSync

namespace Shadow

/-! ## The document under edit -/

theorem isMap_toNode : Tree.IsMap toNode where
  children? s := by
    cases s with
    | text => rfl
    | element => exact congrArg some (toNodes_eq_map _)
  withChildren ss s := by
    cases s with
    | text => rfl
    | element => exact congrArg (Node.element _ _ _) (toNodes_eq_map ss)

/-- **An edit of a document with origins is the edit of the document.** -/
theorem toNode_edit (s : Shadow) (e : Edit) :
    (s.toNode.apply e).result = (s.edit e).map toNode := by
  cases e with
  | insert p k n =>
    have := isMap_toNode.insertAt s p k (fresh n)
    rw [toNode_fresh] at this
    rw [Node.apply, Outcome.result_ofExcept, this]
    rfl
  | remove p =>
    rw [Node.apply, Outcome.result_ofExcept, isMap_toNode.detach, edit]
    cases Tree.detach s p <;> rfl
  | replace p n =>
    rw [Node.apply, Outcome.result_ofExcept]
    exact isMap_toNode.updateAt (g := fun _ => .ok (fresh n)) (h := fun _ => .ok n)
      (fun _ => congrArg Except.ok (toNode_fresh n).symm) s p
  | updateAttributes p a b =>
    rw [Node.apply, Outcome.result_ofExcept]
    exact isMap_toNode.updateAt (fun t => by cases t <;> rfl) s p
  | updateText p content =>
    rw [Node.apply, Outcome.result_ofExcept]
    exact isMap_toNode.updateAt (fun t => by cases t <;> rfl) s p
  | move p q k =>
    rw [Node.apply, isMap_toNode.move, edit, Outcome.result, Outcome.result]
    cases (Tree.move s p q k).error <;> rfl

/-- Edits of a document with origins fail when the edits of the document do, and lead to the same
document otherwise. -/
theorem toNode_applyAll (s : Shadow) (es : List Edit) :
    (s.toNode.applyAll es).result.toOption = (s.applyAll es).toOption.map toNode := by
  induction es generalizing s with
  | nil => rfl
  | cons e es ih =>
    have hstep := toNode_edit s e
    rw [Node.applyAll, Outcome.run, Outcome.andThen, applyAll, apply]
    rw [Outcome.result] at hstep
    cases he : s.edit e with
    | error f =>
      rw [he] at hstep
      split at hstep
      next => cases hstep
      next g hg =>
        simp only [hg, Outcome.result]
        rfl
    | ok t =>
      rw [he] at hstep
      split at hstep
      next hnone =>
        simp only [Except.ok.inj hstep]
        exact ih t
      next => cases hstep

/-! ## Kinds of nodes -/

/-- The origin of a node, if it has any, is an element of the same tag, or a text like the node. -/
def HasKind (s : Shadow) : Prop := ∀ o ∈ s.origin, o.node.tag? = s.toNode.tag?

variable {s t n : Shadow}

theorem hereditary_hasKind : Tree.Hereditary (Tree.Throughout HasKind) :=
  Tree.hereditary_throughout (fun t ns h => by cases t <;> exact h)
    (fun t ns h => by
      cases t with
      | text => rfl
      | element => cases h)

mutual

theorem hasKind_fresh (n : Node) : Tree.Throughout HasKind (fresh n) := by
  cases n with
  | text => exact Tree.throughout_iff.2 ⟨nofun, nofun⟩
  | element tag as st cs => exact Tree.throughout_iff.2 ⟨nofun, hasKind_freshAll cs⟩

theorem hasKind_freshAll (ns : List Node) : ∀ c ∈ freshAll ns, Tree.Throughout HasKind c := by
  cases ns with
  | nil => exact nofun
  | cons n ns => exact List.forall_mem_cons.2 ⟨hasKind_fresh n, hasKind_freshAll ns⟩

end

theorem hasKind_revises (h : t.Revises s) (hs : Tree.Throughout HasKind s) :
    Tree.Throughout HasKind t := by
  obtain ⟨hkind, hcs⟩ := Tree.throughout_iff.1 hs
  refine Tree.throughout_iff.2 ⟨fun o ho => ?_, h.children ▸ hcs⟩
  rw [h.tag?]
  exact hkind o (h.origin ▸ ho)

theorem hasKind_ofSource {x : Node × Place} (hx : Fits x) (path : NodePath) :
    Tree.Throughout HasKind (ofSource path x.2 x.1) := by
  induction hx generalizing path with
  | text =>
    refine Tree.throughout_iff.2 ⟨?_, nofun⟩
    rintro _ ⟨⟩
    rfl
  | @element tag as st place l _ ih =>
    refine Tree.throughout_iff.2 ⟨?_, fun c hc => ?_⟩
    · rintro _ ⟨⟩
      rfl
    · obtain ⟨i, y, hy, rfl⟩ := Fits.exists_of_mem_ofSources hc
      exact ih y (List.mem_of_getElem? hy) _

/-! ## Origins -/

mutual

/-- The origins of all nodes in the order of the document. -/
def origins : Shadow → List Origin
  | .text origin _ => origin.toList
  | .element origin _ _ _ children => origin.toList ++ allOrigins children

/-- The origins of all nodes of trees in the order of the document. -/
def allOrigins : List Shadow → List Origin
  | [] => []
  | s :: ss => origins s ++ allOrigins ss

end

theorem allOrigins_eq (ss : List Shadow) : allOrigins ss = ss.flatMap origins := by
  induction ss with
  | nil => rfl
  | cons s ss ih => rw [allOrigins, ih, List.flatMap_cons]

theorem origins_eq (s : Shadow) :
    s.origins = s.origin.toList ++ (Tree.children s).flatMap origins := by
  cases s with
  | text => exact (List.append_nil _).symm
  | element => exact congrArg _ (allOrigins_eq _)

theorem origins_withChildren {ss : List Shadow} (h : (Tree.children? s).isSome) :
    (Tree.withChildren ss s).origins = s.origin.toList ++ ss.flatMap origins := by
  cases s with
  | text => cases h
  | element => exact congrArg _ (allOrigins_eq _)

mutual

theorem origins_fresh (n : Node) : (fresh n).origins = [] := by
  cases n with
  | text => rfl
  | element tag as st cs => exact allOrigins_freshAll cs

theorem allOrigins_freshAll (ns : List Node) : allOrigins (freshAll ns) = [] := by
  cases ns with
  | nil => rfl
  | cons n ns => rw [freshAll, allOrigins, origins_fresh, allOrigins_freshAll]; rfl

end

variable {p q : NodePath} {x y : Shadow} {k : Nat}

/-- Whatever becomes of the node at a path, the origins around it stay. -/
theorem exists_perm_of_descend (h : Tree.descend s p = some x) :
    ∃ around, s.origins.Perm (x.origins ++ around) ∧
      ∀ f, (Tree.modifyAt f p s).origins.Perm ((f x).origins ++ around) := by
  induction p generalizing s with
  | nil =>
    cases h
    exact ⟨[], by rw [List.append_nil], fun f => by rw [List.append_nil, Tree.modifyAt]⟩
  | cons i p ih =>
    obtain ⟨c, hc, hcx⟩ := Option.bind_eq_some_iff.1 h
    obtain ⟨around, hperm, hmodify⟩ := ih hcx
    obtain ⟨hi, rfl⟩ := List.getElem?_eq_some_iff.1 hc
    -- the origins of the node itself and of the other children
    have hsplit : ∀ c, (s.origin.toList ++ ((Tree.children s).set i c).flatMap origins).Perm
        (c.origins ++ (s.origin.toList ++ ((Tree.children s).eraseIdx i).flatMap origins)) :=
      fun c => by
        refine (((List.set_perm_cons_eraseIdx hi c).flatMap_right origins).append_left _).trans ?_
        rw [List.flatMap_cons, ← List.append_assoc, ← List.append_assoc]
        exact List.perm_append_comm.append_right _
    refine ⟨around ++ (s.origin.toList ++ ((Tree.children s).eraseIdx i).flatMap origins), ?_,
      fun f => ?_⟩
    · have := hsplit (Tree.children s)[i]
      rw [List.set_getElem_self, ← origins_eq] at this
      refine this.trans ?_
      rw [← List.append_assoc x.origins]
      exact hperm.append_right _
    · rw [Tree.modifyAt_child f hc, Tree.setChild,
        origins_withChildren (Tree.isSome_children?_of_child hc)]
      refine (hsplit _).trans ?_
      rw [← List.append_assoc (f x).origins]
      exact (hmodify f).append_right _

/-- Another list of children at a path: the origins in it take the place of those in the old one. -/
theorem exists_perm_of_childrenAt {ns : List Shadow} (h : Tree.childrenAt s p = .ok ns) :
    ∃ around, s.origins.Perm (ns.flatMap origins ++ around) ∧
      ∀ ms, (Tree.modifyAt (Tree.withChildren ms) p s).origins.Perm
        (ms.flatMap origins ++ around) := by
  rw [Tree.childrenAt] at h
  split at h
  · cases h
  next x hx =>
    split at h
    · cases h
    next ns hns =>
      cases h
      obtain ⟨around, hperm, hmodify⟩ := exists_perm_of_descend hx
      have hchildren : Tree.children x = ns := by rw [Tree.children, hns]; rfl
      have hswap : ∀ ms : List Shadow, (x.origin.toList ++ ms.flatMap origins ++ around).Perm
          (ms.flatMap origins ++ (x.origin.toList ++ around)) := fun ms => by
        rw [← List.append_assoc]
        exact List.perm_append_comm.append_right _
      refine ⟨x.origin.toList ++ around, ?_, fun ms => ?_⟩
      · rw [origins_eq x, hchildren] at hperm
        exact hperm.trans (hswap ns)
      · have := hmodify (Tree.withChildren ms)
        rw [origins_withChildren (by rw [hns]; rfl)] at this
        exact this.trans (hswap ms)

theorem perm_insertAt (h : Tree.insertAt s p k n = .ok t) :
    t.origins.Perm (n.origins ++ s.origins) := by
  rw [Tree.insertAt] at h
  split at h
  · cases h
  next ns hns =>
    split at h
    · cases h
    next hk =>
      cases h
      obtain ⟨around, hperm, hmodify⟩ := exists_perm_of_childrenAt hns
      have hinsert := (List.perm_insertIdx n ns (Nat.not_lt.1 hk)).flatMap_right origins
      rw [List.flatMap_cons] at hinsert
      refine (hmodify _).trans ((hinsert.append_right _).trans ?_)
      rw [List.append_assoc]
      exact hperm.symm.append_left _

theorem perm_detach (h : Tree.detach s p = .ok (n, t)) :
    s.origins.Perm (n.origins ++ t.origins) := by
  rw [Tree.detach] at h
  split at h
  · cases h
  next slot hslot =>
    cases h
    rw [Tree.slot] at hslot
    split at hslot
    · cases hslot
    next hsplit =>
      split at hslot
      · cases hslot
      next ns hns =>
        split at hslot
        · cases hslot
        next c hc =>
          cases hslot
          obtain ⟨around, hperm, hmodify⟩ := exists_perm_of_childrenAt hns
          obtain ⟨hi, rfl⟩ := List.getElem?_eq_some_iff.1 hc
          have hcons := (List.getElem_cons_eraseIdx_perm hi).symm.flatMap_right origins
          rw [List.flatMap_cons] at hcons
          refine hperm.trans ((hcons.append_right _).trans ?_)
          rw [List.append_assoc]
          exact (hmodify _).symm.append_left _

theorem perm_move (h : Tree.move s p q k = ⟨t, none⟩) : t.origins.Perm s.origins := by
  rw [Tree.move] at h
  split at h
  · cases h
  next c rest hd =>
    exact (perm_insertAt (Markup.eq_ok_of_ofExcept h)).trans (perm_detach hd).symm

theorem Revises.origins (h : y.Revises x) : y.origins = x.origins := by
  rw [origins_eq, origins_eq, h.origin, h.children]

theorem subperm_updateAt {f : Shadow → Except EditFault Shadow}
    (hf : ∀ x y, f x = .ok y → y.origins.Subperm x.origins) (h : Tree.updateAt s p f = .ok t) :
    t.origins.Subperm s.origins := by
  rw [Tree.updateAt] at h
  split at h
  · cases h
  next x hx =>
    split at h
    · cases h
    next y hy =>
      cases h
      obtain ⟨around, hperm, hmodify⟩ := exists_perm_of_descend hx
      exact (hmodify _).subperm.trans
        (((List.subperm_append_right around).2 (hf x y hy)).trans hperm.symm.subperm)

/-- **An edit adds no origin and doubles none.** -/
theorem subperm_edit {e : Edit} (h : s.edit e = .ok t) : t.origins.Subperm s.origins := by
  cases e with
  | insert p k n =>
    have := perm_insertAt h
    rw [origins_fresh, List.nil_append] at this
    exact this.subperm
  | remove p =>
    obtain ⟨⟨n, rest⟩, hd, rfl⟩ := exists_of_map_eq_ok h
    exact (List.sublist_append_right ..).subperm.trans (perm_detach hd).symm.subperm
  | replace p n =>
    have hu : Tree.updateAt s p (fun _ => .ok (fresh n)) = .ok t := h
    refine subperm_updateAt (fun x y hy => ?_) hu
    cases hy
    rw [origins_fresh]
    exact List.nil_subperm
  | updateAttributes p a b =>
    have hu : Tree.updateAt s p (withDeltas a b) = .ok t := h
    exact subperm_updateAt (fun x y hy => by rw [(revises_of_withDeltas hy).origins]) hu
  | updateText p content =>
    have hu : Tree.updateAt s p (withContent content) = .ok t := h
    exact subperm_updateAt (fun x y hy => by rw [(revises_of_withContent hy).origins]) hu
  | move p q k =>
    refine (perm_move (p := p) (q := q) (k := k) ?_).subperm
    rw [edit, Outcome.result] at h
    split at h
    next hnone =>
      cases h
      exact congrArg (Outcome.mk _) hnone
    next => cases h

/-- Edits in order add no origin and double none. -/
theorem subperm_applyAll {es : List Edit} (h : s.applyAll es = .ok t) :
    t.origins.Subperm s.origins := by
  induction es generalizing s with
  | nil =>
    cases h
    exact List.Subperm.refl _
  | cons e es ih =>
    obtain ⟨u, hu, hus⟩ := exists_of_applyAll_cons h
    exact (ih hus).trans (subperm_edit hu)

theorem origins_ofSource_element {path : NodePath} {tag : Text} {as st : Attrs}
    {place : ElementPlace} {l : List (Node × Place)} :
    ((ofSource path (.element place (l.map Prod.snd))
        (.element tag as st (l.map Prod.fst))).origins.map Origin.path) =
      path :: l.zipIdx.flatMap fun y =>
        (ofSource (path.child y.2) y.1.2 y.1.1).origins.map Origin.path := by
  rw [ofSource, Place.children, Fits.ofSources_eq, origins, allOrigins_eq, List.flatMap_map,
    List.map_append, List.map_flatMap]
  rfl

/-- **The origins of a source document are at paths from its own on, all different.** -/
theorem nodup_ofSource {x : Node × Place} (hx : Fits x) (path : NodePath) :
    ((ofSource path x.2 x.1).origins.map Origin.path).Nodup ∧
      ∀ r ∈ (ofSource path x.2 x.1).origins.map Origin.path, path <+: r := by
  induction hx generalizing path with
  | text =>
    refine ⟨List.nodup_singleton _, fun r hr => ?_⟩
    cases List.mem_singleton.1 hr
    exact List.prefix_rfl
  | @element tag as st place l _ ih =>
    rw [origins_ofSource_element]
    have hchild : ∀ y ∈ l.zipIdx,
        ((ofSource (path.child y.2) y.1.2 y.1.1).origins.map Origin.path).Nodup ∧
          ∀ r ∈ (ofSource (path.child y.2) y.1.2 y.1.1).origins.map Origin.path,
            path.child y.2 <+: r :=
      fun y hy => ih y.1 (List.mem_of_getElem? (List.mem_zipIdx_iff_getElem?.1 hy)) _
    refine ⟨List.nodup_cons.2 ⟨fun hmem => ?_,
      List.nodup_flatMap.2 ⟨fun y hy => (hchild y hy).1, ?_⟩⟩,
      List.forall_mem_cons.2 ⟨List.prefix_rfl, fun r hr => ?_⟩⟩
    · obtain ⟨y, hy, hr⟩ := List.mem_flatMap.1 hmem
      have := ((hchild y hy).2 path hr).length_le
      rw [NodePath.child, List.length_append, List.length_singleton] at this
      omega
    · have hne : l.zipIdx.Pairwise fun y z => y.2 ≠ z.2 := by
        rw [← List.pairwise_map, List.zipIdx_map_snd]
        exact List.nodup_range' ..
      refine hne.imp_of_mem fun {y z} hy hz hyz r hry hrz => hyz ?_
      have hlength : (path.child y.2).length = (path.child z.2).length := by simp [NodePath.child]
      have hprefix := List.prefix_of_prefix_length_le ((hchild y hy).2 r hry)
        ((hchild z hz).2 r hrz) (Nat.le_of_eq hlength)
      exact path.child_injective (List.IsPrefix.eq_of_length hprefix hlength)
    · obtain ⟨y, hy, hr⟩ := List.mem_flatMap.1 hr
      exact (List.prefix_append ..).trans ((hchild y hy).2 r hr)

theorem path_mem_of_descend {o : Origin} (hx : Tree.descend s p = some x)
    (ho : x.origin = some o) : o.path ∈ s.origins.map Origin.path := by
  obtain ⟨around, hperm, -⟩ := exists_perm_of_descend hx
  refine List.mem_map_of_mem (hperm.mem_iff.2 (List.mem_append_left _ ?_))
  rw [origins_eq, ho]
  exact List.mem_cons_self

/-- The origins of all nodes are at different paths. -/
def HasOwnOrigins (s : Shadow) : Prop := (s.origins.map Origin.path).Nodup

theorem HasOwnOrigins.of_subperm (h : s.HasOwnOrigins) (hs : t.origins.Subperm s.origins) :
    t.HasOwnOrigins := by
  obtain ⟨l, hperm, hsub⟩ := hs
  exact (hperm.map _).nodup_iff.1 (h.sublist (hsub.map _))

theorem hasOwnOrigins_iff : s.HasOwnOrigins ↔
    (∀ o ∈ s.origin, ∀ c ∈ Tree.children s, o.path ∉ c.origins.map Origin.path) ∧
      (∀ c ∈ Tree.children s, c.HasOwnOrigins) ∧
      (Tree.children s).Pairwise fun c c' =>
        (c.origins.map Origin.path).Disjoint (c'.origins.map Origin.path) := by
  rw [HasOwnOrigins, origins_eq, List.map_append, List.map_flatMap, List.nodup_append',
    List.nodup_flatMap]
  cases s.origin with
  | none => simp [HasOwnOrigins]
  | some o => simp [HasOwnOrigins, and_comm, and_assoc]

/-- Nodes with the same origin are the same. -/
theorem HasOwnOrigins.eq_of_origin (h : s.HasOwnOrigins) {o o' : Origin}
    (hx : Tree.descend s p = some x) (hy : Tree.descend s q = some y) (ho : x.origin = some o)
    (ho' : y.origin = some o') (hpath : o.path = o'.path) : p = q := by
  induction p generalizing s q with
  | nil =>
    cases q with
    | nil => rfl
    | cons j q =>
      cases hx
      obtain ⟨c, hc, hcy⟩ := Option.bind_eq_some_iff.1 hy
      exact absurd (hpath ▸ path_mem_of_descend hcy ho')
        ((hasOwnOrigins_iff.1 h).1 o ho c (List.mem_of_getElem? hc))
  | cons i p ih =>
    obtain ⟨c, hc, hcx⟩ := Option.bind_eq_some_iff.1 hx
    obtain ⟨hroot, hchildren, hapart⟩ := hasOwnOrigins_iff.1 h
    cases q with
    | nil =>
      cases hy
      exact absurd (hpath ▸ path_mem_of_descend hcx ho)
        (hroot o' ho' c (List.mem_of_getElem? hc))
    | cons j q =>
      obtain ⟨c', hc', hcy⟩ := Option.bind_eq_some_iff.1 hy
      by_cases hij : i = j
      · subst hij
        obtain rfl := Option.some.inj (hc.symm.trans hc')
        rw [ih (hchildren c (List.mem_of_getElem? hc)) hcx hcy]
      · obtain ⟨hi, rfl⟩ := List.getElem?_eq_some_iff.1 hc
        obtain ⟨hj, rfl⟩ := List.getElem?_eq_some_iff.1 hc'
        have hx := path_mem_of_descend hcx ho
        have hy := hpath ▸ path_mem_of_descend hcy ho'
        obtain hlt | hlt := Nat.lt_or_gt_of_ne hij
        · exact (List.pairwise_iff_getElem.1 hapart i j hi hj hlt hx hy).elim
        · exact (List.pairwise_iff_getElem.1 hapart j i hj hi hlt hy hx).elim

/-! ## Parsed documents -/

/-- **Edits of a parsed document with origins succeed exactly when they do on the document, and end
in the same document, whose nodes have origins of their own, of their kinds and tags.** -/
theorem applyAll_ofDocument {d : Document} (hd : Fits (d.root, d.place)) (es : List Edit) :
    ((ofDocument d).applyAll es).toOption.isSome = (d.root.applyAll es).result.toOption.isSome ∧
      ∀ t, (ofDocument d).applyAll es = .ok t →
        d.root.applyAll es = ⟨t.toNode, none⟩ ∧
        (∀ p x o, Tree.descend t p = some x → x.origin = some o →
          o.IsOf d ∧ o.node.tag? = x.toNode.tag?) ∧
        ∀ p q x y o o', Tree.descend t p = some x → Tree.descend t q = some y →
          x.origin = some o → y.origin = some o' → o.path = o'.path → p = q := by
  have hsource : (ofDocument d).toNode = d.root := (hd.isSourced []).2
  have hrun := toNode_applyAll (ofDocument d) es
  rw [hsource] at hrun
  refine ⟨by rw [hrun, Option.isSome_map], fun t ht => ⟨?_, fun p x o hx ho => ⟨?_, ?_⟩, ?_⟩⟩
  · rw [ht] at hrun
    exact Outcome.eq_of_result (eq_ok_of_toOption hrun)
  · have hgenuine := isGenuine_applyAll (isGenuine_ofSource (d := d) hd rfl) ht
    exact (hgenuine p x hx o ho).1
  · have hkinds := hereditary_applyAll hereditary_hasKind hasKind_fresh
      (fun _ _ => hasKind_revises) (hasKind_ofSource hd []) ht
    exact hkinds p x hx o ho
  · have hsource : (ofDocument d).HasOwnOrigins := (nodup_ofSource hd []).1
    have hown := hsource.of_subperm (subperm_applyAll ht)
    exact fun p q x y o o' => hown.eq_of_origin

/-- Two texts in a paragraph: the first is moved behind the second, and another put in front. -/
theorem applyAll_ofDocument_paragraph :
    let d : Document := ⟨.element ['p'] .empty .empty [.text ['a'], .text ['b']],
      .element ⟨⟨0, 9⟩, some ⟨0, 3⟩, 2, some ⟨3, 5⟩, []⟩ [.text ⟨3, 4⟩, .text ⟨4, 5⟩]⟩
    let es : List Edit := [.move [0] [] 1, .insert [] 0 (.text ['c'])]
    Fits (d.root, d.place) ∧ ∃ t, (ofDocument d).applyAll es = .ok t ∧
      d.root.applyAll es = ⟨t.toNode, none⟩ ∧
      t.toNode = .element ['p'] .empty .empty [.text ['c'], .text ['b'], .text ['a']] ∧
      t.origins.map Origin.path = [[], [1], [0]] := by
  intro d es
  have hd : Fits (d.root, d.place) :=
    @Fits.element _ _ _ _ [(.text ['a'], .text ⟨3, 4⟩), (.text ['b'], .text ⟨4, 5⟩)]
      (List.forall_mem_cons.2 ⟨.text, List.forall_mem_cons.2 ⟨.text, List.forall_mem_nil _⟩⟩)
  refine ⟨hd, _, rfl, ?_, rfl, rfl⟩
  exact ((applyAll_ofDocument hd es).2 _ rfl).1

end Shadow

end MarkupSync
