import MarkupSync.Proofs.Patch.Script

/-!
# Edits that a module refuses

* `Node.isText_apply`: edits keep the root of a document an element;
* `Edit.Suits`, `Edit.AllSuit`: edits that a module can express, one and in order;
* `Node.SpreadsAt`: an element of a document that spreads properties;
* `Markup.apply_cases`: markup does what the document does, or refuses to change attributes next to
  spread properties;
* **`ScriptModule.applyAll_ofRoot`**: what a module does is done to its document, and all that a
  module refuses of what can be done is to change attributes next to spread properties.
-/

namespace MarkupSync

/-! ## The root of a document -/

namespace Node

variable {n n' m : Node} {p q : NodePath} {k : Nat}

theorem isText_withChildren (ns : List Node) (n : Node) :
    (Tree.withChildren ns n).isText = n.isText := by
  cases n <;> rfl

theorem isText_modifyAt {f : Node → Node} (hf : p = [] → (f n).isText = n.isText) :
    (Tree.modifyAt f p n).isText = n.isText := by
  cases p with
  | nil => exact hf rfl
  | cons => exact isText_withChildren ..

theorem isText_insertAt (h : Tree.insertAt n p k m = .ok n') : n'.isText = n.isText := by
  rw [Tree.insertAt] at h
  split at h
  · cases h
  · split at h
    · cases h
    · cases h
      exact isText_modifyAt fun _ => isText_withChildren ..

theorem isText_detach (h : Tree.detach n p = .ok (m, n')) : n'.isText = n.isText := by
  rw [Tree.detach] at h
  split at h
  · cases h
  · cases h
    exact isText_modifyAt fun _ => isText_withChildren ..

theorem isText_updateAt {f : Node → Except EditFault Node}
    (hf : ∀ m, p = [] → f n = .ok m → m.isText = n.isText) (h : Tree.updateAt n p f = .ok n') :
    n'.isText = n.isText := by
  rw [Tree.updateAt] at h
  split at h
  · cases h
  next old hold =>
    split at h
    · cases h
    next new hnew =>
      cases h
      refine isText_modifyAt fun hp => ?_
      subst hp
      cases hold
      exact hf new rfl hnew

/-- Edits of a document whose root is an element keep it one, unless a text replaces it. -/
theorem isText_apply {e : Edit} (hn : n.isText = false)
    (hroot : ∀ m, e = .replace [] m → m.isText = false) (h : n.apply e = ⟨n', none⟩) :
    n'.isText = false := by
  rw [← hn]
  cases e with
  | insert p k m => exact isText_insertAt (Markup.eq_ok_of_ofExcept h)
  | remove p =>
    have hremove : (Tree.detach n p).map Prod.snd = .ok n' := Markup.eq_ok_of_ofExcept h
    obtain ⟨⟨m, rest⟩, hd, rfl⟩ := exists_of_map_eq_ok hremove
    exact isText_detach hd
  | replace p m =>
    refine isText_updateAt (fun k hp hk => ?_) (Markup.eq_ok_of_ofExcept h)
    subst hp
    cases hk
    rw [hn, hroot m rfl]
  | updateAttributes p a s =>
    refine isText_updateAt (fun k _ hk => ?_) (Markup.eq_ok_of_ofExcept h)
    cases n with
    | text => cases hn
    | element =>
      cases hk
      rfl
  | updateText p content =>
    refine isText_updateAt (fun k _ hk => ?_) (Markup.eq_ok_of_ofExcept h)
    cases n with
    | text => cases hn
    | element => cases hk
  | move p q k =>
    rw [apply, Tree.move] at h
    split at h
    · cases h
    next m rest hd => rw [isText_insertAt (Markup.eq_ok_of_ofExcept h), isText_detach hd]

end Node

/-! ## Edits that suit a module -/

/-- Markup stands for what an edit of the document `n` puts into it, no text replaces the root, and
the attributes that change are not those of a root and get no declarations as a text. -/
def Edit.Suits (n : Node) : Edit → Prop
  | .insert _ _ node => node.IsMarkup
  | .replace path node => node.IsMarkup ∧ (path = [] → node.isText = false)
  | .updateAttributes path attributes _ =>
    (∀ e ∈ attributes.assignments, e.1 = styleName → isExpression e.2 = true) ∧
      ∀ as st cs, Tree.descend n path ≠ some (.element Node.rootTag as st cs)
  | .remove _ | .updateText .. | .move .. => True

/-- Edits each of which suits the document that those before it lead to. -/
def Edit.AllSuit (n : Node) : List Edit → Prop
  | [] => True
  | e :: es => e.Suits n ∧ ∀ m, n.apply e = ⟨m, none⟩ → AllSuit m es

theorem Edit.Suits.isMarkup {n : Node} {e : Edit} (h : e.Suits n) : e.IsMarkup n := by
  cases e with
  | insert => exact h
  | replace => exact h.1
  | updateAttributes => exact ⟨h.1, fun as st cs hd => absurd hd (h.2 as st cs)⟩
  | remove | updateText | move => trivial

theorem Edit.Suits.isText {n m : Node} {e : Edit} (h : e.Suits n) (he : e = .replace [] m) :
    m.isText = false := by
  subst he
  exact h.2 rfl

/-- The element at a path spreads properties. -/
def Node.SpreadsAt (n : Node) (path : NodePath) : Prop :=
  ∃ tag as st cs, Tree.descend n path = some (.element tag as st cs) ∧
    ∃ e ∈ as.entries, Text.startsWith MarkupAttr.spreadSign e.1 = true

instance : LawfulTree Markup where
  children?_withChildren t ns h := by cases t <;> first | rfl | cases h
  withChildren_withChildren t ns ms := by cases t <;> rfl

namespace Markup

/-! ## Spread properties -/

/-- The spread properties of an element start like spread properties. -/
def HasSpreadSigns : Markup → Prop
  | .element _ as _ _ =>
    ∀ t, MarkupAttr.spread t ∈ as → Text.startsWith MarkupAttr.spreadSign t = true
  | .text _ | .expression _ => True

theorem hereditary_hasSpreadSigns : Tree.Hereditary (Tree.Throughout HasSpreadSigns) :=
  Tree.hereditary_throughout (fun t ns h => by cases t <;> exact h)
    (fun t ns h => by
      cases t with
      | element => cases h
      | text | expression => rfl)

theorem hasSpreadSigns_ofText (content : Text) :
    Tree.Throughout HasSpreadSigns (ofText content) := by
  rw [ofText]
  split <;> exact Tree.throughout_iff.2 ⟨trivial, List.forall_mem_nil _⟩

theorem hasSpreadSigns_ofEntry {es : List Entry} {t : Text}
    (h : .spread t ∈ es.map MarkupAttr.ofEntry) :
    Text.startsWith MarkupAttr.spreadSign t = true := by
  obtain ⟨e, -, he⟩ := List.mem_map.1 h
  rw [MarkupAttr.ofEntry] at he
  split at he
  next hsign =>
    cases he
    exact hsign
  next => cases he

mutual

theorem hasSpreadSigns_ofNode (n : Node) : Tree.Throughout HasSpreadSigns (ofNode n) := by
  cases n with
  | text content => exact hasSpreadSigns_ofText content
  | element tag as st cs =>
    rw [ofNode]
    split
    · exact Tree.throughout_iff.2 ⟨nofun, hasSpreadSigns_ofNodes cs⟩
    · exact Tree.throughout_iff.2 ⟨fun _ => hasSpreadSigns_ofEntry, hasSpreadSigns_ofNodes cs⟩

theorem hasSpreadSigns_ofNodes (ns : List Node) :
    ∀ m ∈ ofNodes ns, Tree.Throughout HasSpreadSigns m := by
  cases ns with
  | nil => exact nofun
  | cons n ns =>
    exact List.forall_mem_cons.2 ⟨hasSpreadSigns_ofNode n, hasSpreadSigns_ofNodes ns⟩

end

/-- Attributes that are given values or dropped spread nothing more. -/
theorem spread_mem_of_mem_set {name value t : Text} {as : List MarkupAttr}
    (h : .spread t ∈ MarkupAttr.set name value as) : .spread t ∈ as := by
  induction as with
  | nil => cases List.mem_singleton.1 h
  | cons a as ih =>
    rw [MarkupAttr.set] at h
    split at h
    · obtain h | h := List.mem_cons.1 h
      · cases h
      · exact List.mem_cons_of_mem _ h
    · obtain h | h := List.mem_cons.1 h
      · exact h ▸ List.mem_cons_self
      · exact List.mem_cons_of_mem _ (ih h)

theorem spread_mem_of_mem_assignAll {t : Text} {es : List Entry} {head : Head}
    (h : .spread t ∈ (es.foldl assign head).1) : .spread t ∈ head.1 := by
  induction es generalizing head with
  | nil => exact h
  | cons e es ih =>
    have := ih h
    rw [assign] at this
    split at this
    · exact this
    · exact spread_mem_of_mem_set this

theorem spread_mem_of_mem_eraseAll {t : Text} {ns : List Text} {as : List MarkupAttr}
    (h : .spread t ∈ ns.foldl (fun as name => MarkupAttr.erase name as) as) : .spread t ∈ as := by
  induction ns generalizing as with
  | nil => exact h
  | cons n ns ih => exact (List.mem_filter.1 (ih h)).1

theorem hasSpreadSigns_withDeltas {path : NodePath} {a s : Delta} {old new : Markup}
    (hold : Tree.Throughout HasSpreadSigns old) (h : withDeltas path a s old = .ok new) :
    Tree.Throughout HasSpreadSigns new := by
  cases old with
  | text | expression => cases h
  | element name as st cs =>
    simp only [withDeltas] at h
    split at h
    · cases h
    · cases h
      obtain ⟨hsigns, hcs⟩ := Tree.throughout_iff.1 hold
      refine Tree.throughout_iff.2 ⟨fun t ht => hsigns t ?_, hcs⟩
      exact spread_mem_of_mem_eraseAll (spread_mem_of_mem_assignAll ht)

/-- Where an element spreads properties, the document has an attribute that starts so. -/
theorem spreadsAt_of_spreads {m old : Markup} {path : NodePath}
    (hm : Tree.Throughout HasSpreadSigns m) (htidy : m.IsTidy)
    (hd : Tree.descend m path = some old) (hspread : old.spreads = true)
    (hroot : ∀ as st cs, Tree.descend m.toNode path ≠ some (.element Node.rootTag as st cs)) :
    m.toNode.SpreadsAt path := by
  cases old with
  | text | expression => cases hspread
  | element name as st cs =>
    have hnode := isMap_toNode.descend m path
    rw [hd, Option.map_some, toNode] at hnode
    by_cases hname : name = []
    · rw [if_pos hname] at hnode
      exact absurd hnode (hroot _ _ _)
    · rw [if_neg hname] at hnode
      refine ⟨_, _, _, _, hnode, ?_⟩
      rw [Attrs.entries_ofList (hereditary_isTidy.descend htidy hd).2.1]
      obtain ⟨x, hx, hxs⟩ := List.any_eq_true.1 hspread
      cases x with
      | named => cases hxs
      | spread t => exact ⟨_, List.mem_map_of_mem hx, hm path _ hd t hx⟩

/-! ## One edit, and edits in order -/

/-- Markup of a document whose root is an element. -/
structure Shows (m : Markup) (n : Node) : Prop where
  toNode : m.toNode = n
  isText : n.isText = false
  isTidy : m.IsTidy
  signs : Tree.Throughout HasSpreadSigns m

theorem shows_ofRoot {n : Node} (h : n.IsMarkup) (hn : n.isText = false) : (ofRoot n).Shows n := by
  obtain ⟨hnode, htidy⟩ := ofRoot_spec h hn
  exact ⟨hnode, hn, htidy, ofRoot_eq hn ▸ hasSpreadSigns_ofNode n⟩

/-- What markup does is done to its document, and what it refuses cannot be done to the document or
changes attributes next to spread properties. -/
theorem Shows.apply {m : Markup} {n : Node} (h : m.Shows n) {e : Edit} (he : e.Suits n) :
    (∃ m', (m.apply e).result = .ok m' ∧ n.apply e = ⟨m'.toNode, none⟩ ∧ m'.Shows m'.toNode) ∨
    ∃ f, (m.apply e).result = .error f ∧ ∀ n', n.apply e = ⟨n', none⟩ →
      ∃ path a s, e = .updateAttributes path a s ∧ f = .unsupported path .spreadUpdate ∧
        n.SpreadsAt path := by
  obtain ⟨rfl, htext, htidy, hsigns⟩ := h
  cases hm : (m.apply e).result with
  | ok m' =>
    obtain ⟨happly, htidy'⟩ := apply_toNode htidy he.isMarkup (fun _ => he.isText) hm
    have htext' := Node.isText_apply htext (fun _ => he.isText) happly
    have hsigns' := hereditary_apply hereditary_hasSpreadSigns (fun n _ => hasSpreadSigns_ofNode n)
      hasSpreadSigns_ofText (fun _ _ _ _ _ hold hnew _ _ => hasSpreadSigns_withDeltas hold hnew)
      hsigns he.isMarkup (fun _ => he.isText) hm
    exact .inl ⟨m', rfl, happly, rfl, htext', htidy', hsigns'⟩
  | error f =>
    refine .inr ⟨f, rfl, fun n' hn' => ?_⟩
    by_contra hnone
    -- next to no spread properties the markup would do what the document does
    have hrun := toNode_apply htidy he.isMarkup (fun _ => he.isText) (fun _ _ => htext)
      fun path a s old hu hold => by
        subst hu
        refine Bool.eq_false_iff.2 fun hspread => hnone ⟨path, a, s, rfl, ?_, ?_⟩
        · rw [Markup.apply, Outcome.result_ofExcept, updateElement, hold] at hm
          simp only [withDeltas_of_spreads hspread] at hm
          cases hm
          rfl
        · exact spreadsAt_of_spreads hsigns htidy hold hspread he.2
    rw [hm, hn'] at hrun
    cases hrun

/-- **Markup does what its document does**, or refuses to change attributes next to spread
properties. -/
theorem Shows.run {m : Markup} {n : Node} (h : m.Shows n) {es : List Edit}
    (hes : Edit.AllSuit n es) :
    (∃ m', (Outcome.run Markup.apply m es).result = .ok m' ∧ n.applyAll es = ⟨m'.toNode, none⟩) ∨
    ∃ f, (Outcome.run Markup.apply m es).result = .error f ∧
      ∀ n', n.applyAll es = ⟨n', none⟩ → ∃ before path a s after mid,
        es = before ++ .updateAttributes path a s :: after ∧
        (Outcome.run Markup.apply m before).result = .ok mid ∧
        n.applyAll before = ⟨mid.toNode, none⟩ ∧
        (mid.apply (.updateAttributes path a s)).result = .error f ∧
        f = .unsupported path .spreadUpdate ∧ mid.toNode.SpreadsAt path := by
  induction es generalizing m n with
  | nil =>
    obtain rfl := h.toNode
    exact .inl ⟨m, rfl, rfl⟩
  | cons e es ih =>
    obtain ⟨he, hes⟩ := hes
    obtain ⟨m', hm', hn', hshows⟩ | ⟨f, hf, hrefused⟩ := h.apply he
    · have hstep : (n.apply e).result = .ok m'.toNode := by
        rw [hn']
        rfl
      rw [Outcome.run_cons_of_ok hm', Node.applyAll, Outcome.run_cons_of_ok hstep]
      obtain hall | ⟨f, hf, hlater⟩ := ih hshows (hes _ hn')
      · exact .inl hall
      refine .inr ⟨f, hf, fun n' hrun => ?_⟩
      obtain ⟨before, path, a, s, after, mid, rfl, hbefore, hnode, hrest⟩ := hlater n' hrun
      refine ⟨e :: before, path, a, s, after, mid, rfl, ?_, ?_, hrest⟩
      · rw [Outcome.run_cons_of_ok hm', hbefore]
      · rw [Node.applyAll, Outcome.run_cons_of_ok hstep]
        exact hnode
    · refine .inr ⟨f, Outcome.run_cons_of_error hf, fun n' hrun => ?_⟩
      cases hn' : (n.apply e).result with
      | error g =>
        have hfails : (n.applyAll (e :: es)).result = .error g := Outcome.run_cons_of_error hn'
        rw [hrun] at hfails
        cases hfails
      | ok k =>
        obtain ⟨path, a, s, rfl, rfl, hspreads⟩ := hrefused k (Outcome.eq_of_result hn')
        obtain rfl := h.toNode
        exact ⟨[], path, a, s, es, m, rfl, rfl, rfl, hf, rfl, hspreads⟩

end Markup

namespace ScriptModule

theorem result_apply (m : ScriptModule) (e : Edit) :
    (m.apply e).result = (m.markup.apply e).result.map fun markup => { m with markup } := by
  rw [apply, Outcome.result, Outcome.result]
  cases (m.markup.apply e).error <;> rfl

theorem result_applyAll (m : ScriptModule) (es : List Edit) :
    (m.applyAll es).result =
      (Outcome.run Markup.apply m.markup es).result.map fun markup => { m with markup } := by
  rw [applyAll_eq, Outcome.result, Outcome.result]
  cases (Outcome.run Markup.apply m.markup es).error <;> rfl

/-- **What a module does is done to its document, and all that it refuses of what can be done is to
change attributes next to spread properties.** -/
theorem applyAll_ofRoot {n : Node} (hn : n.IsMarkup) (helement : n.isText = false)
    {m : ScriptModule} (hm : m.markup = .ofRoot n) {es : List Edit} (hes : Edit.AllSuit n es) :
    (∀ m', (m.applyAll es).result = .ok m' → n.applyAll es = ⟨m'.markup.toNode, none⟩) ∧
    ∀ n' f, n.applyAll es = ⟨n', none⟩ → (m.applyAll es).result = .error f →
      ∃ before path a s after mid, es = before ++ .updateAttributes path a s :: after ∧
        (m.applyAll before).result = .ok mid ∧ n.applyAll before = ⟨mid.markup.toNode, none⟩ ∧
        (mid.apply (.updateAttributes path a s)).result = .error f ∧
        f = .unsupported path .spreadUpdate ∧ mid.markup.toNode.SpreadsAt path := by
  obtain ⟨markup, hrun, hnode⟩ | ⟨f, hrun, hrefused⟩ :=
    (hm ▸ Markup.shows_ofRoot hn helement : m.markup.Shows n).run hes
  all_goals rw [result_applyAll, hrun]
  · refine ⟨fun m' hm' => ?_, fun n' f _ hf => ?_⟩
    · cases hm'
      exact hnode
    · cases hf
  · refine ⟨fun m' hm' => ?_, fun n' g hn' hg => ?_⟩
    · cases hm'
    · cases hg
      obtain ⟨before, path, a, s, after, mid, hes, hbefore, hnode, hlast, hf, hspreads⟩ :=
        hrefused n' hn'
      refine ⟨before, path, a, s, after, { m with markup := mid }, hes, ?_, hnode, ?_, hf, hspreads⟩
      · rw [result_applyAll, hbefore]
        rfl
      · rw [result_apply, hlast]
        rfl

/-- A text is put into an element that spreads properties, and then its attributes are to change:
the document takes both edits, the module only the first. -/
theorem applyAll_ofRoot_spread :
    let n : Node := .element "p".toList (.ofList [("\x7b...a\x7d".toList, [])]) .empty []
    let m : ScriptModule := ⟨[], .ofRoot n, [], []⟩
    let delta : Delta := ⟨.ofList [("id".toList, "a".toList)], .empty, []⟩
    let es : List Edit :=
      [.insert [] 0 (.text "\x7bx\x7d".toList), .updateAttributes [] delta .empty]
    n.IsMarkup ∧ Edit.AllSuit n es ∧ (∃ n', n.applyAll es = ⟨n', none⟩) ∧
      ∃ before path a s after mid, es = before ++ .updateAttributes path a s :: after ∧
        (m.applyAll before).result = .ok mid ∧ n.applyAll before = ⟨mid.markup.toNode, none⟩ ∧
        mid.markup.toNode.SpreadsAt path := by
  intro n m delta es
  have hn : n.IsMarkup := ⟨⟨by decide, fun h => absurd h (by decide), by decide⟩, trivial⟩
  have hes : Edit.AllSuit n es := by
    refine ⟨trivial, fun k hk => ⟨⟨by decide, fun as st cs hd => ?_⟩, fun _ _ => trivial⟩⟩
    cases hk
    have htag : some "p".toList = some Node.rootTag := congrArg (Option.bind · Node.tag?) hd
    exact absurd htag (by decide)
  obtain ⟨before, path, a, s, after, mid, h, hbefore, hnode, -, -, hspreads⟩ :=
    (applyAll_ofRoot hn rfl (m := m) rfl hes).2 _ _ rfl rfl
  exact ⟨hn, hes, ⟨_, rfl⟩, before, path, a, s, after, mid, h, hbefore, hnode, hspreads⟩

end ScriptModule

end MarkupSync
