import MarkupSync.Proofs.Patch.Carried
import MarkupSync.Proofs.Patch.Layout

/-!
# Comments in patched sources

Comments, declarations and processing instructions have no nodes, so a patch knows nothing of them.

* `Document.Spares`: no change of a difference touches a range of the source;
* `Document.spares_continuedAs`: then the changes of its nodes do not;
* **`Document.carries_asides`**: the comments that a difference spares are still there afterwards.
-/

namespace MarkupSync

open Text

/-! ## Ranges that a difference spares -/

/-- A node goes on with all its children in their order. -/
def Node.KeepsChildren (old new : Node) : Prop :=
  (Tree.children new).length = (Tree.children old).length ∧
    ∀ i < (Tree.children old).length, continued? old new [i] = some [i]

namespace Document

/-- A node goes on as `n`, which spares a range inside: a text goes on as it is, and an element with
its children; if it gets others, it had some and has some afterwards, and the range lies in a child,
in front of all its children or behind them. -/
def SparesInside (c : Document) (n : Node) (q : Span) : Prop :=
  match c.root with
  | .text a => n = .text a
  | .element .. => c.root.KeepsChildren n ∨ Tree.children n ≠ [] ∧ c.place.children ≠ [] ∧
    ((∃ p ∈ c.place.children, q.Within p.outer) ∨ (∀ p ∈ c.place.children, q.stop ≤ p.outer.start) ∨
      ∀ p ∈ c.place.children, p.outer.stop ≤ q.start)

/-- All nodes around a range go on and spare it inside. -/
def SparesAll (d : Document) (new : Node) (q : Span) : Prop :=
  ∀ p c, d.at? p = some c → q.Within c.place.outer → ∃ p' n,
    Node.continued? d.root new p' = some p ∧ Tree.descend new p' = some n ∧ c.SparesInside n q

/-- The difference to a document does not touch a range of the source. A new root takes the place of
the old one, or of all top-level nodes. -/
structure Spares (d : Document) (new : Node) (q : Span) : Prop where
  replaced : d.root.tag? ≠ new.tag? → q.Avoids (Patcher.documentSpan d.place)
  kept : d.root.tag? = new.tag? → d.SparesAll new q

end Document

variable {source : Text} {q : Span}

namespace Node

variable {old new : Node}

theorem eq_nil_of_continued? {p : NodePath} (h : continued? old new p = some []) : p = [] := by
  cases p with
  | nil => rfl
  | cons j p =>
    obtain ⟨_, _, _, _, _, _, _, _, _, _, _, -, -, -, -, -, -, hnil⟩ := exists_of_continued?_cons h
    cases hnil

/-- What a child continues tells what its siblings do not. -/
theorem continued?_child {tag : Text} {as st bs rt : Attrs} {cs ds : List Node} {i j : Nat}
    {o n : Node} (hm : (matching cs ds)[j]? = some (some i)) (ho : cs[i]? = some o)
    (hn : ds[j]? = some n) {p p' : NodePath}
    (h : continued? (.element tag as st cs) (.element tag bs rt ds) p' = some (i :: p)) :
    ∃ r, p' = j :: r ∧ continued? o n r = some p := by
  cases p' with
  | nil => cases (continued?_nil h).2
  | cons k r =>
    obtain ⟨_, _, _, _, _, _, _, i', o', n', r', hold, hnew, hm', ho', hn', hr, hp⟩ :=
      exists_of_continued?_cons h
    cases hold
    cases hnew
    cases hp
    obtain rfl : k = j := index_unique (f := id) (nodup_matching cs ds) hm' hm rfl rfl
    obtain rfl := Option.some.inj (ho.symm.trans ho')
    obtain rfl := Option.some.inj (hn.symm.trans hn')
    exact ⟨r, rfl, hr⟩

end Node

theorem Document.at?_cons {tag : Text} {as st : Attrs} {e : ElementPlace} {l : List (Node × Place)}
    {i : Nat} {x : Node × Place} (hx : l[i]? = some x) (p : NodePath) :
    at? ⟨.element tag as st (l.map Prod.fst), .element e (l.map Prod.snd)⟩ (i :: p) =
      at? ⟨x.1, x.2⟩ p := by
  rw [at?, child?]
  simp [Tree.children, Tree.children?, Place.children, hx]

/-- A child around the range goes on, and all nodes around the range inside it. -/
theorem Document.SparesAll.child {tag : Text} {as st bs rt : Attrs} {e : ElementPlace}
    {l : List (Node × Place)} {ds : List Node}
    (h : SparesAll ⟨.element tag as st (l.map Prod.fst), .element e (l.map Prod.snd)⟩
      (.element tag bs rt ds) q) {i : Nat} {x : Node × Place} (hx : l[i]? = some x)
    (hq : q.Within x.2.outer) : ∃ (j : Nat) (n : Node), (matching (l.map Prod.fst) ds)[j]? = some (some i) ∧
      ds[j]? = some n ∧ SparesAll ⟨x.1, x.2⟩ n q := by
  obtain ⟨p', -, hp', -, -⟩ := h [i] _ (at?_cons hx []) hq
  cases p' with
  | nil => cases (Node.continued?_nil hp').2
  | cons j p' =>
    obtain ⟨_, _, _, _, _, _, _, _, o, n, _, hold, hnew, hm, ho, hn, -, hp⟩ :=
      Node.exists_of_continued?_cons hp'
    cases hold
    cases hnew
    cases hp
    obtain rfl : x.1 = o := by
      rw [List.getElem?_map, hx] at ho
      exact Option.some.inj ho
    refine ⟨j, n, hm, hn, fun p c hc hqc => ?_⟩
    obtain ⟨p', m, hp', hdescend, hinside⟩ := h (i :: p) c ((at?_cons hx p).trans hc) hqc
    obtain ⟨r, rfl, hr⟩ := Node.continued?_child hm ho hn hp'
    obtain ⟨n', hn', hm'⟩ := Option.bind_eq_some_iff.1 hdescend
    obtain rfl := Option.some.inj (hn.symm.trans hn')
    exact ⟨r, m, hr, hm', hinside⟩

theorem Place.IsClearOf.within_or {p : Place} (h : p.IsClearOf q) :
    q.Within p.outer ∨ q.Avoids p.outer := by
  cases h <;> assumption

/-- A range in an element lies in its content. -/
theorem Place.IsClearOf.inner {e : ElementPlace} {places : List Place}
    (h : (Place.element e places).IsClearOf q) (hlt : q.start < q.stop) (hq : q.Within e.outer) :
    ∃ inner, e.inner = some inner ∧ q.Within inner ∧ ∀ p ∈ places, p.IsClearOf q := by
  cases h with
  | element _ hclosed hinner hchildren =>
    cases hsome : e.inner with
    | none =>
      have := hclosed hsome
      simp only [Span.Avoids, Span.Within] at *
      omega
    | some inner => exact ⟨inner, rfl, hinner inner hsome hq, hchildren⟩

namespace Shadow

open Document

theorem length_allContinuedAs (cs : List Shadow) (ns ds : List Node) :
    (allContinuedAs cs (matching ns ds) ds).length = ds.length := by
  rw [allContinuedAs_eq_map, List.length_map, List.length_zip, length_matching, Nat.min_self]

/-- Children that a difference keeps in their order are kept so. -/
theorem keepsChildren_allContinuedAs {tag : Text} {as st bs rt : Attrs} {l : List (Node × Place)}
    {ds : List Node} (hl : ∀ x ∈ l, Fits x) (path : NodePath)
    (h : Node.KeepsChildren (.element tag as st (l.map Prod.fst)) (.element tag bs rt ds)) :
    Patcher.keepsChildren path l.length (allContinuedAs
      (ofSources path 0 (l.map Prod.snd) (l.map Prod.fst)) (matching (l.map Prod.fst) ds) ds) =
        true := by
  obtain ⟨hlength, hkeeps⟩ := h
  rw [Patcher.keepsChildren, beq_iff_eq]
  have hlength : ds.length = l.length := hlength.trans (List.length_map _)
  refine List.ext_getElem? fun i => ?_
  by_cases hi : i < l.length
  · obtain ⟨_, _, _, _, _, _, _, _, o, n, r, hold, hnew, hm, ho, hn, hr, hp⟩ :=
      Node.exists_of_continued?_cons (hkeeps i (hi.trans_eq (List.length_map _).symm))
    cases hold
    cases hnew
    cases hp
    rw [List.getElem?_map, List.getElem?_eq_getElem hi] at ho
    have hnew := getElem?_allContinuedAs
      (ofSources path 0 (l.map Prod.snd) (l.map Prod.fst)) hm hn
    rw [childContinuedAs, Option.bind_some, Fits.getElem?_ofSources, List.getElem?_eq_getElem hi]
      at hnew
    rw [List.getElem?_map, hnew]
    have hnode := ((hl _ (List.getElem_mem hi)).isSourced (path.child i)).2
    have htag : l[i].1.tag? = n.tag? := by
      cases ho
      exact (Node.continued?_nil hr).1
    simp [hi, origin_continuedAs, hnode, htag, Fits.origin_ofSource]
  · have hnil := length_allContinuedAs (ofSources path 0 (l.map Prod.snd) (l.map Prod.fst))
      (l.map Prod.fst) ds
    rw [List.getElem?_eq_none, List.getElem?_eq_none] <;> simp <;> omega

/-- **What a difference to a document spares**, the changes of its nodes do not touch. -/
theorem spares_continuedAs {x : Node × Place} (hx : Fits x) {path : NodePath} {new : Node}
    (hclear : x.2.IsClearOf q) (hlt : q.start < q.stop) (hq : source.IsRange x.2.outer q)
    (h : SparesAll ⟨x.1, x.2⟩ new q) :
    ((ofSource path x.2 x.1).continuedAs new).Spares source q := by
  induction hx generalizing path new with
  | @text a span =>
    obtain ⟨p', n, hp', hn, hinside⟩ := h [] _ rfl hq.within
    obtain rfl := Node.eq_nil_of_continued? hp'
    cases hn
    obtain rfl : new = .text a := hinside
    exact ⟨_, rfl, rfl, hq⟩
  | @element tag as st e l hl ih =>
    obtain ⟨p', n, hp', hn, hinside⟩ := h [] _ rfl hq.within
    obtain rfl := Node.eq_nil_of_continued? hp'
    cases hn
    obtain ⟨htag, -⟩ := Node.continued?_nil hp'
    cases new with
    | text => cases htag
    | element tag' bs rt ds =>
      cases htag
      obtain ⟨inner, hinner, hwithin, hchildren⟩ := hclear.inner hlt hq.within
      have hfits : Fits (.element tag as st (l.map Prod.fst), .element e (l.map Prod.snd)) :=
        .element hl
      have hnodes : toNodes (ofSources path 0 (l.map Prod.snd) (l.map Prod.fst)) = l.map Prod.fst :=
        (Node.element.inj (hfits.isSourced path).2).2.2.2
      rw [ofSource, continuedAs, if_pos rfl, Place.children, hnodes]
      refine ⟨_, rfl, e, _, rfl, inner, hinner, ?_⟩
      by_cases hchild : ∃ x ∈ l, q.Within x.2.outer
      · -- in a child
        obtain ⟨x, hx, hqx⟩ := hchild
        obtain ⟨i, hi⟩ := List.mem_iff_getElem?.1 hx
        obtain ⟨j, n, hm, hn, hspares⟩ := SparesAll.child h hi hqx
        have hspares : ((ofSource (path.child i) x.2 x.1).continuedAs n).Spares source q :=
          ih x hx (hchildren _ (List.mem_map_of_mem hx)) ⟨hqx, hq.le, hq.start, hq.stop⟩ hspares
        have hnew := getElem?_allContinuedAs
          (ofSources path 0 (l.map Prod.snd) (l.map Prod.fst)) hm hn
        rw [childContinuedAs, Option.bind_some, Fits.getElem?_ofSources, hi] at hnew
        exact .inl (anySpares_iff.2 ⟨_, List.mem_of_getElem? hnew, hspares⟩)
      · -- beside the children
        have havoids : ∀ p ∈ l.map Prod.snd, q.Avoids p.outer := fun p hp => by
          obtain ⟨x, hx, rfl⟩ := List.mem_map.1 hp
          exact (hchildren _ hp).within_or.resolve_left fun hqx => hchild ⟨x, hx, hqx⟩
        refine .inr ⟨⟨hwithin, hq.le, hq.start, hq.stop⟩, ?_⟩
        simp only [List.length_map]
        split
        next => exact havoids
        next hk =>
          obtain hkeeps | ⟨hds, hne, ⟨p, hp, hqp⟩ | hbeside⟩ := hinside
          · exact (hk (keepsChildren_allContinuedAs hl path hkeeps)).elim
          · obtain ⟨x, hx, rfl⟩ := List.mem_map.1 hp
            exact (hchild ⟨x, hx, hqp⟩).elim
          · refine ⟨fun hnil => hds ?_, hne, hbeside⟩
            have hlength := length_allContinuedAs (ofSources path 0 (l.map Prod.snd) (l.map Prod.fst))
              (l.map Prod.fst) ds
            rw [hnil] at hlength
            exact List.length_eq_zero_iff.1 hlength.symm

end Shadow

/-! ## Patched sources -/

variable {flavor : Flavor} {s : Text} {d : Document}

/-- A difference makes of a document with origins the new one that goes on from it. -/
theorem Document.applyAll_diff_continuedAs (hd : Document.read flavor s = .ok d) (new : Node) :
    (Shadow.ofDocument d).applyAll (Node.diff d.root new) =
      .ok ((Shadow.ofDocument d).continuedAs new) ∧
        Shadow.IsGenuine d ((Shadow.ofDocument d).continuedAs new) := by
  have hfits : Fits (d.root, d.place) := (Document.isSound_read hd).fits
  obtain ⟨hsourced, hroot⟩ := hfits.isSourced []
  have hsteps := Shadow.steps_diff (P := fun _ _ => True) (fun _ _ _ _ _ _ _ _ => trivial) false
    hsourced new trivial
  rw [hroot] at hsteps
  have happly := Shadow.applyAll_of_steps hsteps
  exact ⟨happly, Shadow.isGenuine_applyAll (Shadow.isGenuine_ofSource (d := d) hfits rfl) happly⟩

/-- **Patching a source with a difference keeps the comments that the difference spares**, and so it
does with declarations and processing instructions. The patch succeeds, and they stand in the new
source, no two of them in the same place. -/
theorem Document.carries_asides (hd : Document.read flavor s = .ok d) (new : Node)
    (options : FormatOptions) :
    ∃ t, patchText s d (Node.diff d.root new) flavor options = .ok t ∧
      s.Carries t fun q => q ∈ asides flavor 0 s ∧ d.Spares new q := by
  have hsound := Document.isSound_read hd
  have hfits : Fits (d.root, d.place) := hsound.fits
  obtain ⟨hshadow, hgenuine⟩ := Document.applyAll_diff_continuedAs hd new
  obtain ⟨es, t, hes, hrw, hcarries⟩ :=
    Patcher.carries_rootSplices (p := ⟨s, flavor, options⟩) hsound hgenuine
  refine ⟨t, ?_, hcarries.mono ?_⟩
  · rw [patchText, textSplices, hshadow]
    simp only [hes, hrw.applyAll]
    rfl
  rintro q ⟨hq, hspares⟩
  obtain ⟨hlt, hrange⟩ := (areBetween_asides flavor (.self s)).range q hq
  have hclear : d.place.IsClearOf q :=
    Document.isClearOf_readAt (Holds.self s) hd hq
  have horigin := Shadow.origin_continuedAs (Shadow.ofDocument d) new
  rw [Shadow.ofDocument, (hfits.isSourced []).2, Fits.origin_ofSource] at horigin
  by_cases htag : d.root.tag? = new.tag?
  · rw [if_pos htag] at horigin
    obtain hwithin | havoids := hclear.within_or
    · exact .inl (Shadow.spares_continuedAs hfits hclear hlt
        ⟨hwithin, hrange.le, hrange.start, hrange.stop⟩ (hspares.kept htag))
    · refine .inr ⟨hrange, ?_⟩
      rw [Patcher.rootSpan, Shadow.ofDocument, horigin]
      exact havoids
  · rw [if_neg htag] at horigin
    refine .inr ⟨hrange, ?_⟩
    rw [Patcher.rootSpan, Shadow.ofDocument, horigin]
    exact hspares.replaced htag

/-- Around a range that lies in no child of the root there is no node but the root. -/
theorem Document.IsSound.eq_nil_of_within {region : Span} (h : d.IsSound flavor source region)
    (hq : ∀ p ∈ d.place.children, ¬ q.Within p.outer) {path : NodePath} {c : Document}
    (hc : d.at? path = some c) (hqc : q.Within c.place.outer) : path = [] := by
  cases path with
  | nil => rfl
  | cons i path =>
    obtain ⟨x, hx, hxc⟩ := Option.bind_eq_some_iff.1 hc
    obtain ⟨hstart, hstop⟩ := (h.child? hx).within_at? hxc
    rw [Document.child?] at hx
    split at hx
    next n p _ hp =>
      cases hx
      exact (hq p (List.mem_of_getElem? hp)
        ⟨Nat.le_trans hstart hqc.1, Nat.le_trans hqc.2 hstop⟩).elim
    next => cases hx

/-- A comment in front of a list and one in front of its items, behind which an item comes. -/
theorem Document.carries_asides_list :
    let s : Text := "<!-- a --><ul><!-- b --><li>x</li></ul>".toList
    let li (c : Char) : Node := .element ['l', 'i'] .empty .empty [.text [c]]
    let new : Node := .element ['u', 'l'] .empty .empty [li 'x', li 'y']
    ∃ d t r r', Document.read .html s = .ok d ∧
      patchText s d (Node.diff d.root new) .html {} = .ok t ∧ t.Holds r "<!-- a -->".toList ∧
        t.Holds r' "<!-- b -->".toList ∧ r.Avoids r' := by
  intro s li new
  have hasides : asides .html 0 s = [⟨0, 10⟩, ⟨14, 24⟩] := by decide +kernel
  have h : (Document.read .html s).toOption.map (fun d =>
      (d.root.tag?, d.root.isElement, d.place.outer, d.place.children.map Place.outer)) =
        some (new.tag?, true, ⟨10, 39⟩, [⟨24, 34⟩]) := by decide +kernel
  obtain ⟨d, hd, h⟩ := Option.map_eq_some_iff.1 h
  have hd := eq_ok_of_toOption hd
  simp only [Prod.mk.injEq] at h
  obtain ⟨htag, helement, houter, hchildren⟩ := h
  have hsound := Document.isSound_read hd
  have hall {P : Span → Prop} (h : P ⟨24, 34⟩) : ∀ p ∈ d.place.children, P p.outer := fun p hp =>
    List.mem_singleton.1 (hchildren ▸ List.mem_map_of_mem hp) ▸ h
  -- one comment lies in front of the root, the other in front of its children
  have hfront : d.Spares new ⟨0, 10⟩ := by
    refine ⟨fun hne => (hne htag).elim, fun _ p c hc hqc => ?_⟩
    have := (hsound.within_at? hc).1
    rw [houter] at this
    exact absurd (Nat.le_trans this hqc.1) (by decide)
  have hinside : d.Spares new ⟨14, 24⟩ := by
    refine ⟨fun hne => (hne htag).elim, fun _ p c hc hqc => ?_⟩
    obtain rfl := hsound.eq_nil_of_within
      (hall (P := fun r => ¬ Span.Within ⟨14, 24⟩ r) (by decide)) hc hqc
    cases hc
    refine ⟨[], new, by rw [Node.continued?, if_pos htag], rfl, ?_⟩
    rw [Document.SparesInside]
    split
    next ha =>
      rw [ha] at helement
      cases helement
    next =>
      refine .inr ⟨List.cons_ne_nil _ _, fun hnil => ?_, .inr (.inl ?_)⟩
      · rw [hnil] at hchildren
        cases hchildren
      · exact hall (P := fun r => 24 ≤ r.start) (by decide)
  obtain ⟨t, ht, spot, hholds, havoids⟩ := Document.carries_asides hd new {}
  have hq : (⟨0, 10⟩ : Span) ∈ asides .html 0 s ∧ (⟨14, 24⟩ : Span) ∈ asides .html 0 s := by
    rw [hasides]
    decide
  exact ⟨d, t, spot ⟨0, 10⟩, spot ⟨14, 24⟩, hd, ht, hholds _ ⟨hq.1, hfront⟩,
    hholds _ ⟨hq.2, hinside⟩, havoids _ _ ⟨hq.1, hfront⟩ ⟨hq.2, hinside⟩ (.inl (by decide))⟩

/-- A comment between the items of a list is lost when an item comes behind them, although no node
around it is removed or replaced and no text is. -/
theorem Document.not_carries_asides :
    let s : Text := "<ul><li>a</li><!-- c --><li>b</li></ul>".toList
    let li (c : Char) : Node := .element ['l', 'i'] .empty .empty [.text [c]]
    let new : Node := .element ['u', 'l'] .empty .empty [li 'a', li 'b', li 'c']
    let q : Span := ⟨14, 24⟩
    new.IsNormalDocument ∧ q ∈ asides .html 0 s ∧ ∃ d t, Document.read .html s = .ok d ∧
      (∀ p c, d.at? p = some c → q.Within c.place.outer → ∃ p' n,
        Node.continued? d.root new p' = some p ∧ Tree.descend new p' = some n ∧
          ∀ a, c.root = .text a → n = .text a) ∧
      patchText s d (Node.diff d.root new) .html {} = .ok t ∧ ¬ ∃ r, t.Holds r (s.at q) := by
  intro s li new q
  have h : (Document.read .html s).toOption.map (fun d => (d.root.tag?, d.root.isElement,
      d.place.children.map Place.outer, (patchText s d (Node.diff d.root new) .html {}).toOption)) =
        some (new.tag?, true, [⟨4, 14⟩, ⟨24, 34⟩],
          some "<ul><li>a</li><li>b</li><li>c</li></ul>".toList) := by decide +kernel
  obtain ⟨d, hd, h⟩ := Option.map_eq_some_iff.1 h
  have hd := eq_ok_of_toOption hd
  simp only [Prod.mk.injEq] at h
  obtain ⟨htag, helement, hchildren, ht⟩ := h
  refine ⟨by decide, by decide +kernel, d, _, hd, fun p c hc hqc => ?_, eq_ok_of_toOption ht, ?_⟩
  · have hroot : ∀ p ∈ d.place.children, ¬ q.Within p.outer := fun p hp => by
      have hmem := List.mem_map_of_mem (f := Place.outer) hp
      rw [hchildren] at hmem
      revert hmem
      generalize p.outer = r
      revert r
      decide
    obtain rfl := (Document.isSound_read hd).eq_nil_of_within hroot hc hqc
    cases hc
    refine ⟨[], new, by rw [Node.continued?, if_pos htag], rfl, fun a ha => ?_⟩
    rw [ha] at helement
    cases helement
  · rintro ⟨r, a, b, hab, -⟩
    have hmem : '!' ∈ a ++ s.at q ++ b :=
      List.mem_append_left _ (List.mem_append_right _ (by decide +kernel))
    rw [← hab] at hmem
    exact absurd hmem (by decide)

end MarkupSync
