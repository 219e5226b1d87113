import MarkupSync.Proofs.Patch.Confined

/-!
# What patches keep

A patch writes the source of a node anew. What has not changed inside is copied.

* `Origin.shadow`: a node as it is in the source;
* `Shadow.HasNativeChildren`: the children of a node come from children of its origin;
* `Shadow.IsWrittenAs`: what a node is written as. A node that has not changed keeps its bytes, and
  children stand in the text of their parent, one behind the other;
* `Patcher.splices_ofSource`: there are no changes inside a node that has not changed;
* **`Patcher.rewrites_splices`**: the changes inside a node with an origin rewrite its bytes, and the
  node is written as the text they make;
* `Patcher.confined_splices`, `Patcher.confined_rootSplices`: changes stay in the place of the node,
  those of a document in the place of its root;
* **`Patcher.rewrites_rootSplices`**: a document is patched by writing its root.
-/

namespace MarkupSync

open Text

/-- The node as it is in the source. -/
def Origin.shadow (o : Origin) : Shadow := .ofSource o.path o.place o.node

namespace Shadow

/-- The children that have an origin come from children of the origin. -/
def HasNativeChildren (s : Shadow) : Prop :=
  ∀ o ∈ s.origin, ∀ c ∈ Tree.children s, ∀ o' ∈ c.origin, ∃ i, o'.path = o.path.child i

/-! ## Nodes in a text -/

variable (source : Text)

mutual

/-- A node of the source is written as `t`: as it was, if it has not changed, and its children
stand in it. Nothing is said of new nodes. -/
def IsWrittenAs : Shadow → Text → Prop
  | .text origin content, t => ∀ o ∈ origin,
    Shadow.text origin content = o.shadow → t = source.at o.place.outer
  | .element origin tag as st cs, t => ∀ o ∈ origin,
    (Shadow.element origin tag as st cs = o.shadow → t = source.at o.place.outer) ∧
      (HasNativeChildren (.element origin tag as st cs) → AreWrittenIn cs t)

/-- Nodes are written in a text, one behind the other. -/
def AreWrittenIn : List Shadow → Text → Prop
  | [], _ => True
  | s :: ss, t => ∃ gap part rest, t = gap ++ (part ++ rest) ∧ s.IsWrittenAs part ∧
    AreWrittenIn ss rest

end

variable {source} {s : Shadow} {ss : List Shadow} {t : Text}

theorem isWrittenAs_iff : s.IsWrittenAs source t ↔ ∀ o ∈ s.origin,
    (s = o.shadow → t = source.at o.place.outer) ∧
      (s.HasNativeChildren → AreWrittenIn source (Tree.children s) t) := by
  cases s with
  | text => exact forall₂_congr fun o _ => (and_iff_left fun _ => trivial).symm
  | element => exact .rfl

theorem isWrittenAs_of_origin (h : s.origin = none) : s.IsWrittenAs source t := by
  refine isWrittenAs_iff.2 fun o ho => ?_
  rw [h] at ho
  cases ho

theorem AreWrittenIn.between (h : AreWrittenIn source ss t) (a b : Text) :
    AreWrittenIn source ss (a ++ (t ++ b)) := by
  induction ss generalizing t a with
  | nil => trivial
  | cons s ss ih =>
    obtain ⟨gap, part, rest, rfl, hpart, hrest⟩ := h
    exact ⟨a ++ gap, part, rest ++ b, by simp, hpart, ih hrest []⟩

/-- New nodes are written in any text. -/
theorem areWrittenIn_of_origin (h : ∀ s ∈ ss, s.origin = none) (t : Text) :
    AreWrittenIn source ss t := by
  induction ss with
  | nil => trivial
  | cons s ss ih =>
    obtain ⟨hs, hss⟩ := List.forall_mem_cons.1 h
    exact ⟨[], [], t, rfl, isWrittenAs_of_origin hs, ih hss⟩

/-- The texts of nodes are put together. -/
theorem areWrittenIn_intercalate (separator : Text) {ts : List Text}
    (h : List.Forall₂ (IsWrittenAs source) ss ts) :
    AreWrittenIn source ss (separator.intercalate ts) := by
  induction h with
  | nil => trivial
  | @cons s t ss ts hs hss ih =>
    cases hss with
    | nil => exact ⟨[], t, [], by simp, hs, trivial⟩
    | @cons s' t' ss ts hs' hss =>
      rw [List.intercalate_cons_cons]
      refine ⟨[], t, separator ++ separator.intercalate (t' :: ts), by simp, hs, ?_⟩
      simpa using ih.between separator []

end Shadow

namespace Patcher

open Splice (AreConfined)

section Origins

variable {flavor : Flavor} {region : Span} {d : Document}

/-- Children that are kept in their order have the places of the children. -/
theorem forall₂_of_keepsChildren {o : Origin} (ho : o.IsOf d) {cs : List Shadow}
    (hcs : ∀ c ∈ cs, Shadow.IsGenuine d c)
    (hk : keepsChildren o.path o.place.children.length cs = true) :
    List.Forall₂ (fun c q => ∃ o, c.origin = some o ∧ o.place = q) cs o.place.children := by
  rw [keepsChildren, beq_iff_eq] at hk
  have hlen : cs.length = o.place.children.length := by simpa using congrArg List.length hk
  refine List.forall₂_iff_get.2 ⟨hlen, fun i hi hi' => ?_⟩
  have hpath : cs[i].origin.map Origin.path = some (o.path.child i) := by
    simpa [hi, hi'] using congrArg (fun ps => ps[i]?) hk
  obtain ⟨o', ho', hpath'⟩ := Option.map_eq_some_iff.1 hpath
  obtain ⟨hof, -⟩ := (hcs _ (List.getElem_mem hi)).isFrom o' ho'
  refine ⟨o', ho', ?_⟩
  rw [Origin.IsOf, hpath', Document.at?_child ho, Document.child?] at hof
  split at hof
  next n q _ hq =>
    cases hof
    exact Option.some.inj (hq.symm.trans (List.getElem?_eq_getElem hi'))
  next => cases hof

variable {p : Patcher}

/-! ## Nodes that have not changed -/

theorem splicesAll_eq_nil {raw : Bool} {ss : List Shadow} (h : ∀ s ∈ ss, p.splices raw s = .ok []) :
    p.splicesAll raw ss = .ok [] := by
  induction ss with
  | nil => rfl
  | cons s ss ih =>
    obtain ⟨hs, hss⟩ := List.forall_mem_cons.1 h
    rw [splicesAll, hs, ih hss]
    rfl

theorem tagSplices_self (h : Head) (place : ElementPlace) : p.tagSplices h h place = [] := by
  rw [tagSplices, if_pos]
  rw [Bool.and_eq_true, Attrs.same_iff, Attrs.same_iff]
  exact ⟨.refl _, .refl _⟩

/-- Children of the source are in their order. -/
theorem keepsChildren_ofSources (path : NodePath) (l : List (Node × Place)) :
    keepsChildren path (l.map Prod.snd).length
      (Shadow.ofSources path 0 (l.map Prod.snd) (l.map Prod.fst)) = true := by
  rw [keepsChildren, beq_iff_eq]
  refine List.ext_getElem? fun i => ?_
  rw [List.getElem?_map, Fits.getElem?_ofSources, List.getElem?_map, List.length_map, Option.map_map]
  cases hi : l[i]? with
  | none => simp [List.getElem?_eq_none_iff.1 hi]
  | some x => simp [(List.getElem?_eq_some_iff.1 hi).1, Fits.origin_ofSource]

/-- Where the children of an element are in their order, it changes in its tag and inside them. -/
theorem splices_of_keepsChildren {path : NodePath} {tag oldTag : Text} {as st bs rt : Attrs}
    {ns : List Node} {place : ElementPlace} {old : List Place} {cs : List Shadow} {es : List Splice}
    (hkeeps : keepsChildren path old.length cs = true) (hes : ∀ raw, p.splicesAll raw cs = .ok es)
    (htag : place.openTag = none → p.tagSplices ⟨as, st⟩ ⟨bs, rt⟩ place = [])
    (hleaf : place.inner = none → es = []) (raw : Bool) :
    p.splices raw
      (.element (some ⟨path, .element oldTag as st ns, .element place old⟩) tag bs rt cs) =
      .ok (p.tagSplices ⟨as, st⟩ ⟨bs, rt⟩ place ++ es) := by
  cases hinner : place.inner with
  | none => rw [splices_leaf hinner, if_pos hkeeps, hleaf hinner, List.append_nil]
  | some inner =>
    rw [splices_element hinner, contentSplices, if_pos hkeeps, hes]
    cases hopen : place.openTag with
    | none => rw [htag hopen]; rfl
    | some => rfl

/-- There are no changes inside a node that has not changed. -/
theorem splices_ofSource {x : Node × Place} (hx : Fits x) (raw : Bool) (path : NodePath) :
    p.splices raw (.ofSource path x.2 x.1) = .ok [] := by
  induction hx generalizing raw path with
  | text => rw [Shadow.ofSource, splices_text, if_pos rfl]
  | @element tag as st place l _ ih =>
    have hall (raw : Bool) : p.splicesAll raw
        (Shadow.ofSources path 0 (l.map Prod.snd) (l.map Prod.fst)) = .ok [] := by
      refine splicesAll_eq_nil fun c hc => ?_
      obtain ⟨i, x, hx, rfl⟩ := Fits.exists_of_mem_ofSources hc
      exact ih x (List.mem_of_getElem? hx) raw _
    rw [Shadow.ofSource, Place.children, splices_of_keepsChildren (keepsChildren_ofSources path l) hall
      (fun _ => tagSplices_self _ _) (fun _ => rfl), tagSplices_self]
    rfl

/-- What the changes inside a node make of its bytes is what the node is written as, if that is so
of its children. -/
theorem isWrittenAs_of_rewrites (hd : d.IsSound flavor p.source region) {raw : Bool} {s : Shadow}
    {o : Origin} (ho : s.origin = some o) (hof : o.IsOf d) {t t' : Text}
    (ht : p.source.Holds o.place.outer t) {es : List Splice} (hes : p.splices raw s = .ok es)
    (hrw : Rewrites o.place.outer.start t es t')
    (hcs : s.HasNativeChildren → Shadow.AreWrittenIn p.source (Tree.children s) t') :
    s.IsWrittenAs p.source t' := by
  refine Shadow.isWrittenAs_iff.2 fun o' ho' => ?_
  obtain rfl : o' = o := Option.some.inj (ho'.symm.trans ho)
  refine ⟨fun hs => ?_, hcs⟩
  have hfits : Fits (o'.node, o'.place) := (hd.at? hof).fits
  rw [hs, Origin.shadow, splices_ofSource hfits] at hes
  cases hes
  rw [hrw.eq_of_nil, ht.at_eq]

/-! ## Nodes with origins -/

/-- The children of an element without content are new. -/
theorem origin_of_closed {path : NodePath} {n : Node} {place : ElementPlace}
    (hof : Origin.IsOf d ⟨path, n, .element place []⟩) {s : Shadow}
    (ho : s.origin = some ⟨path, n, .element place []⟩)
    (hs : Shadow.IsGenuine d s) (hnative : s.HasNativeChildren) :
    ∀ c ∈ Tree.children s, c.origin = none := by
  intro c hc
  cases ho' : c.origin with
  | none => rfl
  | some o' =>
    obtain ⟨i, hi⟩ := hnative _ ho c hc o' ho'
    obtain ⟨hof', -⟩ := ((Shadow.hereditary_isGenuine.children hs c hc).isFrom o' ho')
    rw [Origin.IsOf, hi, Document.at?_child hof, Document.child?] at hof'
    split at hof'
    next q _ hq => cases hq
    next => cases hof'

/-- New and kept children together take the place of the old ones. -/
theorem rewrites_arrangement {source : Text} {inner : Span} {a : Arrangement}
    (hspan : source.IsRange inner a.span) {t : Text} (ht : source.Holds inner t)
    {cs : List Shadow} {ts : List Text} (hcs : List.Forall₂ (Shadow.IsWrittenAs source) cs ts) :
    ∃ t', Rewrites inner.start t [a.splice ts] t' ∧ Shadow.AreWrittenIn source cs t' := by
  obtain ⟨x, y, z, rfl, hx, hy, -⟩ := ht.exists_split hspan
  have hstart : a.span.start = inner.start + width x := hx.stop_eq
  have hrw := Rewrites.of_holds hy (a.front ++ a.separator.intercalate ts ++ a.back)
  rw [hstart] at hrw
  have hrw := hrw.between x z
  rw [List.append_assoc] at hrw
  refine ⟨_, hrw, ?_⟩
  have := (Shadow.areWrittenIn_intercalate a.separator hcs).between (x ++ a.front) (a.back ++ z)
  simpa only [List.append_assoc] using this

/-- An element is rewritten if its content is. -/
theorem rewrites_element {path : NodePath} {tag oldTag : Text} {as st oldAs oldSt : Attrs}
    {ns : List Node} {place : ElementPlace} {old : List Place} {cs : List Shadow}
    (he : place.IsSound flavor p.source region oldTag oldAs oldSt old) (raw : Bool) {t : Text}
    (ht : p.source.Holds place.outer t) {P : Text → Prop}
    (hP : ∀ a b t, P t → P (a ++ (t ++ b))) (hleaf : place.inner = none → ∀ t, P t)
    (hcontent : ∀ inner ∈ place.inner, ∀ t, p.source.Holds inner t → ∃ es t',
      p.contentSplices path place inner (p.keepsContent tag) old cs = .ok es ∧
        Rewrites inner.start t es t' ∧ P t') :
    ∃ es t', p.splices raw (.element (some ⟨path, .element oldTag oldAs oldSt ns,
        .element place old⟩) tag as st cs) = .ok es ∧
      Rewrites place.outer.start t es t' ∧ P t' := by
  have htag {r : Span} (hr : place.openTag = some r) : AreConfined p.source r.start r.stop
      (p.tagSplices ⟨oldAs, oldSt⟩ ⟨as, st⟩ place) := confined_tagSplices he hr
  cases hinner : place.inner with
  | none =>
    obtain ⟨hopen, -⟩ := he.closed hinner
    rw [splices_leaf hinner]
    split
    · obtain ⟨t', hrw⟩ := (htag hopen).exists_rewrites ht
      exact ⟨_, t', rfl, hrw, hleaf hinner t'⟩
    · exact ⟨_, _, rfl, .of_holds ht _, hleaf hinner _⟩
  | some inner =>
    obtain ⟨hrange, hwithin, -⟩ := he.inner inner hinner
    obtain ⟨a, b, c, rfl, ha, hb, -⟩ :=
      ht.exists_split ⟨hwithin, hrange.le, hrange.start, hrange.stop⟩
    obtain ⟨fs, b', hfs, hcontent, hb'⟩ := hcontent inner hinner b hb
    obtain ⟨a', hrw⟩ : ∃ a', Rewrites place.outer.start a
        (if place.openTag.isSome then p.tagSplices ⟨oldAs, oldSt⟩ ⟨as, st⟩ place else []) a' := by
      cases hopen : place.openTag with
      | none => exact ⟨a, .refl _ _⟩
      | some r =>
        obtain ⟨-, hstart, -, hstop⟩ := he.openTag r hopen
        have hconfined := htag hopen
        rw [hstart, ← hstop inner hinner] at hconfined
        exact hconfined.exists_rewrites ha
    have hstart : inner.start = place.outer.start + width a := ha.stop_eq
    rw [hstart] at hcontent
    refine ⟨_, _, by rw [splices_element hinner, hfs]; rfl, hrw.append_keep hcontent c, ?_⟩
    exact hP _ _ _ hb'

mutual

/-- **The changes inside a node with an origin rewrite its bytes**, and the node is written as the
text they make. -/
theorem rewrites_splices (hd : d.IsSound flavor p.source region) (raw : Bool) {s : Shadow}
    (hs : Shadow.IsGenuine d s) {o : Origin} (ho : s.origin = some o) {t : Text}
    (ht : p.source.Holds o.place.outer t) : ∃ es t', p.splices raw s = .ok es ∧
      Rewrites o.place.outer.start t es t' ∧ s.IsWrittenAs p.source t' := by
  obtain ⟨hof, hkind⟩ := hs.isFrom o ho
  have hsound := hd.at? hof
  -- it is enough to find the children in the text
  suffices h : ∃ es t', p.splices raw s = .ok es ∧ Rewrites o.place.outer.start t es t' ∧
      (s.HasNativeChildren → Shadow.AreWrittenIn p.source (Tree.children s) t') by
    obtain ⟨es, t', hes, hrw, hcs⟩ := h
    exact ⟨es, t', hes, hrw, isWrittenAs_of_rewrites hd ho hof ht hes hrw hcs⟩
  obtain ⟨path, node, place⟩ := o
  cases s with
  | text origin content =>
    cases ho
    cases node <;> cases place
    case text.text old span =>
      rw [splices_text]
      split
      · exact ⟨[], t, rfl, .refl _ _, fun _ => trivial⟩
      · exact ⟨_, _, rfl, .of_holds ht _, fun _ => trivial⟩
    case text.element => exact hsound.elim
    all_goals cases hkind
  | element origin tag as st cs =>
    cases ho
    cases node <;> cases place
    case element.element oldTag oldAs oldSt ns place old =>
      obtain ⟨he, hplaces⟩ := hsound
      have hcs := (Shadow.isGenuine_element.1 hs).2
      refine rewrites_element he raw ht (fun a b t h hnative => (h hnative).between a b)
        (fun hinner t hnative => ?_) fun inner hinner t ht => ?_
      · obtain ⟨-, rfl⟩ := he.closed hinner
        exact Shadow.areWrittenIn_of_origin (origin_of_closed hof rfl hs hnative) t
      obtain ⟨hrange, -, horder⟩ := he.inner inner hinner
      rw [contentSplices]
      split
      next hk =>
        obtain ⟨es, t', hes, hrw, hin⟩ := rewrites_splicesAll hd (p.keepsContent tag) hcs
          (forall₂_of_keepsChildren hof hcs hk) horder ht
        exact ⟨es, t', hes, hrw, fun _ => hin⟩
      next =>
        split
        next hempty =>
          refine ⟨_, [], rfl, .of_holds ht _, fun _ => ?_⟩
          rw [List.isEmpty_iff.1 hempty]
          trivial
        next =>
          obtain ⟨ts, hts, hin⟩ := written_parts hd (p.keepsContent tag)
            (p.arrangement place inner old cs).indent hcs
          have hspan := isRange_arrangement p place cs hrange hplaces.isRange horder
          obtain ⟨t', hrw, hin⟩ := rewrites_arrangement hspan ht hin
          simp only [hts]
          exact ⟨_, t', rfl, hrw, fun _ => hin⟩
    case element.text => exact hsound.elim
    all_goals cases hkind

/-- The changes inside nodes rewrite what stands from the first to the last. -/
theorem rewrites_splicesAll (hd : d.IsSound flavor p.source region) (raw : Bool) {ss : List Shadow}
    (hss : ∀ s ∈ ss, Shadow.IsGenuine d s) {places : List Place}
    (hplaces : List.Forall₂ (fun c q => ∃ o, c.origin = some o ∧ o.place = q) ss places)
    {lo hi : Nat} (h : InOrder lo hi (places.map Place.outer)) {t : Text}
    (ht : p.source.Holds ⟨lo, hi⟩ t) : ∃ es t', p.splicesAll raw ss = .ok es ∧
      Rewrites lo t es t' ∧ Shadow.AreWrittenIn p.source ss t' := by
  cases ss with
  | nil =>
    exact ⟨[], t, rfl, .refl _ _, trivial⟩
  | cons s ss =>
    obtain ⟨hs, hss⟩ := List.forall_mem_cons.1 hss
    obtain ⟨q, places, ⟨o, ho, rfl⟩, hrestPlaces, rfl⟩ := List.forall₂_cons_left_iff.1 hplaces
    obtain ⟨hlo, -, hrest⟩ := inOrder_cons.1 h
    have hrange := (hd.at? (hs.isFrom o ho).1).isRange
    obtain ⟨gap, part, rest, rfl, hgap, hpart, htail⟩ :=
      ht.exists_split ⟨⟨hlo, hrest.le⟩, hrange.le, hrange.start, hrange.stop⟩
    obtain ⟨es, part', hes, hrw, hin⟩ := rewrites_splices hd raw hs ho hpart
    obtain ⟨fs, rest', hfs, hrws, hins⟩ := rewrites_splicesAll hd raw hss hrestPlaces hrest htail
    refine ⟨es ++ fs, gap ++ (part' ++ rest'), ?_, .keep gap ?_, gap, part', rest', rfl, hin, hins⟩
    · simp only [splicesAll, hes, hfs, Except.map]
    · rw [hpart.stop_eq] at hrws
      rw [← hgap.stop_eq]
      exact hrw.append hrws

/-- The texts of children can always be written, and children are written as them. -/
theorem written_parts (hd : d.IsSound flavor p.source region) (raw : Bool) (indent : Text)
    {ss : List Shadow} (hss : ∀ s ∈ ss, Shadow.IsGenuine d s) :
    ∃ ts, p.parts raw indent ss = .ok ts ∧
      List.Forall₂ (Shadow.IsWrittenAs p.source) ss ts := by
  cases ss with
  | nil => exact ⟨[], rfl, .nil⟩
  | cons s ss =>
    obtain ⟨hs, hss⟩ := List.forall_mem_cons.1 hss
    obtain ⟨ts, hts, hin⟩ := written_parts hd raw indent hss
    cases ho : s.origin with
    | none =>
      refine ⟨p.fresh raw indent s.toNode :: ts, ?_, .cons (Shadow.isWrittenAs_of_origin ho) hin⟩
      simp only [parts, ho, hts, Except.map]
    | some o =>
      obtain ⟨part, hpart⟩ := (hd.at? (hs.isFrom o ho).1).isRange.exists_holds
      obtain ⟨es, t, hes, hrw, ht⟩ := rewrites_splices hd raw hs ho hpart
      have happly := (Rewrites.shift (n := 0) hrw).applyAll
      rw [← hpart.at_eq] at happly
      refine ⟨t :: ts, ?_, .cons ht hin⟩
      simp only [parts, ho, hes, happly, hts, Except.map, Except.mapError]

end

/-- The changes inside a node with an origin stay in its place. -/
theorem confined_splices (hd : d.IsSound flavor p.source region) (raw : Bool) {s : Shadow}
    (hs : Shadow.IsGenuine d s) {o : Origin} (ho : s.origin = some o) :
    ∃ es, p.splices raw s = .ok es ∧
      AreConfined p.source o.place.outer.start o.place.outer.stop es := by
  obtain ⟨t, ht⟩ := (hd.at? (hs.isFrom o ho).1).isRange.exists_holds
  obtain ⟨es, t', hes, hrw, -⟩ := rewrites_splices hd raw hs ho ht
  exact ⟨es, hes, .of_rewrites hrw ht⟩

/-- A new root stands in the place of the old one. -/
theorem isRange_documentSpan (hd : d.IsSound flavor p.source region) :
    p.source.IsRange d.place.outer (documentSpan d.place) := by
  have houter : p.source.IsRange d.place.outer d.place.outer := hd.isRange.self
  obtain ⟨n, place⟩ := d
  cases place with
  | text => exact houter
  | element e places =>
    cases places with
    | nil => exact houter
    | cons first rest =>
      rw [documentSpan]
      split
      next hopen =>
        cases n with
        | text => exact hd.elim
        | element tag as st ns =>
          obtain ⟨he, hplaces⟩ := hd
          cases hinner : e.inner with
          | none =>
            rw [(he.closed hinner).1] at hopen
            cases hopen
          | some inner =>
            obtain ⟨-, hwithin, horder⟩ := he.inner inner hinner
            exact isRange_hull hplaces.isRange (horder.mono hwithin.1 hwithin.2)
      next => exact houter

/-- **The changes of a document stay in the place of its root.** -/
theorem confined_rootSplices (hd : d.IsSound flavor p.source region) {s : Shadow}
    (hs : Shadow.IsGenuine d s) : ∃ es, p.rootSplices d.place s = .ok es ∧
      AreConfined p.source d.place.outer.start d.place.outer.stop es := by
  rw [rootSplices]
  split
  next o ho =>
    obtain ⟨es, hes, hin⟩ := confined_splices hd false hs ho
    obtain ⟨hlo, hhi⟩ := hd.within_at? (hs.isFrom o ho).1
    exact ⟨es, hes, hin.mono hlo hhi⟩
  next => exact ⟨_, rfl, .single (isRange_documentSpan hd) _⟩

/-- **A document is patched by writing its root**, which stands in the new text. -/
theorem rewrites_rootSplices (hd : d.IsSound flavor p.source region) {s : Shadow}
    (hs : Shadow.IsGenuine d s) : ∃ es t, p.rootSplices d.place s = .ok es ∧
      Rewrites 0 p.source es t ∧ Shadow.AreWrittenIn p.source [s] t := by
  cases ho : s.origin with
  | none =>
    obtain ⟨es, hes, hin⟩ := confined_rootSplices hd hs
    have hstop : d.place.outer.stop ≤ width p.source :=
      hd.isRange.exists_holds.elim fun _ h => h.stop_le
    obtain ⟨t, hrw⟩ := (hin.mono (Nat.zero_le _) hstop).exists_rewrites (.self p.source)
    exact ⟨es, t, hes, hrw, Shadow.areWrittenIn_of_origin (List.forall_mem_singleton.2 ho) t⟩
  | some o =>
    have hrange := (hd.at? (hs.isFrom o ho).1).isRange
    have hstop : o.place.outer.stop ≤ width p.source :=
      hrange.exists_holds.elim fun _ h => h.stop_le
    obtain ⟨a, b, c, hsource, ha, hb, -⟩ := (Holds.self p.source).exists_split
      ⟨⟨Nat.zero_le _, hstop⟩, hrange.le, hrange.start, hrange.stop⟩
    obtain ⟨es, b', hes, hrw, hwritten⟩ := rewrites_splices hd false hs ho hb
    have hstart : o.place.outer.start = 0 + width a := ha.stop_eq
    rw [hstart] at hrw
    refine ⟨es, a ++ b' ++ c, by rw [rootSplices, ho]; exact hes, ?_, a, b', c, by simp, hwritten,
      trivial⟩
    have := hrw.between a c
    rwa [List.append_assoc, ← hsource] at this

end Origins

end Patcher

end MarkupSync
