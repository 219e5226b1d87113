import MarkupSync.Proofs.Document.Indent
import MarkupSync.Proofs.Lexeme.Places
import MarkupSync.Proofs.Tree.Everywhere

/-!
# Places of documents

* `AttrPlace.IsSound`, `ElementPlace.IsSound`: the ranges of attributes and elements are whole
  characters of a region and lie in one another as the parts of markup do;
* `AttrPlace.Says`: what the bytes of an attribute say;
* `Node.StandsAt`: a place with the shape of a node and sound ranges throughout;
* `TagContent.Records`: what the attributes of a tag say is recorded where they stand;
* `OpenTag.Stands.standsAt_element`: the elements of open tags;
* `runSpan_spec`: where the text of a run stands.
-/

namespace MarkupSync

open Text

variable {flavor : Flavor} {source : Text} {region : Span}

/-! ## Sound places -/

/-- The bytes of an attribute end with its value, and not with a blank. -/
structure AttrPlace.IsSound (source : Text) (region : Span) (a : AttrPlace) : Prop where
  span : source.IsRange region a.span
  value : ∀ v ∈ a.value, source.IsRange region v ∧ a.span.start ≤ v.start ∧ v.stop = a.span.stop
  ink : source.at a.span ≠ [] ∧ EndsInk (source.at a.span)

/-- The bytes of an attribute are one attribute, of its key and with the meaning `m`. -/
def AttrPlace.Says (flavor : Flavor) (source : Text) (a : AttrPlace) (m : AttrMeaning) : Prop :=
  ∃ raw stop, tagBody flavor 0 .nothing (source.at a.span ++ ['>']) =
      .ok ⟨[raw], ⟨stop, stop + 1⟩, false, []⟩ ∧
    flavor.key raw.name = a.key ∧ AttrMeaning.of a.key raw.value = m

/-- The ranges of an element lie in one another as its parts do, and its attributes stand where they
are recorded. -/
structure ElementPlace.IsSound (flavor : Flavor) (source : Text) (region : Span) (tag : Text)
    (as st : Attrs) (e : ElementPlace) (children : List Place) : Prop where
  outer : source.IsRange region e.outer
  /-- The children stand one behind the other between the tags. -/
  inner : ∀ r ∈ e.inner, source.IsRange region r ∧ r.Within e.outer ∧
    InOrder r.start r.stop (children.map Place.outer)
  closed : e.inner = none → e.openTag = some e.outer ∧ children = []
  /-- The open tag is what the element starts with, up to its content. -/
  openTag : ∀ t ∈ e.openTag, source.IsRange region t ∧ t.start = e.outer.start ∧ t.Within e.outer ∧
    ∀ r ∈ e.inner, r.start = t.stop
  named : ∀ t ∈ e.openTag, source.Holds ⟨t.start, t.start + 1 + width tag⟩ ('<' :: tag)
  /-- The attributes stand one behind the other in the open tag, behind its name. -/
  order : ∀ t ∈ e.openTag, InOrder (t.start + 1 + width tag) t.stop
    (e.attributes.map AttrPlace.span ++ [⟨e.attrsEnd, e.attrsEnd⟩])
  attrsEnd : source.IsRange region ⟨e.attrsEnd, e.attrsEnd⟩
  wrapping : e.openTag = none → e.attributes = []
  attributes : ∀ a ∈ e.attributes, a.IsSound source region
  entries : ∀ entry ∈ as.entries, ∃ a ∈ e.attributes,
    a.key = entry.1 ∧ a.Says flavor source (.value entry.2)
  style : st.isEmpty = false → ∃ a ∈ e.attributes,
    a.key = styleName ∧ a.Says flavor source (.declarations st)

namespace ElementPlace.IsSound

variable {tag : Text} {as st : Attrs} {e : ElementPlace} {children : List Place} {q : Place}

/-- An element with children has content between its tags. -/
theorem exists_inner (h : e.IsSound flavor source region tag as st children) (hq : q ∈ children) :
    ∃ r, e.inner = some r ∧ r.Within e.outer ∧
      InOrder r.start r.stop (children.map Place.outer) := by
  cases hinner : e.inner with
  | none =>
    rw [(h.closed hinner).2] at hq
    cases hq
  | some r => exact ⟨r, rfl, (h.inner r hinner).2⟩

theorem child_within (h : e.IsSound flavor source region tag as st children) (hq : q ∈ children) :
    q.outer.Within e.outer := by
  obtain ⟨r, -, hwithin, horder⟩ := h.exists_inner hq
  obtain ⟨hlo, -, hhi⟩ := horder.of_mem (List.mem_map_of_mem hq)
  exact ⟨Nat.le_trans hwithin.1 hlo, Nat.le_trans hhi hwithin.2⟩

end ElementPlace.IsSound

namespace Node

variable (flavor source region) in
mutual

/-- The place of a node has its shape and is sound throughout. -/
def StandsAt : Node → Place → Prop
  | .text _, .text span => source.IsRange region span
  | .element tag attributes style children, .element e places =>
    e.IsSound flavor source region tag attributes style places ∧ StandAt children places
  | _, _ => False

/-- The places of nodes have their shapes and are sound throughout. -/
def StandAt : List Node → List Place → Prop
  | [], [] => True
  | n :: ns, p :: ps => StandsAt n p ∧ StandAt ns ps
  | _, _ => False

end

theorem standAt_iff {l : List (Node × Place)} :
    StandAt flavor source region (l.map Prod.fst) (l.map Prod.snd) ↔
      ∀ x ∈ l, x.1.StandsAt flavor source region x.2 := by
  induction l with
  | nil => simp [StandAt]
  | cons x l ih => rw [List.map_cons, List.map_cons, StandAt, ih, List.forall_mem_cons]

theorem StandAt.length {ns : List Node} {ps : List Place} (h : StandAt flavor source region ns ps) :
    ns.length = ps.length := by
  induction ns generalizing ps with
  | nil => cases ps with
    | nil => rfl
    | cons => exact h.elim
  | cons n ns ih => cases ps with
    | nil => exact h.elim
    | cons p ps => exact congrArg (· + 1) (ih h.2)

theorem StandAt.of_getElem? {ns : List Node} {ps : List Place} (h : StandAt flavor source region ns ps)
    {i : Nat} {n : Node} {p : Place} (hn : ns[i]? = some n) (hp : ps[i]? = some p) :
    n.StandsAt flavor source region p := by
  induction ns generalizing ps i with
  | nil => cases hn
  | cons m ns ih => cases ps with
    | nil => cases hp
    | cons q ps => cases i with
      | zero =>
        cases hn
        cases hp
        exact h.1
      | succ i => exact ih h.2 hn hp

/-- A node stands within the region. -/
theorem StandsAt.isRange {n : Node} {p : Place} (h : n.StandsAt flavor source region p) :
    source.IsRange region p.outer := by
  cases n <;> cases p
  case text.text => exact h
  case element.element => exact h.1.outer
  all_goals exact h.elim

theorem StandAt.isRange {ns : List Node} {ps : List Place} (h : StandAt flavor source region ns ps) :
    ∀ p ∈ ps, source.IsRange region p.outer := by
  induction ps generalizing ns with
  | nil => exact nofun
  | cons p ps ih => cases ns with
    | nil => exact h.elim
    | cons n ns => exact List.forall_mem_cons.2 ⟨h.1.isRange, ih h.2⟩

end Node

/-- The places of a document have its shape and are sound throughout. -/
def Document.IsSound (flavor : Flavor) (source : Text) (region : Span) (d : Document) : Prop :=
  d.root.StandsAt flavor source region d.place

/-! ## Attributes -/

/-- Where an attribute is recorded. -/
def RawAttribute.place (flavor : Flavor) (a : RawAttribute) : AttrPlace :=
  ⟨flavor.key a.name, a.span, a.value.map RawValue.span⟩

/-- What attributes say is recorded where they stand. -/
structure TagContent.Records (flavor : Flavor) (as : List RawAttribute) (c : TagContent) : Prop where
  places : c.places.Sublist (as.map (RawAttribute.place flavor))
  entries : ∀ e ∈ c.attributes.entries, ∃ a ∈ as, a.place flavor ∈ c.places ∧
    flavor.key a.name = e.1 ∧ AttrMeaning.of e.1 a.value = .value e.2
  style : c.style.isEmpty = false → ∃ a ∈ as, a.place flavor ∈ c.places ∧
    flavor.key a.name = styleName ∧ AttrMeaning.of styleName a.value = .declarations c.style

/-- Only a `style` attribute has declarations. -/
theorem AttrMeaning.eq_styleName {key : Text} {value : Option RawValue} {style : Attrs}
    (h : AttrMeaning.of key value = .declarations style) : key = styleName := by
  revert h
  fun_cases AttrMeaning.of key value with
  | case2 raw _ style' hread =>
    intro _
    by_contra hkey
    rw [if_neg hkey] at hread
    cases hread
  | case4 raw _ hkey => exact fun _ => hkey
  | _ => rintro ⟨⟩

theorem TagContent.Records.add {as : List RawAttribute} {c : TagContent} (h : c.Records flavor as)
    (a : RawAttribute) : (c.add flavor a).Records flavor (as ++ [a]) := by
  have hmem : ∀ b ∈ as, b ∈ as ++ [a] := fun b hb => List.mem_append_left _ hb
  have hplaces : (c.places ++ [a.place flavor]).Sublist
      ((as ++ [a]).map (RawAttribute.place flavor)) := by
    rw [List.map_append]
    exact h.places.append (.refl _)
  have hplace : ∀ p ∈ c.places, p ∈ c.places ++ [a.place flavor] := fun p hp =>
    List.mem_append_left _ hp
  have hlast : a.place flavor ∈ c.places ++ [a.place flavor] :=
    List.mem_append_right _ (List.mem_singleton_self _)
  simp only [TagContent.add]
  split
  · refine ⟨?_, fun e he => ?_, fun hs => ?_⟩
    · rw [List.map_append]
      exact h.places.trans (List.sublist_append_left _ _)
    · obtain ⟨b, hb, hrest⟩ := h.entries e he
      exact ⟨b, hmem b hb, hrest⟩
    · obtain ⟨b, hb, hrest⟩ := h.style hs
      exact ⟨b, hmem b hb, hrest⟩
  · split
    next value hvalue =>
      refine ⟨hplaces, fun e he => ?_, fun hs => ?_⟩
      · obtain rfl | ⟨-, he⟩ := Attrs.mem_entries_insert.1 he
        · exact ⟨a, List.mem_append_right _ (List.mem_singleton_self _), hlast, rfl, hvalue⟩
        · obtain ⟨b, hb, hp, hrest⟩ := h.entries e he
          exact ⟨b, hmem b hb, hplace _ hp, hrest⟩
      · obtain ⟨b, hb, hp, hrest⟩ := h.style hs
        exact ⟨b, hmem b hb, hplace _ hp, hrest⟩
    next style hstyle =>
      have hkey := AttrMeaning.eq_styleName hstyle
      refine ⟨hplaces, fun e he => ?_, fun hs => ?_⟩
      · obtain ⟨b, hb, hp, hrest⟩ := h.entries e he
        exact ⟨b, hmem b hb, hplace _ hp, hrest⟩
      · exact ⟨a, List.mem_append_right _ (List.mem_singleton_self _), hlast, hkey, hkey ▸ hstyle⟩

variable (flavor) in
/-- What the attributes of a tag say is recorded where they stand. -/
theorem OpenTag.records_content (t : OpenTag) : (t.content flavor).Records flavor t.attributes := by
  have run {as bs : List RawAttribute} {c : TagContent} (h : c.Records flavor as) :
      (bs.foldl (TagContent.add flavor) c).Records flavor (as ++ bs) := by
    induction bs generalizing as c with
    | nil => rwa [List.append_nil]
    | cons b bs ih =>
      rw [List.foldl_cons, List.append_cons]
      exact ih (h.add b)
  exact @run [] t.attributes _ ⟨.refl _, by rintro e ⟨⟩, by rintro ⟨⟩⟩

/-- An attribute that stands in the source is recorded soundly. -/
theorem RawAttribute.Stands.isSound {a : RawAttribute} (h : a.Stands flavor source)
    (ha : a.span.Within region) : (a.place flavor).IsSound source region := by
  obtain ⟨⟨u, hu, hne, hink, -⟩, hvalue⟩ := h
  refine ⟨hu.isRange ha, fun v hv => ?_, ?_⟩
  · obtain ⟨w, hw, rfl⟩ := Option.map_eq_some_iff.1 hv
    obtain ⟨⟨x, hx⟩, hstart⟩ := hvalue w hw
    have hstop : w.span.stop = a.span.stop := by
      rw [RawAttribute.span, hw]
    exact ⟨hx.isRange ⟨Nat.le_trans ha.1 hstart, hstop ▸ ha.2⟩, hstart, hstop⟩
  · show source.at a.span ≠ [] ∧ EndsInk (source.at a.span)
    rw [hu.at_eq]
    exact ⟨hne, hink⟩

/-- The bytes of an attribute say what was read from it. -/
theorem RawAttribute.Stands.meaning {a : RawAttribute} (h : a.Stands flavor source) {m : AttrMeaning}
    (hm : AttrMeaning.of (flavor.key a.name) a.value = m) : (a.place flavor).Says flavor source m := by
  obtain ⟨⟨u, hu, -, -, b, hb, hwritten⟩, -⟩ := h
  obtain ⟨hname, hvalue⟩ := Prod.mk.inj hwritten
  refine ⟨b, width u, ?_, congrArg flavor.key hname, ?_⟩
  · show tagBody flavor 0 .nothing (source.at a.span ++ ['>']) = _
    rw [hu.at_eq]
    exact hb
  · rw [← hm]
    exact AttrMeaning.of_congr _ hvalue

/-! ## Elements -/

/-- Behind ranges in order comes the end of the last one. -/
theorem InOrder.concat_stop {lo hi : Nat} {rs : List Span} (h : InOrder lo hi rs) :
    InOrder lo hi (rs ++ [⟨(rs.getLast?.map Span.stop).getD lo, (rs.getLast?.map Span.stop).getD lo⟩])
    := by
  induction rs generalizing lo with
  | nil => exact ⟨Nat.le_refl _, Nat.le_refl _, h⟩
  | cons r rs ih =>
    obtain ⟨hlo, hr, hrs⟩ := inOrder_cons.1 h
    refine ⟨hlo, hr, ?_⟩
    have := ih hrs
    rw [List.getLast?_cons]
    cases hlast : rs.getLast? with
    | none => rwa [hlast] at this
    | some q => rwa [hlast] at this

namespace OpenTag

variable {t : OpenTag}

theorem attrsEnd_eq (t : OpenTag) :
    t.attrsEnd = (((t.attributes.map RawAttribute.span).getLast?).map Span.stop).getD
      t.nameSpan.stop := by
  rw [attrsEnd, List.getLast?_map]
  cases t.attributes.getLast? <;> rfl

/-- An open tag holds its name. -/
theorem Stands.nameSpan (h : t.Stands flavor source) :
    t.nameSpan = ⟨t.nameSpan.start, t.nameSpan.start + 1 + width t.name⟩ := by
  have hstop := h.name.stop_eq
  rw [width_cons, show '<'.utf8Size = 1 from rfl, ← Nat.add_assoc] at hstop
  rw [← hstop]

theorem Stands.span_le (h : t.Stands flavor source) : t.span.start ≤ t.span.stop := by
  obtain ⟨u, hu⟩ := h.closing
  exact Nat.le_trans h.name.le (Nat.le_trans h.order.le hu.le)

theorem Stands.isRange (h : t.Stands flavor source) (ht : t.span.Within region) :
    source.IsRange region t.span := by
  obtain ⟨u, hu⟩ := h.closing
  exact ⟨ht, h.span_le, h.name.boundary_start, hu.boundary_stop⟩

/-- Attributes end between two characters. -/
theorem Stands.boundary_attrsEnd (h : t.Stands flavor source) : Boundary t.attrsEnd source := by
  rw [attrsEnd]
  split
  · exact h.name.boundary_stop
  next a ha =>
    obtain ⟨u, hu, -⟩ := (h.attributes a (List.mem_of_getLast? ha)).text
    exact hu.boundary_stop

/-- **The element of an open tag** with its children between its tags, or without children. -/
theorem Stands.standsAt_element (h : t.Stands flavor source) {stop : Nat} {inner : Option Span}
    {children : List (Node × Place)} (houter : source.IsRange region ⟨t.nameSpan.start, stop⟩)
    (hstop : t.closing.stop ≤ stop)
    (hchildren : ∀ x ∈ children, x.1.StandsAt flavor source region x.2)
    (hclosed : inner = none → stop = t.closing.stop ∧ children = [])
    (hinner : ∀ r ∈ inner, r.start = t.closing.stop ∧ r.stop ≤ stop ∧ Boundary r.stop source ∧
      InOrder r.start r.stop (children.map fun x => x.2.outer)) :
    (t.element flavor stop inner children).1.StandsAt flavor source region
      (t.element flavor stop inner children).2 := by
  have hwithin := houter.within
  have hrecords := t.records_content flavor
  obtain ⟨u, hclosing⟩ := h.closing
  have hspan : source.IsRange region t.span :=
    h.isRange ⟨hwithin.1, Nat.le_trans hstop hwithin.2⟩
  have hraw (a : RawAttribute) (ha : a ∈ t.attributes) : a.span.Within region := by
    obtain ⟨hlo, -, hhi⟩ := h.order.of_mem (List.mem_map_of_mem ha)
    exact ⟨Nat.le_trans hwithin.1 (Nat.le_trans h.name.le hlo),
      Nat.le_trans hhi (Nat.le_trans hclosing.le (Nat.le_trans hstop hwithin.2))⟩
  have horder : InOrder t.nameSpan.stop t.closing.start
      ((t.content flavor).places.map AttrPlace.span ++ [⟨t.attrsEnd, t.attrsEnd⟩]) := by
    rw [attrsEnd_eq]
    refine h.order.concat_stop.sublist (List.Sublist.append ?_ (.refl _))
    have := hrecords.places.map AttrPlace.span
    rwa [List.map_map] at this
  have hplace {p : AttrPlace} (hp : p ∈ (t.content flavor).places) :
      ∃ a ∈ t.attributes, a.place flavor = p := List.mem_map.1 (hrecords.places.subset hp)
  refine ⟨⟨houter, ?inner, ?closed, ?openTag, ?named, ?order, ?attrsEnd, by rintro ⟨⟩, ?attributes,
    ?entries, ?style⟩, Node.standAt_iff.2 hchildren⟩
  case inner =>
    intro r hr
    obtain ⟨hstart, hle, hboundary, hin⟩ := hinner r hr
    have hlo : t.nameSpan.start ≤ r.start := hstart ▸ hspan.le
    refine ⟨⟨⟨Nat.le_trans hwithin.1 hlo, Nat.le_trans hle hwithin.2⟩, hin.le,
      hstart ▸ hspan.stop, hboundary⟩, ⟨hlo, hle⟩, ?_⟩
    rwa [List.map_map]
  case closed =>
    intro hnone
    obtain ⟨rfl, rfl⟩ := hclosed hnone
    exact ⟨rfl, rfl⟩
  case openTag =>
    rintro _ ⟨⟩
    exact ⟨hspan, rfl, ⟨Nat.le_refl _, hstop⟩, fun r hr => (hinner r hr).1⟩
  case named =>
    rintro _ ⟨⟩
    have := h.name
    rwa [h.nameSpan] at this
  case order =>
    rintro _ ⟨⟩
    exact horder.mono (Nat.le_of_eq (congrArg Span.stop h.nameSpan).symm) hclosing.le
  case attrsEnd =>
    obtain ⟨hlo, -, hhi⟩ := horder.of_mem (List.mem_append_right _ (List.mem_singleton_self _))
    refine ⟨⟨Nat.le_trans hwithin.1 (Nat.le_trans h.name.le hlo),
      Nat.le_trans hhi (Nat.le_trans hclosing.le (Nat.le_trans hstop hwithin.2))⟩, Nat.le_refl _,
      ?_, ?_⟩ <;> exact h.boundary_attrsEnd
  case attributes =>
    intro p hp
    obtain ⟨a, ha, rfl⟩ := hplace hp
    exact (h.attributes a ha).isSound (hraw a ha)
  case entries =>
    intro e he
    obtain ⟨a, ha, hp, hkey, hvalue⟩ := hrecords.entries e he
    exact ⟨a.place flavor, hp, hkey, (h.attributes a ha).meaning (hkey ▸ hvalue)⟩
  case style =>
    intro hst
    obtain ⟨a, ha, hp, hkey, hvalue⟩ := hrecords.style hst
    exact ⟨a.place flavor, hp, hkey, (h.attributes a ha).meaning (hkey ▸ hvalue)⟩

end OpenTag

/-! ## Runs of text -/

/-- The bytes of a piece of text. -/
def pieceSpan (piece : Text × Nat) : Span := ⟨piece.2, piece.2 + width piece.1⟩

/-- What is left of a piece without the blanks around it stands in the piece. -/
theorem trimmedPiece?_spec {piece : Text × Nat} (h : source.Holds (pieceSpan piece) piece.1)
    {r : Span} (hr : trimmedPiece? piece = some r) :
    r.Within (pieceSpan piece) ∧ ∃ t, source.Holds r t := by
  simp only [trimmedPiece?] at hr
  split_ifs at hr
  cases hr
  exact ⟨h.shift_within (holds_trimmedSpan _), _, h.trans (holds_trimmedSpan _)⟩

/-- **The text of a run stands in the run**, between two characters. -/
theorem runSpan_spec {pieces : List (Text × Nat)} (hne : pieces ≠ []) {lo hi : Nat}
    (horder : InOrder lo hi (pieces.map pieceSpan))
    (h : ∀ piece ∈ pieces, source.Holds (pieceSpan piece) piece.1) :
    InOrder lo hi [runSpan pieces] ∧ Boundary (runSpan pieces).start source ∧
      Boundary (runSpan pieces).stop source := by
  have htrimmed : InOrder lo hi (pieces.filterMap trimmedPiece?) :=
    horder.filterMap fun piece hp r hr => by
      obtain ⟨hwithin, t, ht⟩ := trimmedPiece?_spec (h piece hp) hr
      exact ⟨hwithin, ht.le⟩
  have hholds : ∀ r ∈ pieces.filterMap trimmedPiece?, ∃ t, source.Holds r t := fun r hr => by
    obtain ⟨piece, hp, hr⟩ := List.mem_filterMap.1 hr
    exact (trimmedPiece?_spec (h piece hp) hr).2
  have hfirst : pieces.findSome? trimmedPiece? = (pieces.filterMap trimmedPiece?).head? := by
    rw [List.head?_filterMap]
  have hlast : pieces.reverse.findSome? trimmedPiece? =
      (pieces.filterMap trimmedPiece?).getLast? := by
    rw [List.getLast?_filterMap]
  unfold runSpan
  rw [hfirst, hlast]
  split
  next first last hfirst hlast =>
    obtain ⟨t, ht⟩ := hholds first (List.mem_of_head? hfirst)
    obtain ⟨u, hu⟩ := hholds last (List.mem_of_getLast? hlast)
    have hull := htrimmed.hull hfirst hlast
    exact ⟨hull, ht.boundary_start, hu.boundary_stop⟩
  next =>
    -- all pieces are blank
    match pieces, hne with
    | (piece, start) :: pieces, _ =>
      have hp := h _ List.mem_cons_self
      obtain ⟨hlo, hle, hrest⟩ := inOrder_cons.1 horder
      exact ⟨⟨hlo, hle, hrest.le⟩, hp.boundary_start, hp.boundary_stop⟩

end MarkupSync
