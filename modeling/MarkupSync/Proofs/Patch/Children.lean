import MarkupSync.Patch.Splices
import MarkupSync.Proofs.Document.Pieces
import MarkupSync.Proofs.Patch.Derived
import MarkupSync.Proofs.Patch.Tag
import MarkupSync.Proofs.Printer.Indent

/-!
# Patched children

* `Node.IsTarget`: nodes that patches can make of a source;
* `Patcher.fresh_eq`: a new node is printed;
* `Patcher.Patches`: the changes in a piece make it a piece of the new node;
* `exists_splicesAll`, `exists_parts`: children that are kept in their order, and others;
* `exists_arrangement`: where new children are put;
* **`exists_contentSplices`**: the changes of content make it content of the new children;
* **`Patcher.exists_read_fresh`**: the text of a new node is read as the node with its own line
  breaks put further in, which is the node itself if there are none or no indentation;
* `Patcher.not_read_fresh`: it is another node otherwise.
-/

namespace MarkupSync

open Text Shadow Section

/-- The values of attributes and of declarations have no line breaks. -/
def Node.HasFlatValues (n : Node) : Prop :=
  n.Everywhere fun _ as st _ => (∀ e ∈ as.entries, '\n' ∉ e.2) ∧ ∀ e ∈ st.entries, '\n' ∉ e.2

/-- No text that is kept ends where the name of a close tag of its element ends. -/
def Node.HasClosedTexts (n : Node) : Prop :=
  n.Everywhere fun tag _ _ cs => isRaw tag = true → ∀ t, .text t ∈ cs → ¬ EndsInClose tag t

/-- A node that patches can make of a source. -/
structure Node.IsTarget (n : Node) : Prop where
  normal : n.IsNormal
  values : n.HasFlatValues
  texts : n.HasClosedTexts

theorem Node.IsTarget.children {tag : Text} {as st : Attrs} {cs : List Node}
    (h : IsTarget (.element tag as st cs)) (hraw : isRaw tag = false) :
    TextsApart cs ∧ ∀ c ∈ cs, c.IsTarget := by
  obtain ⟨-, -, -, -, hcs⟩ := h.normal
  rw [if_neg (by simp [hraw])] at hcs
  exact ⟨hcs.1, fun c hc => ⟨allNormal_iff.1 hcs.2 c hc, allEverywhere_iff.1 h.values.2 c hc,
    allEverywhere_iff.1 h.texts.2 c hc⟩⟩

/-- A new node has no line breaks but those between its lines. -/
theorem Node.HasFlatValues.isUnbroken {n : Node} (hv : n.HasFlatValues) (ht : n.HasFlatTexts) :
    n.IsUnbroken := by
  cases n with
  | text => trivial
  | element tag as st cs =>
    rw [HasFlatTexts] at ht
    have := hv.and ht
    simpa only [and_assoc, IsUnbroken] using this

namespace Patcher

variable {p : Patcher}

/-- A new node is printed. -/
theorem fresh_eq (hp : p.flavor = .html) {indent : Text} (hi : indent.all isIndent = true) {n : Node}
    (hn : n.IsNormal) (hv : n.HasFlatValues) (ht : n.HasFlatTexts) :
    p.fresh false indent n = ((p.options.printer .html).piece indent 0 n).source := by
  have hprinter := p.options.writesHtml_printer
  have hprint := Printer.source_piece hprinter hn.isPrintable 0
  have hsource := Printer.source_piece_indented hprinter hi hn 0
  rw [hn.indented_eq_self (.inr (hv.isUnbroken ht))] at hsource
  rw [hsource, hprint]
  simp only [Patcher.fresh, hp]
  cases n <;> rfl

variable (p) in
/-- The changes in a piece make it a piece of the new node, in which no new marks are hidden. -/
def Patches (c : Piece) : Prop :=
  ∀ ⦃front back : Text⦄ ⦃path : NodePath⦄ ⦃s : Shadow⦄, p.source = front ++ c.source ++ back →
    Derived path (c.read (width front)) s → s.toNode.IsTarget →
    ∃ es, ∃ c' : Piece, p.splices false s = .ok es ∧ c'.IsValid ∧ c'.node.Same s.toNode ∧
      (c.HidesNoMark → c'.HidesNoMark) ∧ Rewrites (width front) c.source es c'.source

section Children

variable {ps : List (Text × Piece)} {cs : List Shadow} {front back : Text}

/-- Children that are kept in their order are changed in their places. -/
theorem exists_splicesAll (hpatches : ∀ q ∈ ps, p.Patches q.2)
    (hs : p.source = front ++ sourcePieces ps ++ back)
    (hcs : List.Forall₂ (fun x c => ∃ path, Derived path x c) (readPieces (width front) ps) cs)
    (hn : ∀ c ∈ cs, c.toNode.IsTarget) :
    ∃ es, ∃ ds : List (Text × Piece), p.splicesAll false cs = .ok es ∧ ds.map Prod.fst = ps.map Prod.fst ∧
      (∀ d ∈ ds.map Prod.snd, d.IsValid) ∧
      Node.SameAll ((ds.map Prod.snd).map Piece.node) (toNodes cs) ∧ (HideNoMark ps → HideNoMark ds) ∧
      Rewrites (width front) (sourcePieces ps) es (sourcePieces ds) := by
  induction ps generalizing front cs with
  | nil =>
    cases hcs
    exact ⟨[], [], rfl, rfl, nofun, trivial, id, .nil⟩
  | cons q ps ih =>
    obtain ⟨gap, c⟩ := q
    obtain ⟨hc, hps⟩ := List.forall_mem_cons.1 hpatches
    rw [readPieces] at hcs
    obtain ⟨s, ss, ⟨path, hd⟩, hrest, rfl⟩ := List.forall₂_cons_left_iff.1 hcs
    obtain ⟨hn, hns⟩ := List.forall_mem_cons.1 hn
    rw [sourcePieces_cons] at hs ⊢
    have h1 : width front + width gap = width (front ++ gap) := (width_append _ _).symm
    have h2 : width (front ++ gap) + width c.source = width (front ++ gap ++ c.source) :=
      (width_append _ _).symm
    rw [h1] at hd hrest
    rw [h2] at hrest
    have hs1 : p.source = front ++ gap ++ c.source ++ (sourcePieces ps ++ back) := by
      rw [hs]
      simp
    have hs2 : p.source = front ++ gap ++ c.source ++ sourcePieces ps ++ back := by
      rw [hs]
      simp
    obtain ⟨es, c', hes, hvalid, hsame, hhides, hrw⟩ := hc hs1 hd hn
    obtain ⟨fs, ds, hfs, hgaps, hds, hsames, hhide, hrws⟩ := ih hps hs2 hrest hns
    refine ⟨es ++ fs, (gap, c') :: ds, ?_, by rw [List.map_cons, hgaps, List.map_cons], ?_,
      ⟨hsame, hsames⟩, fun h => ?_, ?_⟩
    · simp only [splicesAll, hes, hfs, Except.map]
    · exact List.forall_mem_cons.2 ⟨hvalid, hds⟩
    · obtain ⟨⟨hgap, hold⟩, h⟩ := List.forall_mem_cons.1 h
      exact List.forall_mem_cons.2 ⟨⟨hgap, hhides hold⟩, hhide h⟩
    · rw [← h2] at hrws
      rw [sourcePieces_cons]
      have := (hrw.append hrws)
      rw [← h1] at this
      have := this.keep gap
      simpa only [List.append_assoc] using this

/-- A child with an origin is changed and taken from its place. -/
theorem exists_part (hpatches : ∀ q ∈ ps, p.Patches q.2)
    (hs : p.source = front ++ sourcePieces ps ++ back) {path : NodePath}
    (hcs : AreDerived path (readPieces (width front) ps) cs) {c : Shadow} (hc : c ∈ cs)
    (hn : c.toNode.IsTarget) {o : Origin} (ho : c.origin = some o) :
    ∃ es, ∃ d : Piece, p.splices false c = .ok es ∧ d.IsValid ∧ d.node.Same c.toNode ∧
      (HideNoMark ps → d.HidesNoMark) ∧
      Splice.applyAll (es.map fun e => ⟨⟨e.span.start - o.place.outer.start,
        e.span.stop - o.place.outer.start⟩, e.replacement⟩) (p.source.at o.place.outer) =
          .ok d.source := by
  have hd := hcs.derived c hc o ho
  obtain ⟨i, x, hx, rfl⟩ := hcs.place c hc o ho
  obtain ⟨a, b, q, hq, hsource, rfl⟩ := exists_of_mem_readPieces (List.mem_of_getElem? hx)
  rw [← width_append] at hd
  have hs' : p.source = front ++ a ++ q.2.source ++ (b ++ back) := by
    rw [hs, hsource]
    simp
  obtain ⟨es, d, hes, hvalid, hsame, hhides, hrw⟩ := hpatches q hq hs' hd hn
  refine ⟨es, d, hes, hvalid, hsame, fun h => hhides (h q hq).2, ?_⟩
  have hat : p.source.at ⟨width (front ++ a), width (front ++ a) + width q.2.source⟩ = q.2.source := by
    rw [Text.at, hs']
    exact slice_append _ _ _
  simp only [← width_append front, Piece.outer_read, hat]
  exact (Rewrites.shift (n := 0) hrw).applyAll

/-- New children are printed, and others are taken from the source with their changes. -/
theorem exists_parts (hp : p.flavor = .html) (hpatches : ∀ q ∈ ps, p.Patches q.2)
    (hs : p.source = front ++ sourcePieces ps ++ back) {indent : Text}
    (hi : indent.all isIndent = true) {path : NodePath}
    (hcs : AreDerived path (readPieces (width front) ps) cs) (hn : ∀ c ∈ cs, c.toNode.IsTarget) :
    ∃ ds : List Piece, p.parts false indent cs = .ok (ds.map Piece.source) ∧
      (∀ d ∈ ds, d.IsValid) ∧ Node.SameAll (ds.map Piece.node) (toNodes cs) ∧
      (HideNoMark ps → ∀ d ∈ ds, d.HidesNoMark) := by
  induction cs with
  | nil => exact ⟨[], rfl, nofun, trivial, nofun⟩
  | cons c cs ih =>
    obtain ⟨hc, hns⟩ := List.forall_mem_cons.1 hn
    obtain ⟨ds, hds, hvalid, hsame, hhide⟩ := ih (hcs.subperm (List.sublist_cons_self c cs).subperm) hns
    cases ho : c.origin with
    | none =>
      obtain ⟨m, hm, rfl⟩ := hcs.isNew c List.mem_cons_self ho
      rw [toNode_fresh] at hc
      have hprinter := p.options.writesHtml_printer
      obtain ⟨hd, hnode⟩ := Printer.isValid_piece hprinter hi hc.normal.isPrintable 0
      refine ⟨(p.options.printer .html).piece indent 0 m :: ds, ?_,
        List.forall_mem_cons.2 ⟨hd, hvalid⟩, ⟨?_, hsame⟩, fun h => List.forall_mem_cons.2
          ⟨Printer.hidesNoMark_piece hprinter hi hc.normal.isPrintable 0, hhide h⟩⟩
      · simp only [parts, ho, toNode_fresh, hds, fresh_eq hp hi hc.normal hc.values hm, Except.map,
          List.map_cons]
      · rw [hnode, toNode_fresh]
        exact .refl m
    | some o =>
      obtain ⟨es, d, hes, hd, hdc, hhides, hat⟩ :=
        exists_part hpatches hs hcs List.mem_cons_self hc ho
      refine ⟨d :: ds, ?_, List.forall_mem_cons.2 ⟨hd, hvalid⟩, ⟨hdc, hsame⟩,
        fun h => List.forall_mem_cons.2 ⟨hhides h, hhide h⟩⟩
      simp only [parts, ho, hes, hat, hds, Except.map, Except.mapError, List.map_cons]

end Children

/-! ## Where new children are put -/

theorem all_isIndent_indentBefore? {n : Nat} {s indent : Text} (h : indentBefore? n s = some indent) :
    indent.all isIndent = true := by
  simp only [indentBefore?] at h
  split at h
  next hall =>
    cases h
    exact hall
  next => cases h

theorem isBlankText_newline {indent : Text} (h : indent.all isIndent = true) :
    IsBlankText ('\n' :: indent) :=
  isBlankText_cons.2 ⟨rfl, isBlankText_of_isIndent h⟩

theorem outer_getLastD (ps : List (Text × Piece)) (c : Piece) (n : Nat) :
    (((readPieces (n + width c.source) ps).map Prod.snd).getLastD (c.read n).2).outer.stop =
      n + width c.source + width (sourcePieces ps) := by
  induction ps generalizing c n with
  | nil => simp [readPieces, Piece.outer_read]
  | cons q ps ih =>
    obtain ⟨gap, d⟩ := q
    rw [readPieces, List.map_cons, List.getLastD_cons, ih]
    simp [Nat.add_assoc]

/-- The new children of an element take the place of the old ones, between gaps. -/
theorem exists_arrangement {ps : List (Text × Piece)} {front back : Text}
    (hgaps : ∀ q ∈ ps, IsGap q.1) (hback : IsGap back) (place : ElementPlace) (cs : List Shadow) :
    let a := p.arrangement place ⟨width front, width front + width (sourcePieces ps ++ back)⟩
      ((readPieces (width front) ps).map Prod.snd) cs
    a.indent.all isIndent = true ∧ IsBlankText a.separator ∧
      ∃ x y z, sourcePieces ps ++ back = x ++ y ++ z ∧ IsGap (x ++ a.front) ∧ IsGap (a.back ++ z) ∧
        a.span = ⟨width front + width x, width front + width x + width y⟩ ∧
        (HideNoMark ps → hasMark back = false →
          hasMark (x ++ a.front) = false ∧ hasMark (a.back ++ z) = false) := by
  cases ps with
  | nil =>
    have hprinter := p.options.writesHtml_printer
    have houter := all_isIndent_lineIndent place.outer.start p.source
    have hindent : (lineIndent place.outer.start p.source ++ p.options.unit).all isIndent = true := by
      rw [List.all_append, houter]
      exact hprinter.unit
    -- what stands around new children is blank
    have around {x z : Text} (hx : IsBlankText x) (hz : IsBlankText z) :
        IsGap x ∧ IsGap z ∧ (hasMark x = false ∧ hasMark z = false) :=
      ⟨isGap_of_blank hx, isGap_of_blank hz, hasMark_of_blank hx, hasMark_of_blank hz⟩
    simp only [readPieces, List.map_nil, arrangement, arranged]
    split_ifs
    · obtain ⟨hx, hz, hmark⟩ := around isBlankText_nil isBlankText_nil
      exact ⟨houter, isBlankText_newline houter, [], back, [], by simp, hx, hz, by simp,
        fun _ _ => hmark⟩
    · obtain ⟨hx, hz, hmark⟩ := around (isBlankText_newline hindent) (isBlankText_newline houter)
      refine ⟨hindent, isBlankText_newline hindent, [], back, [], by simp, hx, ?_, by simp, ?_⟩
      · rwa [List.append_nil]
      · rw [List.append_nil]
        exact fun _ _ => hmark
    · obtain ⟨hx, hz, hmark⟩ := around isBlankText_nil isBlankText_nil
      exact ⟨rfl, isBlankText_nil, [], back, [], by simp, hx, hz, by simp, fun _ _ => hmark⟩
  | cons q ps =>
    obtain ⟨gap, c⟩ := q
    have hgap : IsGap gap := hgaps _ List.mem_cons_self
    simp only [readPieces, List.map_cons, arrangement, rearranged]
    refine ⟨?_, ?_, gap, c.source ++ sourcePieces ps, back, by simp, by simpa using hgap,
      by simpa using hback, ?_, fun h hmark => ?_⟩
    · cases h : indentBefore? (c.read (width front + width gap)).2.outer.start p.source with
      | none => rfl
      | some indent => exact all_isIndent_indentBefore? h
    · -- what stands between the first two children, or a line break
      split
      · split
        next h => exact List.all_eq_true.1 h
        next =>
          split
          next indent h => exact isBlankText_newline (all_isIndent_indentBefore? h)
          next => exact isBlankText_nil
      · split
        next indent h => exact isBlankText_newline (all_isIndent_indentBefore? h)
        next => exact isBlankText_nil
    · rw [outer_getLastD, Piece.outer_read]
      simp [Nat.add_assoc]
    · rw [List.append_nil]
      exact ⟨(h _ List.mem_cons_self).1, hmark⟩

/-! ## Content -/

/-- The changes of the content of an element. -/
def contentSplices (p : Patcher) (path : NodePath) (place : ElementPlace) (inner : Span) (raw : Bool)
    (old : List Place) (children : List Shadow) : Except PatchError (List Splice) :=
  if keepsChildren path old.length children then p.splicesAll raw children
  else if children.isEmpty then .ok [⟨inner, []⟩]
  else
    let a := p.arrangement place inner old children
    (p.parts raw a.indent children).map fun parts => [a.splice parts]

/-- A text that changed is written anew. -/
theorem splices_text {path : NodePath} {a b : Text} {span : Span} {raw : Bool} :
    p.splices raw (.text (some ⟨path, .text a, .text span⟩) b) =
      if a = b then .ok [] else .ok [⟨span, (p.options.printer p.flavor).text raw b⟩] := by
  rw [splices]

/-- An element without content is written anew when it gets children. -/
theorem splices_leaf {path : NodePath} {place : ElementPlace} (hinner : place.inner = none)
    {tag oldTag : Text} {as st bs rt : Attrs} {ns : List Node} {old : List Place} {cs : List Shadow}
    {raw : Bool} :
    p.splices raw
      (.element (some ⟨path, .element oldTag as st ns, .element place old⟩) tag bs rt cs) =
    if keepsChildren path old.length cs then .ok (p.tagSplices ⟨as, st⟩ ⟨bs, rt⟩ place)
    else .ok [⟨place.outer, p.fresh false (lineIndent place.outer.start p.source)
      (.element tag bs rt (toNodes cs))⟩] := by
  rw [splices]
  simp only [hinner]
  cases keepsChildren path old.length cs <;> rfl

/-- An element with content changes in its tag and in its content. -/
theorem splices_element {path : NodePath} {place : ElementPlace} {inner : Span}
    (hinner : place.inner = some inner) {tag oldTag : Text} {as st bs rt : Attrs} {ns : List Node}
    {old : List Place} {cs : List Shadow} {raw : Bool} :
    p.splices raw
      (.element (some ⟨path, .element oldTag as st ns, .element place old⟩) tag bs rt cs) =
    (p.contentSplices path place inner (p.keepsContent tag) old cs).map
      ((if place.openTag.isSome then p.tagSplices ⟨as, st⟩ ⟨bs, rt⟩ place else []) ++ ·) := by
  rw [splices, contentSplices]
  simp only [hinner, Bool.not_not]
  by_cases hk : keepsChildren path old.length cs = true
  · rw [if_pos hk, if_pos hk]
  · rw [if_neg hk, if_neg hk]
    by_cases hempty : cs.isEmpty = true
    · rw [if_pos hempty, if_pos hempty]
      rfl
    · rw [if_neg hempty, if_neg hempty]
      cases p.parts (p.keepsContent tag) (p.arrangement place inner old cs).indent cs <;> rfl

/-- **The changes of content make it content of the new children.** -/
theorem exists_contentSplices (hp : p.flavor = .html) {ps : List (Text × Piece)}
    {front back rest : Text} (hgaps : ∀ q ∈ ps, IsGap q.1) (hback : IsGap back)
    (hpatches : ∀ q ∈ ps, p.Patches q.2)
    (hs : p.source = front ++ (sourcePieces ps ++ back) ++ rest) {path : NodePath}
    {cs : List Shadow} (hcs : AreDerived path (readPieces (width front) ps) cs)
    (hn : ∀ c ∈ cs, c.toNode.IsTarget) (hapart : TextsApart (toNodes cs)) (place : ElementPlace) :
    ∃ es, ∃ c : Content, p.contentSplices path place
      ⟨width front, width front + width (sourcePieces ps ++ back)⟩ false
      ((readPieces (width front) ps).map Prod.snd) cs = .ok es ∧ c.IsValid ∧
      Node.SameAll c.nodes (toNodes cs) ∧
      (HideNoMark ps → hasMark back = false → c.HidesNoMark) ∧
      Rewrites (width front) (sourcePieces ps ++ back) es c.source := by
  replace hs : p.source = front ++ sourcePieces ps ++ (back ++ rest) := by
    rw [hs]
    simp
  rw [contentSplices, List.length_map]
  split_ifs with hk hempty
  · obtain ⟨es, ds, hes, hfst, hds, hsame, hhide, hrw⟩ :=
      exists_splicesAll hpatches hs (hcs.forall₂ hk) hn
    have hgaps' : ∀ d ∈ ds, IsGap d.1 := fun d hd => by
      obtain ⟨q, hq, h⟩ := List.mem_map.1 (hfst ▸ List.mem_map_of_mem hd)
      exact h ▸ hgaps q hq
    have hapart' := hapart.same hsame.symm
    obtain ⟨hvalid, hnodes⟩ := Content.isValid_ofPieces hback hgaps' hds hapart'
    refine ⟨es, .ofPieces ds back, hes, hvalid, hnodes ▸ hsame, fun h hmark =>
      Content.hidesNoMark_ofPieces hback hgaps' hds hapart' hmark (hhide h), ?_⟩
    rw [Content.source_ofPieces]
    have := hrw.append (.refl _ back)
    rwa [List.append_nil] at this
  · rw [List.isEmpty_iff.1 hempty]
    refine ⟨_, .flow [], rfl, isGap_nil.isSome, ?_, fun _ _ => rfl, .single _ _ _⟩
    rw [Content.nodes, flowNodes_of_isGap isGap_nil]
    trivial
  · have harrangement := @exists_arrangement p ps front back hgaps hback place cs
    simp only at harrangement ⊢
    generalize p.arrangement place _ _ cs = a at harrangement ⊢
    obtain ⟨hi, hsep, x, y, z, hxyz, hx, hz, hspan, hmarks⟩ := harrangement
    obtain ⟨ds, hds, hvalid, hsame, hhide⟩ := exists_parts hp hpatches hs hi hcs hn
    have hapart' := hapart.same hsame.symm
    have hgap := isGap_of_blank hsep
    obtain ⟨hc, hnodes⟩ := Content.isValid_between hx hgap hz hvalid hapart'
    simp only [hds, Except.map]
    refine ⟨_, _, rfl, hc, hnodes ▸ hsame, fun h hmark => ?_, ?_⟩
    · obtain ⟨hfront, hback⟩ := hmarks h hmark
      exact Content.hidesNoMark_between hx hgap hz hvalid hapart' ⟨hfront, hasMark_of_blank hsep, hback⟩
        (hhide h)
    rw [Content.source_between, Arrangement.splice, hspan, hxyz]
    have := (Rewrites.single (width front + width x) y
      (a.front ++ a.separator.intercalate (ds.map Piece.source) ++ a.back)).between x z
    simpa only [List.append_assoc] using this

end Patcher

/-! ## New nodes by themselves

The lines of a new node are put as far in as the line that it is put on. Its text does not tell the
line breaks between nodes from those within values and kept texts. -/

namespace Patcher

/-- **A new node is read as it is further in.** -/
theorem exists_read_fresh {p : Patcher} (hp : p.flavor = .html) (raw : Bool) {indent : Text}
    (hi : indent.all isIndent = true) {n : Node} (hn : n.IsNormalDocument) :
    ∃ d, Document.read .html (p.fresh raw indent n) = .ok d ∧ d.root = n.indented indent ∧
      (d.root.Same n ↔ indent = [] ∨ n.IsUnbroken) := by
  have hprinter := p.options.writesHtml_printer
  have hnew := hn.indented hi
  have hsource : ((p.options.printer .html).documentContent [] indent 0 (n.indented indent) []).source =
      p.fresh raw indent n := by
    rw [Printer.source_documentContent_indented hprinter [] [] hi hn, List.nil_append,
      List.append_nil]
    cases n with
    | text => exact hn.elim
    | element => rw [fresh, hp]
  obtain ⟨hvalid, hnodes⟩ :=
    Printer.isValid_documentContent hprinter isGap_nil hi isGap_nil hnew.isPrintable 0
  obtain ⟨d, hread, hroot⟩ := Document.exists_read hvalid
  have heq : d.root = n.indented indent := by rw [hroot, hnodes, hnew.topLevel.2.2]
  rw [hsource] at hread
  exact ⟨d, hread, heq, by rw [heq, hn.same_indented_iff]⟩

/-- A division around text that is kept as it is written. -/
def kept (t : Text) : Node :=
  .element "div".toList .empty .empty [.element "pre".toList .empty .empty [.text t]]

theorem exists_read_fresh_kept :
    let p : Patcher := ⟨[], .html, {}⟩
    (kept "ab".toList).IsNormalDocument ∧
    ∃ d, Document.read .html (p.fresh false ['\t'] (kept "ab".toList)) = .ok d ∧
      d.root = (kept "ab".toList).indented ['\t'] ∧
      (d.root.Same (kept "ab".toList) ↔ ['\t'] = [] ∨ (kept "ab".toList).IsUnbroken) :=
  have h : (kept "ab".toList).IsNormalDocument := by decide
  ⟨h, exists_read_fresh rfl false rfl h⟩

/-- A line break in a text that is kept, or in a value, is followed by the indentation. -/
theorem not_read_fresh :
    let p : Patcher := ⟨[], .html, {}⟩
    let breaks (n : Node) := n.IsNormalDocument ∧
      ¬ ∃ d, Document.read .html (p.fresh false [' ', ' '] n) = .ok d ∧ d.root.Same n
    breaks (kept "a\nb".toList) ∧
      breaks (.element "p".toList (.ofList [("title".toList, "a\nb".toList)]) .empty []) := by
  intro p breaks
  have key {n : Node} (hn : n.IsNormalDocument)
      (h : (match Document.read .html (p.fresh false [' ', ' '] n) with
        | .ok d => d.root.same n
        | .error _ => false) = false) : breaks n := by
    refine ⟨hn, fun ⟨d, hd, hsame⟩ => ?_⟩
    simp [hd, (Node.same_iff _ _).2 hsame] at h
  exact ⟨key (by decide) (by decide +kernel), key (by decide) (by decide +kernel)⟩

end Patcher

end MarkupSync
