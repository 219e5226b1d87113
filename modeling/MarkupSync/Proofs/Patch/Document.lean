import MarkupSync.Proofs.Document.Regular
import MarkupSync.Proofs.Patch.Element

/-!
# Patched documents

* `Content.fits`: the places of content that is read fit its nodes;
* `exists_documentSpan`: what a new document replaces stands between two gaps;
* `Patcher.exists_regionSplices`: the changes of a document make its source content of the new one, one
  lemma for each kind of root;
* `exists_textSplices_diff`: so does a difference, where the source is regular;
* **`patchText_diff`**: patching a regular source with a difference reaches the new document.
-/

namespace MarkupSync

open Text Shadow Section

/-! ## The source -/

mutual

/-- The places of an element that is read fit its nodes. -/
theorem Written.fits {w : Written} (hw : w.IsValid) (n : Nat) : Fits (w.read n) := by
  cases w with
  | leaf tag =>
    rw [Written.read, tag.element_openTag hw.1]
    exact .element (l := []) nofun
  | raw tag content close =>
    simp only [Written.read, tag.element_openTag hw.1]
    refine .element fun x hx => ?_
    obtain ⟨-, hchild⟩ | ⟨-, a, b, -, -, -, hchild⟩ := exists_rawChild tag n _ content
    · rw [hchild] at hx
      cases hx
    · rw [hchild, List.mem_singleton] at hx
      exact hx ▸ .text
  | full tag content close =>
    simp only [Written.read, tag.element_openTag hw.1]
    exact .element (Content.fits hw.2.2.2.2.1 _)

/-- The places of content that is read fit its nodes. -/
theorem Content.fits {c : Content} (hc : c.IsValid) (n : Nat) : ∀ x ∈ c.read n, Fits x := by
  have flow (s : Text) : ∀ x ∈ readFlow n s, Fits x := by
    intro x hx
    rw [readFlow, Option.mem_toList, runNode?, Option.map_eq_some_iff] at hx
    obtain ⟨t, -, rfl⟩ := hx
    exact .text
  cases c with
  | flow s => exact flow s
  | cons s w rest =>
    rw [Content.read]
    refine List.forall_mem_append.2 ⟨flow s, List.forall_mem_cons.2 ⟨Written.fits hc.2.1 _, ?_⟩⟩
    exact Content.fits hc.2.2 _

end

/-- The tag of an element is no name of a wrapping root. -/
theorem Written.isRoot_node {w : Written} (hw : w.IsValid) : w.node.isRoot = false := by
  have key {g : TagSource} (hg : g.IsValid) (cs : List Node) :
      (Node.element g.name g.attrs g.style cs).isRoot = false := by
    simp [Node.isRoot, Node.tag?, hg.name.ne_rootTag]
  cases w with
  | leaf tag => exact key hw.1 _
  | raw tag content close => exact key hw.1 _
  | full tag content close => exact key hw.1 _

theorem Derived.isRoot {path : NodePath} {x : Node × Place} {s : Shadow} (h : Derived path x s) :
    s.toNode.isRoot = x.1.isRoot := by
  cases h <;> rfl

theorem Node.IsNormalDocument.isNormal {n : Node} (h : n.IsNormalDocument) (hn : n.isRoot = false) :
    n.IsNormal := by
  cases n with
  | text => exact h.elim
  | element tag as st cs =>
    rw [IsNormalDocument, if_neg] at h
    · exact h
    · simpa [isRoot, tag?] using hn

/-- A single element needs no wrapping root. -/
theorem Node.ofTopLevel_singleton {n : Node} (h : n.isText = false) : ofTopLevel [n] = n := by
  cases n with
  | text => cases h
  | element => rfl

/-- A document has one element at its top level, or a root is wrapped around it. -/
theorem Document.ofTopLevel_cases (outer inner : Span) (l : List (Node × Place)) :
    (∃ x, l = [x] ∧ x.1.isText = false ∧ Document.ofTopLevel outer inner l = ⟨x.1, x.2⟩) ∨
    (∀ n, l.map Prod.fst = [n] → n.isText = true) ∧ Document.ofTopLevel outer inner l =
      ⟨.root (l.map Prod.fst),
        .element ⟨outer, none, outer.start, some inner, []⟩ (l.map Prod.snd)⟩ := by
  match l with
  | [] => exact .inr ⟨nofun, rfl⟩
  | [(.text a, place)] =>
    refine .inr ⟨fun n hn => ?_, rfl⟩
    cases hn
    rfl
  | [(.element .., place)] => exact .inl ⟨_, rfl, rfl, rfl⟩
  | (.text _, _) :: _ :: _ => exact .inr ⟨nofun, rfl⟩
  | (.element .., _) :: _ :: _ => exact .inr ⟨nofun, rfl⟩

namespace Patcher

variable {p : Patcher}

/-! ## New roots -/

theorem documentSpan_of_openTag {e : ElementPlace} (he : e.openTag ≠ none) (places : List Place) :
    documentSpan (.element e places) = e.outer := by
  cases places with
  | nil => rfl
  | cons first rest => rw [documentSpan, if_neg he]

theorem documentSpan_read (w : Written) (n : Nat) :
    documentSpan (w.read n).2 = (w.read n).2.outer := by
  cases w with
  | leaf tag => exact documentSpan_of_openTag (Option.some_ne_none _) _
  | raw tag content close => exact documentSpan_of_openTag (Option.some_ne_none _) _
  | full tag content close => exact documentSpan_of_openTag (Option.some_ne_none _) _

/-- What a new document replaces stands between two gaps. -/
theorem exists_documentSpan {ps : List (Text × Piece)} {back : Text} (hgaps : ∀ q ∈ ps, IsGap q.1)
    (hback : IsGap back) {n : Nat} {inner : Span} {d : Document} (hd : Document.ofTopLevel
      ⟨n, n + width (sourcePieces ps ++ back)⟩ inner (readPieces n ps) = d) :
    ∃ x y z, sourcePieces ps ++ back = x ++ y ++ z ∧ IsGap x ∧ IsGap z ∧
      documentSpan d.place = ⟨n + width x, n + width x + width y⟩ ∧
      (HideNoMark ps → hasMark back = false → hasMark x = false ∧ hasMark z = false) := by
  subst hd
  obtain ⟨x, hx, hnode, hd⟩ | ⟨-, hd⟩ := Document.ofTopLevel_cases
    ⟨n, n + width (sourcePieces ps ++ back)⟩ inner (readPieces n ps)
  · rw [hd]
    match ps, hx with
    | [(gap, .element w)], hx =>
      cases hx
      refine ⟨gap, w.source, back, by simp [Piece.source], hgaps _ List.mem_cons_self, hback, ?_,
        fun h hmark => ⟨(h _ List.mem_cons_self).1, hmark⟩⟩
      have := Piece.outer_read (.element w) (n + width gap)
      rw [Piece.read] at this ⊢
      rw [documentSpan_read, this]
      rfl
    | [(gap, .run t m)], hx =>
      cases hx
      cases hnode
  · rw [hd]
    cases ps with
    | nil => exact ⟨[], back, [], by simp, isGap_nil, isGap_nil, by simp [readPieces, documentSpan,
        Place.outer], fun _ _ => ⟨rfl, rfl⟩⟩
    | cons q ps =>
      obtain ⟨gap, c⟩ := q
      refine ⟨gap, c.source ++ sourcePieces ps, back, by simp, hgaps _ List.mem_cons_self, hback, ?_,
        fun h hmark => ⟨(h _ List.mem_cons_self).1, hmark⟩⟩
      simp only [readPieces, List.map_cons, documentSpan, if_true, outer_getLastD, Piece.outer_read]
      simp [Nat.add_assoc]

section Root

variable {ps : List (Text × Piece)} {front back rest : Text}

variable (p ps front back) in
/-- The changes that make `s` the root of a document make its source, which stands behind `front`,
content of the new document, in which no new marks are hidden. -/
def PatchesRoot (place : Place) (s : Shadow) : Prop :=
  ∃ es, ∃ c : Content, p.rootSplices place s = .ok es ∧ c.IsValid ∧
    (Node.ofTopLevel c.nodes).Same s.toNode ∧
    (HideNoMark ps → hasMark back = false → c.HidesNoMark) ∧
    Rewrites (width front) (sourcePieces ps ++ back) es c.source

variable (hgaps : ∀ q ∈ ps, IsGap q.1) (hback : IsGap back)
  (hs : p.source = front ++ (sourcePieces ps ++ back) ++ rest)
include hgaps hback hs

omit hs in
/-- A new root is printed in the place of the old one. -/
theorem patchesRoot_new (hp : p.flavor = .html) {inner : Span} {d : Document}
    (hd : Document.ofTopLevel ⟨width front, width front + width (sourcePieces ps ++ back)⟩ inner
      (readPieces (width front) ps) = d) {s : Shadow} (hnew : s.IsNew)
    (hn : s.toNode.IsNormalDocument) (hv : s.toNode.HasFlatValues) :
    p.PatchesRoot ps front back d.place s := by
  obtain ⟨x, y, z, hxyz, hx, hz, hspan, hmarks⟩ := exists_documentSpan hgaps hback hd
  obtain ⟨m, hm, rfl⟩ := hnew
  rw [toNode_fresh] at hn hv
  have hindent := all_isIndent_lineIndent (width front + width x) p.source
  have hprinter := p.options.writesHtml_printer
  obtain ⟨hvalid, hnodes⟩ := Printer.isValid_documentContent hprinter hx hindent hz hn.isPrintable 0
  have hroot : p.rootSplices d.place (Shadow.fresh m) =
      .ok [⟨⟨width front + width x, width front + width x + width y⟩,
        indented (lineIndent (width front + width x) p.source)
          ((p.options.printer .html).print m)⟩] := by
    rw [rootSplices, origin_fresh]
    simp only [hspan, toNode_fresh, Patcher.fresh, hp]
    cases m with
    | text => exact hn.elim
    | element => rfl
  refine ⟨_, _, hroot, hvalid, ?_, fun h hmark => ?_, ?_⟩
  · rw [hnodes, hn.topLevel.2.2, toNode_fresh]
    exact .refl m
  · obtain ⟨hmark, hmark'⟩ := hmarks h hmark
    exact Printer.hidesNoMark_documentContent hprinter hx hindent hz hn.isPrintable 0 hmark hmark'
  · have hsource := Printer.source_documentContent_indented hprinter x z hindent hn 0
    rw [hn.indented_eq_self (.inr (hv.isUnbroken hm))] at hsource
    rw [hsource, hxyz]
    have := (Rewrites.single (width front + width x) y
      (indented (lineIndent (width front + width x) p.source)
        ((p.options.printer .html).print m))).between x z
    simpa using this

/-- A single element is patched between its gaps. -/
theorem patchesRoot_element (hpatches : ∀ q ∈ ps, p.Patches q.2) {w : Written} {gap : Text}
    (hps : ps = [(gap, .element w)]) (hw : w.IsValid) {s : Shadow}
    (hds : Derived [] (w.read (width front + width gap)) s) (hn : s.toNode.IsNormalDocument)
    (hv : s.toNode.HasFlatValues) (ht : s.toNode.HasClosedTexts) :
    p.PatchesRoot ps front back (w.read (width front + width gap)).2 s := by
  subst hps
  have hnormal : s.toNode.IsNormal := by
    refine hn.isNormal ?_
    rw [hds.isRoot]
    exact (congrArg Node.isRoot (Written.fst_read hw _)).trans (Written.isRoot_node hw)
  have hsource : p.source = front ++ gap ++ (Piece.element w).source ++ (back ++ rest) := by
    simpa using hs
  rw [← width_append] at hds
  obtain ⟨es, c, hes, hc, hsame, hhides, hrw⟩ :=
    hpatches _ List.mem_cons_self hsource hds ⟨hnormal, hv, ht⟩
  have hgap : ∀ q ∈ [(gap, c)], IsGap q.1 :=
    List.forall_mem_singleton.2 (hgaps (gap, .element w) List.mem_cons_self)
  have hpiece : ∀ d ∈ [(gap, c)].map Prod.snd, d.IsValid := List.forall_mem_singleton.2 hc
  obtain ⟨hvalid, hnodes⟩ := Content.isValid_ofPieces hback hgap hpiece (.singleton _)
  refine ⟨es, .ofPieces [(gap, c)] back, ?_, hvalid, ?_, fun h hmark => ?_, ?_⟩
  · rw [← width_append, rootSplices, hds.origin]
    exact hes
  · have helement : c.node.isText = false := by
      rw [hsame.isText]
      cases hs : s.toNode with
      | text => exact (hs ▸ hn : Node.IsNormalDocument (.text _)).elim
      | element => rfl
    rw [hnodes]
    exact Node.ofTopLevel_singleton helement ▸ hsame
  · obtain ⟨hnone, hold⟩ := h _ List.mem_cons_self
    exact Content.hidesNoMark_ofPieces hback hgap hpiece (.singleton _) hmark
      (List.forall_mem_singleton.2 ⟨hnone, hhides hold⟩)
  · rw [Content.source_ofPieces]
    have := Rewrites.between (n := width front) gap back (by rwa [width_append] at hrw)
    simpa using this

/-- In a wrapping root the top-level nodes are patched. -/
theorem patchesRoot_root (hp : p.flavor = .html) (hpatches : ∀ q ∈ ps, p.Patches q.2)
    {place : Place} (hplace : place =
      .element ⟨⟨width front, width front + width (sourcePieces ps ++ back)⟩, none, width front,
        some ⟨width front, width front + width (sourcePieces ps ++ back)⟩, []⟩
        ((readPieces (width front) ps).map Prod.snd)) {s : Shadow}
    (hds : Derived [] (.root ((readPieces (width front) ps).map Prod.fst), place) s)
    (hn : s.toNode.IsNormalDocument) (hv : s.toNode.HasFlatValues) (ht : s.toNode.HasClosedTexts) :
    p.PatchesRoot ps front back place s := by
  subst hplace
  have hroot (place : Place) : p.rootSplices place s = p.splices false s := by
    rw [rootSplices, hds.origin]
  obtain ⟨bs, rt, cs, rfl, hcs⟩ := hds.exists_element
  rw [toNode] at hn hv ht
  rw [Node.IsNormalDocument, if_pos rfl] at hn
  obtain ⟨rfl, rfl, hapart, hns, hone⟩ := hn
  have hns' : ∀ c ∈ cs, c.toNode.IsTarget := fun c hc => by
    have hc' : c.toNode ∈ toNodes cs := toNodes_eq_map cs ▸ List.mem_map_of_mem hc
    exact ⟨Node.allNormal_iff.1 hns _ hc', Node.allEverywhere_iff.1 hv.2 _ hc',
      Node.allEverywhere_iff.1 ht.2 _ hc'⟩
  obtain ⟨es, c, hes, hc, hsame, hhide, hrw⟩ := exists_contentSplices hp hgaps hback hpatches hs hcs
    hns' hapart ⟨⟨width front, width front + width (sourcePieces ps ++ back)⟩, none, width front,
      some ⟨width front, width front + width (sourcePieces ps ++ back)⟩, []⟩
  have hkeeps : p.keepsContent Node.rootTag = false := by
    have : isRaw Node.rootTag = false := by decide
    simp [Patcher.keepsContent, this]
  refine ⟨es, c, ?_, hc, ?_, hhide, hrw⟩
  · rw [hroot, splices_element rfl, hkeeps, hes]
    rfl
  · rw [toNode, Node.ofTopLevel_eq_root]
    · exact ⟨rfl, .refl _, .refl _, hsame⟩
    · intro n hnodes
      rw [hnodes] at hsame
      obtain ⟨m, htop⟩ := List.length_eq_one_iff.1 hsame.length.symm
      rw [htop] at hsame
      exact hsame.1.isText.trans (hone m htop)

end Root

/-- **The changes of a document make its source content of the new one**, also where the source
stands between other text. -/
theorem exists_regionSplices (hp : p.flavor = .html) {c : Content} (hc : c.IsValid)
    {front rest : Text} (hs : p.source = front ++ c.source ++ rest) {d : Document}
    (hd : Document.ofTopLevel ⟨width front, width front + width c.source⟩
      ⟨width front, width front + width c.source⟩ (c.read (width front)) = d) {s : Shadow}
    (hds : s.IsNew ∨ Derived [] (d.root, d.place) s) (hn : s.toNode.IsNormalDocument)
    (hv : s.toNode.HasFlatValues) (ht : s.toNode.HasClosedTexts) :
    ∃ es, ∃ c' : Content, p.rootSplices d.place s = .ok es ∧ c'.IsValid ∧
      (Node.ofTopLevel c'.nodes).Same s.toNode ∧ (c.HidesNoMark → c'.HidesNoMark) ∧
      Rewrites (width front) c.source es c'.source := by
  obtain ⟨ps, back, rfl, hback, hps, hread⟩ := c.exists_pieces hc (width front)
  have hgaps : ∀ q ∈ ps, IsGap q.1 := fun q hq => (hps q hq).1
  rw [Content.source_ofPieces] at hs hd ⊢
  rw [hread] at hd
  suffices h : p.PatchesRoot ps front back d.place s by
    obtain ⟨es, c', hes, hc', hsame, hhide, hrw⟩ := h
    refine ⟨es, c', hes, hc', hsame, fun h => ?_, hrw⟩
    obtain ⟨hmark, hold⟩ := Content.hidesNoMark_of_ofPieces h
    exact hhide hold hmark
  obtain hnew | hds := hds
  · exact patchesRoot_new hgaps hback hp hd hnew hn hv
  have hpatches : ∀ q ∈ ps, p.Patches q.2 := fun q hq => patches hp (hps q hq).2
  obtain ⟨x, hx, hnode, rfl⟩ | ⟨-, rfl⟩ := hd ▸ Document.ofTopLevel_cases
    ⟨width front, width front + width (sourcePieces ps ++ back)⟩
    ⟨width front, width front + width (sourcePieces ps ++ back)⟩ (readPieces (width front) ps)
  · obtain ⟨⟨gap, piece⟩, rfl⟩ : ∃ q, ps = [q] := by
      have := length_readPieces (width front) ps
      rw [hx] at this
      exact List.length_eq_one_iff.1 this.symm
    cases hx
    cases piece with
    | run t m => cases hnode
    | element w =>
      exact patchesRoot_element hgaps hback hs hpatches rfl (hps _ List.mem_cons_self).2 hds hn hv ht
  · exact patchesRoot_root hgaps hback hs hp hpatches rfl hds hn hv ht

end Patcher

/-! ## Whole texts -/

theorem Document.fits_ofTopLevel (outer inner : Span) {l : List (Node × Place)}
    (h : ∀ x ∈ l, Fits x) :
    Fits ((Document.ofTopLevel outer inner l).root, (Document.ofTopLevel outer inner l).place) := by
  obtain ⟨x, rfl, -, hd⟩ | ⟨-, hd⟩ := Document.ofTopLevel_cases outer inner l
  · rw [hd]
    exact h x List.mem_cons_self
  · rw [hd]
    exact .element h

theorem Node.HasFlatValues.same {n m : Node} (h : n.HasFlatValues) (hs : n.Same m) :
    m.HasFlatValues :=
  Everywhere.same (fun has hst _ ⟨h1, h2⟩ =>
    ⟨fun e he => h1 e (has.entries.2 he), fun e he => h2 e (hst.entries.2 he)⟩) h hs

theorem Node.HasClosedTexts.same {n m : Node} (h : n.HasClosedTexts) (hs : n.Same m) :
    m.HasClosedTexts :=
  Everywhere.same (fun _ _ hcs h hraw t ht => h hraw t (hcs.mem_text.2 ht)) h hs

/-- **A difference makes regular content that of the new document**, between other text. -/
theorem exists_textSplices_diff (front rest : Text) {c : Content} (hc : c.IsValid) {d : Document}
    (hd : Document.readAt .html (width front) c.source = .ok d) {new : Node}
    (hn : new.IsNormalDocument) (hvalues : new.HasFlatValues) (htexts : new.HasClosedTexts)
    (hflat : ∀ e ∈ Node.diff d.root new, e.IsFlat) (options : FormatOptions) :
    ∃ es, ∃ c' : Content,
      textSplices (front ++ c.source ++ rest) d (Node.diff d.root new) .html options = .ok es ∧
        c'.IsValid ∧ (Node.ofTopLevel c'.nodes).Same new ∧ (c.HidesNoMark → c'.HidesNoMark) ∧
        Rewrites (width front) c.source es c'.source := by
  have htop := Except.ok.inj ((Document.readAt_source hc _).symm.trans hd)
  have hfits := Document.fits_ofTopLevel ⟨width front, width front + width c.source⟩
    ⟨width front, width front + width c.source⟩ (c.fits hc (width front))
  rw [htop] at hfits
  obtain ⟨hsourced, hroot⟩ := hfits.isSourced []
  obtain ⟨root, hsteps, hsame⟩ := Shadow.exists_steps_diff (P := fun _ _ => True)
    (fun _ _ _ _ _ _ _ _ => trivial) false hsourced new trivial
  rw [hroot] at hsteps
  have hderived := Derived.steps hsteps hflat (.inr (hfits.derived []))
  obtain ⟨es, c', hes, hc', hnodes, hhides, hrw⟩ := Patcher.exists_regionSplices
    (p := ⟨front ++ c.source ++ rest, .html, options⟩) rfl hc rfl htop hderived
    (hn.same hsame.symm) (hvalues.same hsame.symm) (htexts.same hsame.symm)
  have hshadow : (ofDocument d).applyAll (Node.diff d.root new) = .ok root :=
    Shadow.applyAll_of_steps hsteps
  refine ⟨es, c', ?_, hc', hnodes.trans hsame, hhides, hrw⟩
  rw [textSplices, hshadow]
  exact hes

/-- **Patching a regular source with a difference reaches the new document**, if the values of the
new document and its new kept texts have no line breaks and none of its kept texts ends where the
name of a close tag of its element ends. -/
theorem patchText_diff {s : Text} (hs : IsRegular s) {d : Document}
    (hd : Document.read .html s = .ok d) {new : Node} (hn : new.IsNormalDocument)
    (hvalues : new.HasFlatValues) (htexts : new.HasClosedTexts)
    (hflat : ∀ e ∈ Node.diff d.root new, e.IsFlat) (options : FormatOptions) :
    ∃ t d', patchText s d (Node.diff d.root new) .html options = .ok t ∧
      Document.read .html t = .ok d' ∧ d'.root.Same new := by
  obtain ⟨c, hc, rfl⟩ := hs.exists_content hd
  obtain ⟨es, c', hes, hc', hsame, -, hrw⟩ :=
    exists_textSplices_diff [] [] hc hd hn hvalues htexts hflat options
  obtain ⟨d', hd', hroot⟩ := Document.exists_read hc'
  refine ⟨c'.source, d', ?_, hd', hroot ▸ hsame⟩
  rw [List.nil_append, List.append_nil] at hes
  simp only [patchText, hes, hrw.applyAll]
  rfl

theorem patchText_diff_paragraph :
    let s := "<p>x</p>".toList
    let new : Node := .element ['p'] .empty .empty
      [.text ['y'], .element ['b', 'r'] .empty .empty []]
    IsRegular s ∧ new.IsNormalDocument ∧ new.HasFlatValues ∧ new.HasClosedTexts ∧
      ∃ d, Document.read .html s = .ok d ∧ (∀ e ∈ Node.diff d.root new, e.IsFlat) ∧
        ∃ t d', patchText s d (Node.diff d.root new) .html {} = .ok t ∧
          Document.read .html t = .ok d' ∧ d'.root.Same new := by
  intro s new
  let g := Printer.tagSource ⟨.html, [], '"'⟩ ['p'] .empty .empty
  let c := Content.cons [] (.full g (.flow ['x']) ⟨['p'], []⟩) (.flow [])
  have hg : g.IsValid := Printer.isValid_tagSource ⟨rfl, rfl, .inl rfl⟩ (by decide) (List.forall_mem_nil _)
    (by decide)
  have hx : IsRunOf ['x'] ['x'] := isRunOf_escapeText (by decide) (by decide)
  have hc : c.IsValid := ⟨isGap_nil.isSome, ⟨hg, rfl, rfl, rfl, hx.isSome, ⟨by decide, rfl, rfl⟩⟩,
    isGap_nil.isSome⟩
  have hs : IsRegular s := by
    have h : (scanAll .html s).lexemes =
        [.openTag (g.openTag 0 none), .text ['x'] ⟨3, 4⟩, .closeTag ['p'] ⟨4, 8⟩] := by decide +kernel
    rw [IsRegular, h]
    exact List.forall_mem_cons.2 ⟨⟨g, hg, by decide⟩, List.forall_mem_cons.2 ⟨trivial,
      List.forall_mem_singleton.2 trivial⟩⟩
  have hn : new.IsNormalDocument := by decide
  have hv : new.HasFlatValues :=
    have hnone := ⟨List.forall_mem_nil _, List.forall_mem_nil _⟩
    ⟨hnone, trivial, ⟨hnone, trivial⟩, trivial⟩
  have ht : new.HasClosedTexts := ⟨Bool.noConfusion, trivial, ⟨Bool.noConfusion, trivial⟩, trivial⟩
  obtain ⟨d, hd, hroot⟩ := Document.exists_read hc
  have hnodes : c.nodes = [.element ['p'] .empty .empty [.text ['x']]] := by
    have hattrs : g.attrs = .empty := by decide
    have hstyle : g.style = .empty := by decide
    rw [Content.nodes, Content.nodes, Written.node, Content.nodes, flowNodes_of_isGap isGap_nil,
      flowNodes_of_isRunOf hx, hattrs, hstyle]
    rfl
  have hflat : ∀ e ∈ Node.diff d.root new, e.IsFlat := by
    rw [hroot, hnodes]
    exact List.forall_mem_cons.2 ⟨trivial,
      List.forall_mem_singleton.2 ⟨Bool.noConfusion, trivial⟩⟩
  exact ⟨hs, hn, hv, ht, d, hd, hflat, patchText_diff hs hd hn hv ht hflat {}⟩

/-- Decides whether a source that is patched with the difference to a document has another one. -/
def missesTarget (s : Text) (new : Node) (options : FormatOptions) : Bool :=
  match Document.read .html s with
  | .error _ => false
  | .ok d =>
    match patchText s d (Node.diff d.root new) .html options with
    | .error _ => true
    | .ok t =>
      match Document.read .html t with
      | .error _ => true
      | .ok d' => !d'.root.same new

theorem exists_of_missesTarget {s : Text} {new : Node} {options : FormatOptions}
    (h : missesTarget s new options = true) : ∃ d, Document.read .html s = .ok d ∧
      ¬ ∃ t d', patchText s d (Node.diff d.root new) .html options = .ok t ∧
        Document.read .html t = .ok d' ∧ d'.root.Same new := by
  rw [missesTarget] at h
  split at h
  · cases h
  next d hd =>
    refine ⟨d, hd, ?_⟩
    rintro ⟨t, d', ht, hd', hsame⟩
    rw [← Node.same_iff] at hsame
    simp [ht, hd', hsame] at h

/-- Attributes of a wrapping root and declarations without a name are lost, and so is a text that
ends like a close tag in front of the blanks of the source. -/
theorem not_patchText_diff :
    (let new : Node := .element Node.rootTag ⟨[(['a'], ['b'])], by decide⟩ .empty [.text ['x']]
      ∃ d, Document.read .html ['x'] = .ok d ∧ ¬ ∃ t d',
        patchText ['x'] d (Node.diff d.root new) .html {} = .ok t ∧
          Document.read .html t = .ok d' ∧ d'.root.Same new) ∧
    (let new : Node := .element ['p'] .empty ⟨[([], ['r'])], by decide⟩ []
      ∃ d, Document.read .html "<p></p>".toList = .ok d ∧ ¬ ∃ t d',
        patchText "<p></p>".toList d (Node.diff d.root new) .html {} = .ok t ∧
          Document.read .html t = .ok d' ∧ d'.root.Same new) ∧
    (let new : Node := .element ['p', 'r', 'e'] .empty .empty [.text "</pre".toList]
      ∃ d, Document.read .html "<pre> x </pre>".toList = .ok d ∧ ¬ ∃ t d',
        patchText "<pre> x </pre>".toList d (Node.diff d.root new) .html {} = .ok t ∧
          Document.read .html t = .ok d' ∧ d'.root.Same new) :=
  ⟨exists_of_missesTarget (by decide +kernel), exists_of_missesTarget (by decide +kernel),
    exists_of_missesTarget (by decide +kernel)⟩

end MarkupSync
