import MarkupSync.Proofs.Document.Hidden
import MarkupSync.Proofs.Document.Shift
import MarkupSync.Proofs.Patch.Component
import MarkupSync.Proofs.Patch.Document
import MarkupSync.Proofs.Section.Edited

/-!
# Patched templates

A component whose template is patched with a difference has the new document.

* `Sections.HasPlainTemplate`: the template is missing, or it has a close tag and regular content that
  hides no marks;
* `exists_readTemplate`: the document of a component is that of its template;
* **`patchComponent_diff`**: patching a component with a difference reaches the new document.
-/

namespace MarkupSync

open Text Section Shadow

/-- The template is missing, or it has a close tag and regular content that hides no marks. -/
def Sections.HasPlainTemplate (sections : Sections) (source : Text) : Prop :=
  ∀ b ∈ sections.template, b.IsClosed ∧ IsRegular (source.at b.content) ∧
    HidesNoMark (source.at b.content)

/-! ## Content -/

/-- Regular content that has a document, wherever it starts. -/
theorem IsRegular.exists_content_at {s : Text} (hs : IsRegular s) {n : Nat} {d : Document}
    (h : Document.readAt .html n s = .ok d) : ∃ c : Content, c.IsValid ∧ c.source = s := by
  obtain ⟨d', hd', -⟩ := Document.exists_readAt h 0
  exact hs.exists_content hd'

/-- The nodes of a tree without marks have none. -/
theorem Node.isUnmarked_of_ofTopLevel {ns : List Node} (h : (ofTopLevel ns).IsUnmarked) :
    ∀ n ∈ ns, n.IsUnmarked := by
  by_cases hone : ∃ n, ns = [n] ∧ n.isText = false
  · obtain ⟨n, rfl, hn⟩ := hone
    rw [ofTopLevel_singleton hn] at h
    exact List.forall_mem_singleton.2 h
  · rw [ofTopLevel_eq_root fun n hn => by simpa using fun hf => hone ⟨n, hn, hf⟩] at h
    exact allEverywhere_iff.1 h.2

/-! ## Templates -/

/-- **The document of a component is that of its template.** -/
theorem exists_readTemplate (front rest : Text) {c : Content} (hc : c.IsValid) {sections : Sections}
    (hsections : Sections.split (front ++ (c.source ++ rest)) = .ok sections) {b : Section}
    (hb : sections.template = some b)
    (hcontent : b.content = ⟨width front, width front + width c.source⟩) :
    ∃ d, Document.readTemplate (front ++ (c.source ++ rest)) = .ok d ∧
      d.root = Node.ofTopLevel c.nodes := by
  have hat : (front ++ (c.source ++ rest)).at ⟨width front, width front + width c.source⟩ =
      c.source := by
    rw [← List.append_assoc]
    exact slice_append front c.source rest
  have hread := Document.readAt_source hc (width front)
  refine ⟨_, ?_, (Document.root_ofTopLevel ⟨width front, width front + width c.source⟩
    ⟨width front, width front + width c.source⟩ _).trans (by rw [c.fst_read hc (width front)])⟩
  simp only [Document.readTemplate, hsections, Sections.templateSpan, hb, hcontent,
    Document.readWithin, hat]
  exact hread

/-- **A template with a close tag is patched in its place.** -/
theorem patchComponent_closed {source : Text} {sections : Sections}
    (hsections : Sections.split source = .ok sections) {b : Section}
    (hb : sections.template = some b) (hclosed : b.IsClosed)
    (hregular : IsRegular (source.at b.content)) (hhides : HidesNoMark (source.at b.content)) {d : Document}
    (hd : Document.readTemplate source = .ok d) {new : Node} (hn : new.IsNormalDocument)
    (hvalues : new.HasFlatValues) (htexts : new.HasClosedTexts) (hmarks : new.IsUnmarked)
    (hflat : ∀ e ∈ Node.diff d.root new, e.IsFlat) (hne : (Node.diff d.root new).isEmpty = false)
    (options : FormatOptions) :
    ∃ t d', patchComponent source { template := Node.diff d.root new } options = .ok t ∧
      Document.readTemplate t = .ok d' ∧ d'.root.Same new := by
  have hget : sections.get? .template = some b := hb
  have hrange := Sections.isRange_content hsections hget
  obtain ⟨front, content, back, rfl, hcontent, hedited⟩ :=
    Sections.exists_edited hsections rfl hb hclosed
  rw [Nat.zero_add] at hcontent hedited
  have hat : (front ++ (content ++ back)).at b.content = content := by
    rw [hcontent, ← List.append_assoc]
    exact slice_append front content back
  rw [hat] at hregular hhides
  have hwithin : Document.readWithin .html b.content (front ++ (content ++ back)) = .ok d := by
    simpa only [Document.readTemplate, hsections, Sections.templateSpan, hb] using hd
  have hread : Document.readAt .html (width front) content = .ok d := by
    rw [Document.readWithin, hat, hcontent] at hwithin
    exact hwithin
  obtain ⟨c, hc, rfl⟩ := hregular.exists_content_at hread
  obtain ⟨es, c', hes, hc', hsame, hhides', hrw⟩ :=
    exists_textSplices_diff front back hc hread hn hvalues htexts hflat options
  have hconfine : Component.confine b.content es = .ok es :=
    Component.confine_eq_ok fun e he => ((Component.confined_textSplices
      (Document.IsReadFrom.part hrange.le hrange.start hrange.stop hwithin).isSound
      (by rwa [List.append_assoc] at hes)).isRange e he).within
  have hmark : hasMark c'.source = false :=
    c'.hasMark_source hc' (hhides' (c.hidesNoMark_of_source hc hhides))
      (Node.isUnmarked_of_ofTopLevel (hmarks.same hsame.symm))
  obtain ⟨sections', b', hsections', hb', hcontent'⟩ := hedited c'.source hmark
  obtain ⟨d', hd', hroot⟩ := exists_readTemplate _ _ hc' hsections' hb' hcontent'
  refine ⟨front ++ (c'.source ++ back), d', ?_, hd', hroot ▸ hsame⟩
  have happly : Splice.applyAll es (front ++ (c.source ++ back)) =
      .ok (front ++ (c'.source ++ back)) := by
    have := (Rewrites.between (n := 0) front back (by rwa [Nat.zero_add])).applyAll
    rwa [List.append_assoc, List.append_assoc] at this
  rw [List.append_assoc] at hes
  simp only [patchComponent, hsections, componentSplices, Component.templateSplices, hne, hb, hwithin,
    hes, hconfine, Component.scriptSplices]
  simp [happly, Except.mapError]

/-- A printed template has its content on lines of its own. -/
theorem printTemplate_eq (options : FormatOptions) (n : Node) :
    printTemplate options n = templateOpen ++ ('\n' ::
      (if n.isRoot && n.children.isEmpty then []
        else options.unit ++ (options.printer .html).print n 1 ++ ['\n']) ++
      (templateClose ++ ['\n'])) := by
  have hopen : "<template>\n".toList = templateOpen ++ ['\n'] := by decide
  have hclose : "</template>\n".toList = templateClose ++ ['\n'] := by decide
  have lines (s : Text) : "<template>\n".toList ++ s ++ "</template>\n".toList =
      templateOpen ++ ('\n' :: s ++ (templateClose ++ ['\n'])) := by
    rw [hopen, hclose]
    simp
  exact lines _

/-- The content of a printed template is that of the document. -/
theorem exists_content_printTemplate (options : FormatOptions) {n : Node} (hn : n.IsNormalDocument)
    (hmarks : n.IsUnmarked) : ∃ c : Content, c.IsValid ∧ hasMark c.source = false ∧
      Node.ofTopLevel c.nodes = n ∧
      printTemplate options n = templateOpen ++ (c.source ++ (templateClose ++ ['\n'])) := by
  have hprinter := options.writesHtml_printer
  have hbreak : IsBlankText ['\n'] := isBlankText_cons.2 ⟨rfl, isBlankText_nil⟩
  rw [printTemplate_eq]
  by_cases hempty : (n.isRoot && n.children.isEmpty) = true
  · refine ⟨.flow ['\n'], (isGap_of_blank hbreak).isSome, rfl, ?_, ?_⟩
    · obtain ⟨hroot, hchildren⟩ := Bool.and_eq_true_iff.1 hempty
      rw [Content.nodes, flowNodes_of_isGap (isGap_of_blank hbreak), hn.eq_root hroot,
        List.isEmpty_iff.1 hchildren]
      rfl
    · rw [if_pos hempty]
      rfl
  · have hfront : IsBlankText ('\n' :: options.unit) :=
      isBlankText_cons.2 ⟨rfl, isBlankText_of_isIndent options.all_isIndent_unit⟩
    have hindent : ([] : Text).all isIndent = true := rfl
    obtain ⟨hvalid, hnodes⟩ := Printer.isValid_documentContent hprinter (isGap_of_blank hfront) hindent
      (isGap_of_blank hbreak) hn.isPrintable 1
    have hhides := Printer.hidesNoMark_documentContent hprinter (isGap_of_blank hfront) hindent
      (isGap_of_blank hbreak) hn.isPrintable 1 (hasMark_of_blank hfront) (hasMark_of_blank hbreak)
    have hsource := Printer.source_documentContent_between hprinter ('\n' :: options.unit) ['\n']
      hn.isPrintable 1
    have htop := hn.topLevel.2.2
    rw [← hnodes] at htop
    refine ⟨_, hvalid, ?_, htop, ?_⟩
    · exact Content.hasMark_source hvalid hhides
        (Node.isUnmarked_of_ofTopLevel (by rw [htop]; exact hmarks))
    · rw [hsource, if_neg hempty]
      rfl

/-- A component without a template has the empty document. -/
theorem Document.root_of_missing {source : Text} {sections : Sections}
    (hsections : Sections.split source = .ok sections) (hnone : sections.template = none)
    {d : Document} (hd : Document.readTemplate source = .ok d) : d.root = Node.root [] := by
  have hat : source.at ⟨width source, width source⟩ = [] := by
    simpa [Text.at] using slice_append source [] []
  have hempty : (Content.flow []).IsValid := isGap_nil.isSome
  have hnodes := (Content.flow []).fst_read hempty (width source)
  simp only [readTemplate, hsections, Sections.templateSpan, hnone, readWithin, hat] at hd
  rw [← Except.ok.inj ((readAt_source hempty (width source)).symm.trans hd), root_ofTopLevel, hnodes,
    Content.nodes, flowNodes_of_isGap isGap_nil]
  rfl

/-- **A missing template is put in front of a component.** -/
theorem patchComponent_missing {source : Text} {sections : Sections}
    (hsections : Sections.split source = .ok sections) (hnone : sections.template = none)
    {d : Document} (hd : Document.readTemplate source = .ok d) {new : Node} (hn : new.IsNormalDocument)
    (hmarks : new.IsUnmarked) (hne : (Node.diff d.root new).isEmpty = false)
    (options : FormatOptions) :
    ∃ t d', patchComponent source { template := Node.diff d.root new } options = .ok t ∧
      Document.readTemplate t = .ok d' ∧ d'.root.Same new := by
  have hroot := Document.root_of_missing hsections hnone hd
  rw [hroot] at hne ⊢
  obtain ⟨n, hsteps, hsame⟩ := Node.exists_steps_diff (P := fun _ _ => True)
    (fun _ _ _ _ _ _ _ _ => trivial) false (Node.root []) new trivial
  obtain ⟨c, hc, hmark, hnodes, hprint⟩ :=
    exists_content_printTemplate options (hn.same hsame.symm) (hmarks.same hsame.symm)
  obtain ⟨sections', b, hsections', hb, hcontent⟩ := Sections.exists_added hsections hmark
  obtain ⟨d', hd', hroot'⟩ := exists_readTemplate _ _ hc hsections' hb hcontent
  refine ⟨templateOpen ++ (c.source ++ (templateClose ++ '\n' :: source)), d', ?_, hd', ?_⟩
  · have happly := ((Rewrites.single 0 [] (printTemplate options n)).append (.refl _ source)).applyAll
    simp only [patchComponent, hsections, componentSplices, Component.templateSplices, hne, hnone,
      Node.applyAll_of_steps hsteps, Outcome.result, Component.scriptSplices]
    have hfile : Dialect.vue.printFile options n =
        templateOpen ++ (c.source ++ (templateClose ++ ['\n'])) := hprint
    rw [hprint] at happly
    simp only [width_nil, Nat.add_zero, List.append_nil, List.nil_append, List.append_assoc,
      List.singleton_append] at happly
    simp [hfile, happly, Except.mapError]
  · rw [hroot', hnodes]
    exact hsame

/-- **Patching a component with the difference to a document reaches that document**, if the template
is missing, or has a close tag and regular content that hides no marks of templates. The new document
may not have such marks in its tags, attributes, declarations and kept texts; the rest is as for plain
markup: no values and no new kept texts with line breaks, and no kept text that ends where the name of
a close tag of its element ends. -/
theorem patchComponent_diff {source : Text} {sections : Sections}
    (hsections : Sections.split source = .ok sections) (htemplate : sections.HasPlainTemplate source)
    {d : Document} (hd : Document.ofSource .vue source = .ok d) {new : Node}
    (hn : new.IsNormalDocument) (hvalues : new.HasFlatValues) (htexts : new.HasClosedTexts)
    (hmarks : new.IsUnmarked) (hflat : ∀ e ∈ Node.diff d.root new, e.IsFlat)
    (options : FormatOptions) :
    ∃ t d', patchComponent source { template := Node.diff d.root new } options = .ok t ∧
      Document.ofSource .vue t = .ok d' ∧ d'.root.Same new := by
  cases hne : (Node.diff d.root new).isEmpty with
  | true =>
    have hnil := List.isEmpty_iff.1 hne
    refine ⟨source, d, ?_, hd, Node.same_of_diff_eq_nil hnil⟩
    have happly := (Rewrites.refl 0 source).applyAll
    simp [patchComponent, hsections, componentSplices, Component.templateSplices, hnil,
      Component.scriptSplices, happly, Except.mapError]
  | false =>
    cases hb : sections.template with
    | none => exact patchComponent_missing hsections hb hd hn hmarks hne options
    | some b =>
      obtain ⟨hclosed, hregular, hhides⟩ := htemplate b hb
      exact patchComponent_closed hsections hb hclosed hregular hhides hd hn hvalues htexts hmarks
        hflat hne options

/-- A component whose script stands in front of its template. -/
theorem patchComponent_diff_script :
    let source := "<script>let a</script><template>x</template>".toList
    let new : Node := .element ['p'] .empty .empty [.text ['y'], .element ['b', 'r'] .empty .empty []]
    ∃ sections d, Sections.split source = .ok sections ∧ sections.HasPlainTemplate source ∧
      Document.ofSource .vue source = .ok d ∧ new.IsNormalDocument ∧ new.HasFlatValues ∧
      new.HasClosedTexts ∧ new.IsUnmarked ∧ (∀ e ∈ Node.diff d.root new, e.IsFlat) ∧
      ∃ t d', patchComponent source { template := Node.diff d.root new } {} = .ok t ∧
        Document.ofSource .vue t = .ok d' ∧ d'.root.Same new := by
  intro source new
  let block : Section := ⟨⟨22, 32⟩, ⟨32, 33⟩, ⟨22, 44⟩⟩
  let sections : Sections := ⟨some block, some ⟨⟨0, 8⟩, ⟨8, 13⟩, ⟨0, 22⟩⟩, none⟩
  have hsections : Sections.split source = .ok sections := eq_ok_of_toOption (by decide +kernel)
  have hat : Text.at block.content source = ['x'] := by decide
  have hlexemes : (scanAll .html ['x']).lexemes = [.text ['x'] ⟨0, 1⟩] := by decide +kernel
  have hasides : asides .html 0 ['x'] = [] := by decide +kernel
  have htemplate : sections.HasPlainTemplate source := by
    rintro b ⟨⟩
    rw [hat]
    refine ⟨by decide, ?_, ⟨?_, ?_⟩⟩
    · rw [IsRegular, hlexemes]
      exact List.forall_mem_singleton.2 trivial
    · rw [width_nil, hasides]
      exact List.forall_mem_nil _
    · exact (congrArg (∀ l ∈ ·, Lexeme.HidesNoMark l) hlexemes).mpr
        (List.forall_mem_singleton.2 trivial)
  have hx : IsRunOf ['x'] ['x'] := isRunOf_escapeText (by decide) (by decide)
  have hc : (Content.flow ['x']).IsValid := hx.isSome
  obtain ⟨d, hd, hroot⟩ := exists_readTemplate "<script>let a</script><template>".toList
    "</template>".toList hc hsections rfl (by decide)
  rw [Content.nodes, flowNodes_of_isRunOf hx] at hroot
  have hn : new.IsNormalDocument := by decide
  have hv : new.HasFlatValues :=
    have hnone := ⟨List.forall_mem_nil _, List.forall_mem_nil _⟩
    ⟨hnone, trivial, ⟨hnone, trivial⟩, trivial⟩
  have ht : new.HasClosedTexts := ⟨Bool.noConfusion, trivial, ⟨Bool.noConfusion, trivial⟩, trivial⟩
  have hm : new.IsUnmarked :=
    have hnone : Attrs.IsUnmarked .empty := List.forall_mem_nil _
    ⟨⟨by decide, hnone, hnone, Bool.noConfusion⟩, trivial,
      ⟨⟨by decide, hnone, hnone, Bool.noConfusion⟩, trivial⟩, trivial⟩
  have hflat : ∀ e ∈ Node.diff d.root new, e.IsFlat := by
    rw [hroot]
    exact List.forall_mem_singleton.2 ⟨Bool.noConfusion, trivial, ⟨Bool.noConfusion, trivial⟩, trivial⟩
  exact ⟨sections, d, hsections, htemplate, hd, hn, hv, ht, hm, hflat,
    patchComponent_diff hsections htemplate hd hn hv ht hm hflat {}⟩

/-- A component that is patched with the difference to a document has another one. -/
def Component.MissesTarget (source : Text) (new : Node) : Prop :=
  ∃ d, Document.ofSource .vue source = .ok d ∧ ¬ ∃ t d',
    patchComponent source { template := Node.diff d.root new } {} = .ok t ∧
      Document.ofSource .vue t = .ok d' ∧ d'.root.Same new

/-- Decides whether a patched component has another document. -/
def Component.missesTarget (source : Text) (new : Node) : Bool :=
  match Document.ofSource .vue source with
  | .error _ => false
  | .ok d =>
    match patchComponent source { template := Node.diff d.root new } {} with
    | .error _ => true
    | .ok t =>
      match Document.ofSource .vue t with
      | .error _ => true
      | .ok d' => !d'.root.same new

theorem Component.missesTarget_of_eq_true {source : Text} {new : Node}
    (h : missesTarget source new = true) : MissesTarget source new := by
  rw [missesTarget] at h
  split at h
  · cases h
  next d hd =>
    refine ⟨d, hd, ?_⟩
    rintro ⟨t, d', ht, hd', hsame⟩
    rw [← Node.same_iff] at hsame
    simp [ht, hd', hsame] at h

/-- A template without a close tag is not found again. Marks count in any letter case, in strings and
in tags, and also where the document of the source does not show them: in comments and in what is no
declaration of a style. The rest is lost as in plain markup. -/
theorem not_patchComponent_diff :
    let p : Node := .element ['p'] .empty .empty []
    let red : Attrs := ⟨[("color".toList, "red".toList)], by decide⟩
    Component.MissesTarget "<template/>".toList p ∧
    Component.MissesTarget "<template><pre>a</pre></template>".toList
      (.element ['p', 'r', 'e'] .empty .empty [.text "<TEMPLATE>".toList]) ∧
    Component.MissesTarget "<template><div><TEMPLATE/><pre></template></pre></div></template>".toList
      (.element ['d', 'i', 'v'] .empty .empty [.element "TEMPLATE".toList .empty .empty []]) ∧
    Component.MissesTarget
      "<template><!-- <template> --><b title=\"</template>\"></b></template>".toList p ∧
    Component.MissesTarget
      ("<template><div><p style=\"<template>; color: red\"></p>" ++
        "<b title=\"</template>\"></b></div></template>").toList
      (.element ['d', 'i', 'v'] .empty .empty [.element ['p'] .empty red []]) ∧
    Component.MissesTarget "<template>x</template>".toList
      (.element Node.rootTag ⟨[(['a'], ['b'])], by decide⟩ .empty [.text ['x']]) ∧
    Component.MissesTarget "<template><p></p></template>".toList
      (.element ['p'] .empty ⟨[([], ['r'])], by decide⟩ []) ∧
    Component.MissesTarget "<template><pre> x </pre></template>".toList
      (.element ['p', 'r', 'e'] .empty .empty [.text "</pre".toList]) := by
  refine ⟨?_, ?_, ?_, ?_, ?_, ?_, ?_, ?_⟩
  all_goals exact Component.missesTarget_of_eq_true (by decide +kernel)

end MarkupSync
