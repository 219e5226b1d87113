import MarkupSync.Proofs.Document.Image
import MarkupSync.Proofs.Document.Unmarked
import MarkupSync.Proofs.Printer.Tag

/-!
# Printed documents are read as they were

* `Printer.piece`, `Printer.documentContent`: nodes and documents as they are printed
  (`source_piece`, `source_documentContent`);
* `isValid_piece`, `isValid_documentContent`: they can be read as the nodes;
* **`Document.exists_read_print`**, `Document.read_print`: a printed document is read as the document;
* `Node.KeepsApart`: elements whose texts and whose declarations stay apart when they are printed;
* `Node.Everywhere.isPrintable`: an element of such elements, as it is read from HTML, is read back;
* **`Document.read_print_of_read`**: a document that was read is read again as it was;
* `Document.not_read_print_of_read`: two texts side by side are read as one, and a quote that is left
  open takes in the declarations behind it;
* `Style.hasMark_writeDeclarations`: declarations without marks are written without marks;
* **`Printer.hidesNoMark_piece`**, `hidesNoMark_documentContent`: printed nodes and documents hide no
  marks of templates.
-/

namespace MarkupSync

open Text

namespace Printer

/-- The text of content that is kept as it is written. -/
def keptText : List Node → Text
  | [.text t] => t
  | _ => []

/-- A line break with the indentation of a level behind `indent`. -/
def line (p : Printer) (indent : Text) (level : Nat) : Text :=
  '\n' :: (indent ++ (List.replicate level p.unit).flatten)

/-- Content as it is printed, from the pieces of its nodes. -/
def contentOf (p : Printer) (indent : Text) (level : Nat) (isOneLine : Bool) (pieces : List Piece) :
    Content :=
  if isOneLine then .ofPieces (pieces.map fun c => ([], c)) []
  else .ofPieces (pieces.map fun c => (p.line indent (level + 1), c)) (p.line indent level)

mutual

/-- A node as it is printed, with further lines behind `indent`. -/
def piece (p : Printer) (indent : Text) (level : Nat) : Node → Piece
  | .text t => .run t (escapeText t)
  | .element tag attributes style children =>
    let g := p.tagSource tag attributes style
    let isOneLine := p.isInline children
    if isVoid tag then .element (.leaf g)
    else if isRaw tag then .element (.raw g (keptText children) ⟨tag, []⟩)
    else .element (.full g (p.contentOf indent level isOneLine
      (pieces p indent (contentLevel level isOneLine) children)) ⟨tag, []⟩)

/-- Nodes as they are printed. -/
def pieces (p : Printer) (indent : Text) (level : Nat) : List Node → List Piece
  | [] => []
  | n :: ns => piece p indent level n :: pieces p indent level ns

end

/-- A document as it is printed between two gaps. -/
def documentContent (p : Printer) (front indent : Text) (level : Nat) (n : Node) (back : Text) :
    Content :=
  .between front (p.line indent level) (p.pieces indent level n.topLevel) back

variable {p : Printer}

theorem isInline_nil (p : Printer) (hp : p.WritesHtml) : p.isInline [] = true := by
  rw [isInline, hp.flavor]
  rfl

/-! ## The printed text -/

theorem source_contentOf (p : Printer) (level : Nat) (isOneLine : Bool) (cs : List Piece) :
    (p.contentOf [] level isOneLine cs).source = p.content level isOneLine (cs.map Piece.source) := by
  cases isOneLine
  · simp [contentOf, content, Content.source_ofPieces, sourcePieces_map, List.flatMap_map, line,
      newline]
  · simp [contentOf, content, Content.source_ofPieces, sourcePieces_map, List.flatMap_def]

mutual

/-- A piece has the text of the printed node. -/
theorem source_piece (hp : p.WritesHtml) {n : Node} (hn : n.IsPrintable) (level : Nat) :
    (p.piece [] level n).source = p.printNode level false n := by
  cases n with
  | text t => simp [piece, Piece.source, printNode, text, hp.flavor]
  | element tag attributes style children =>
    obtain ⟨htag, hsaid, hvoid, hchildren⟩ := hn
    have hopen : (p.tagSource tag attributes style).source =
        '<' :: tag ++ p.attrs attributes style ++ ['>'] := source_tagSource hp hsaid.entries
    have hclose : (CloseSource.mk tag []).source = ['<', '/'] ++ tag ++ ['>'] := by
      simp [CloseSource.source]
    rw [piece, printNode, if_neg (htag.ne_rootTag)]
    by_cases hv : isVoid tag = true
    · simp [hv, hvoid hv, Piece.source, Written.source, hopen, emptyEnd, hp.flavor]
    by_cases hr : isRaw tag = true
    · simp only [hr, if_true] at hchildren
      have hkeeps : p.keepsContent tag = true := by simp [keepsContent, hp.flavor, hr]
      simp only [hv, hr, if_true, Bool.false_eq_true, if_false, Piece.source, Written.source, hopen,
        hclose, hkeeps]
      match children, hchildren with
      | [], _ => simp [keptText, emptyEnd, hp.flavor, hv]
      | [.text t], _ =>
        have hinline : p.isInline [.text t] = true := by rw [isInline, hp.flavor]; rfl
        simp [keptText, hinline, content, printAll, printNode, text]
    · simp only [hr, Bool.false_eq_true, if_false] at hchildren
      have hkeeps : p.keepsContent tag = false := by simp [keepsContent, hr]
      simp only [hv, hr, Bool.false_eq_true, if_false, Piece.source, Written.source, hopen, hclose,
        hkeeps, source_contentOf, source_pieces hp hchildren.2]
      cases children with
      | nil => simp [emptyEnd, hp.flavor, hv, isInline_nil p hp, content, printAll]
      | cons n ns => simp

/-- Pieces have the texts of the printed nodes. -/
theorem source_pieces (hp : p.WritesHtml) {ns : List Node} (hns : Node.AllPrintable ns) (level : Nat) :
    (p.pieces [] level ns).map Piece.source = p.printAll level false ns := by
  cases ns with
  | nil => rfl
  | cons n ns =>
    rw [pieces, List.map_cons, source_piece hp hns.1, source_pieces hp hns.2, printAll]

end

/-! ## Reading it -/

theorem isGap_line (hp : p.WritesHtml) {indent : Text} (hi : indent.all isIndent = true)
    (level : Nat) : IsGap (p.line indent level) :=
  isGap_of_blank (isBlankText_cons.2 ⟨rfl, isBlankText_append.2 ⟨isBlankText_of_isIndent hi,
    isBlankText_of_isIndent (all_isIndent_replicate hp.unit level)⟩⟩)

theorem isValid_contentOf (hp : p.WritesHtml) {indent : Text} (hi : indent.all isIndent = true)
    (level : Nat) (isOneLine : Bool) {cs : List Piece}
    (hcs : ∀ c ∈ cs, c.IsValid) (hapart : TextsApart (cs.map Piece.node)) :
    (p.contentOf indent level isOneLine cs).IsValid ∧
      (p.contentOf indent level isOneLine cs).nodes = cs.map Piece.node := by
  have key {gap back : Text} (hgap : IsGap gap) (hback : IsGap back) :
      (Content.ofPieces (cs.map fun c => (gap, c)) back).IsValid ∧
        (Content.ofPieces (cs.map fun c => (gap, c)) back).nodes = cs.map Piece.node := by
    have hsnd : (cs.map fun c => (gap, c)).map Prod.snd = cs := by
      rw [List.map_map]
      exact List.map_id _
    refine (Content.isValid_ofPieces hback ?_ (by rwa [hsnd]) (by rwa [hsnd])).imp_right
      fun h => h.trans (by rw [hsnd])
    intro q hq
    obtain ⟨c, -, rfl⟩ := List.mem_map.1 hq
    exact hgap
  rw [contentOf]
  split
  · exact key isGap_nil isGap_nil
  · exact key (isGap_line hp hi _) (isGap_line hp hi _)

mutual

/-- A piece can be read as the printed node. -/
theorem isValid_piece (hp : p.WritesHtml) {indent : Text} (hi : indent.all isIndent = true) {n : Node}
    (hn : n.IsPrintable) (level : Nat) :
    (p.piece indent level n).IsValid ∧ (p.piece indent level n).node = n := by
  cases n with
  | text t => exact ⟨isRunOf_escapeText hn.1 hn.2, rfl⟩
  | element tag attributes style children =>
    obtain ⟨htag, hsaid, hvoid, hchildren⟩ := hn
    have hg : (p.tagSource tag attributes style).IsValid := isValid_tagSource hp htag hsaid.entries hsaid.exclusive
    have hattrs : (p.tagSource tag attributes style).attrs = attributes := attrs_tagSource hsaid
    have hstyle : (p.tagSource tag attributes style).style = style := style_tagSource hsaid
    have hname : (p.tagSource tag attributes style).name = tag := rfl
    have hclose : (CloseSource.mk tag []).Closes tag := ⟨htag, rfl, rfl⟩
    rw [piece]
    by_cases hv : isVoid tag = true
    · simp only [hv, if_true]
      refine ⟨⟨hg, .inr hv⟩, ?_⟩
      rw [Piece.node, Written.node, hattrs, hstyle, hvoid hv, hname]
    by_cases hr : isRaw tag = true
    · simp only [hv, hr, Bool.false_eq_true, if_true, if_false] at hchildren ⊢
      have hraw : IsRawContent tag (keptText children) ∧ rawNodes (keptText children) = children := by
        match children, hchildren with
        | [], _ => exact ⟨fun q hq h => absurd (List.suffix_nil.1 h) hq, rfl⟩
        | [.text t], ⟨hne, htrim, hraw⟩ => exact ⟨hraw, by simp [rawNodes, keptText, htrim, hne]⟩
      refine ⟨⟨hg, rfl, Bool.eq_false_iff.2 hv, hr, hraw.1, hclose⟩, ?_⟩
      rw [Piece.node, Written.node, hattrs, hstyle, hraw.2, hname]
    · simp only [hv, hr, Bool.false_eq_true, if_false] at hchildren ⊢
      obtain ⟨hcs, hnodes⟩ := isValid_pieces hp hi hchildren.2
        (contentLevel level (p.isInline children))
      obtain ⟨hcontent, hread⟩ := isValid_contentOf hp hi level (p.isInline children) hcs
        (hnodes.symm ▸ hchildren.1)
      refine ⟨⟨hg, rfl, Bool.eq_false_iff.2 hv, Bool.eq_false_iff.2 hr, hcontent, hclose⟩, ?_⟩
      rw [Piece.node, Written.node, hattrs, hstyle, hread, hnodes, hname]

/-- Pieces can be read as the printed nodes. -/
theorem isValid_pieces (hp : p.WritesHtml) {indent : Text} (hi : indent.all isIndent = true)
    {ns : List Node} (hns : Node.AllPrintable ns) (level : Nat) :
    (∀ c ∈ p.pieces indent level ns, c.IsValid) ∧ (p.pieces indent level ns).map Piece.node = ns := by
  cases ns with
  | nil => exact ⟨nofun, rfl⟩
  | cons n ns =>
    obtain ⟨hn, hnode⟩ := isValid_piece hp hi hns.1 level
    obtain ⟨hrest, hnodes⟩ := isValid_pieces hp hi hns.2 level
    rw [pieces, List.map_cons, hnode, hnodes]
    exact ⟨List.forall_mem_cons.2 ⟨hn, hrest⟩, rfl⟩

end

/-! ## Documents -/

/-- A printed document can be read as the document. -/
theorem isValid_documentContent (hp : p.WritesHtml) {front indent back : Text} (hfront : IsGap front)
    (hi : indent.all isIndent = true) (hback : IsGap back) {n : Node} (hn : n.IsPrintableDocument)
    (level : Nat) : (p.documentContent front indent level n back).IsValid ∧
      (p.documentContent front indent level n back).nodes = n.topLevel := by
  obtain ⟨hns, hapart, -⟩ := hn
  obtain ⟨hcs, hnodes⟩ := isValid_pieces hp hi hns level
  rw [← hnodes] at hapart
  have := Content.isValid_between hfront (isGap_line hp hi level) hback hcs hapart
  rwa [hnodes] at this

/-- It has the text of the printed document. -/
theorem source_documentContent (hp : p.WritesHtml) {n : Node} (hn : n.IsPrintableDocument)
    (level : Nat) :
    (p.documentContent [] [] level n []).source = p.print n level := by
  rw [documentContent, Content.source_between, source_pieces hp hn.all, print, List.nil_append,
    List.append_nil]
  cases n with
  | text t => cases hn.ofTopLevel
  | element tag attributes style children =>
    by_cases htag : tag = Node.rootTag
    · rw [printNode, if_pos htag, hp.flavor]
      simp [Node.topLevel, Node.isRoot, Node.tag?, htag, Node.children, line, newline]
    · simp [Node.topLevel, Node.isRoot, Node.tag?, htag, printAll]

theorem source_documentContent_between (hp : p.WritesHtml) (front back : Text) {n : Node}
    (hn : n.IsPrintableDocument) (level : Nat) :
    (p.documentContent front [] level n back).source = front ++ p.print n level ++ back := by
  rw [← source_documentContent hp hn level, documentContent, documentContent, Content.source_between,
    Content.source_between, List.nil_append, List.append_nil]

end Printer

/-- **A printed document is read back.** -/
theorem Document.exists_read_print {p : Printer} (hp : p.WritesHtml) {n : Node}
    (hn : n.IsPrintableDocument) (level : Nat) :
    ∃ d, Document.read .html (p.print n level) = .ok d ∧ d.root = n := by
  have hindent : ([] : Text).all isIndent = true := rfl
  obtain ⟨hc, hnodes⟩ := Printer.isValid_documentContent hp isGap_nil hindent isGap_nil hn level
  obtain ⟨d, hd, hroot⟩ := Document.exists_read hc
  rw [Printer.source_documentContent hp hn] at hd
  exact ⟨d, hd, by rw [hroot, hnodes, hn.ofTopLevel]⟩

/-- **A printed document is read as the document**, with its attributes and declarations in their
order. -/
theorem Document.read_print {p : Printer} (hp : p.WritesHtml) {n : Node} (hn : n.IsNormalDocument)
    (level : Nat) : ∃ d, Document.read .html (p.print n level) = .ok d ∧ d.root = n ∧
      p.print d.root level = p.print n level := by
  obtain ⟨d, hd, hroot⟩ := exists_read_print hp hn.isPrintable level
  exact ⟨d, hd, hroot, by rw [hroot]⟩

/-- A page with attributes, a style, a void element and an element whose content is kept. -/
def Node.page : Node :=
  .element "div".toList ⟨[("class".toList, "a b".toList), ("hidden".toList, [])], by decide⟩
    ⟨[("color".toList, "red".toList)], by decide⟩
    [.text "x < y".toList, .element "br".toList .empty .empty [],
      .element "script".toList .empty .empty [.text "if (a < b) \x7b\x7d".toList]]

theorem Document.read_print_page : Node.page.IsNormalDocument ∧
    ∃ d, Document.read .html (Printer.print ⟨.html, ['\t'], '\''⟩ .page 2) = .ok d ∧ d.root = .page ∧
      Printer.print ⟨.html, ['\t'], '\''⟩ d.root 2 = Printer.print ⟨.html, ['\t'], '\''⟩ .page 2 :=
  have h : Node.page.IsNormalDocument := by decide
  ⟨h, Document.read_print ⟨rfl, rfl, .inr rfl⟩ h 2⟩

/-- The attributes of a wrapping root are not printed, and a declaration without a name is not
read. -/
theorem Document.not_read_print :
    (¬ ∃ d, Document.read .html (Printer.print ⟨.html, [' ', ' '], '"'⟩
      (.element Node.rootTag ⟨[(['a'], ['b'])], by decide⟩ .empty [.text ['x']])) = .ok d ∧
        d.root = .element Node.rootTag ⟨[(['a'], ['b'])], by decide⟩ .empty [.text ['x']]) ∧
    ¬ ∃ d, Document.read .html (Printer.print ⟨.html, [' ', ' '], '"'⟩
      (.element ['p'] .empty ⟨[([], ['r'])], by decide⟩ [])) = .ok d ∧
        d.root = .element ['p'] .empty ⟨[([], ['r'])], by decide⟩ [] := by
  constructor
  · rintro ⟨d, hd, hroot⟩
    have hx : IsRunOf ['x'] ['x'] := isRunOf_escapeText (by decide) (by decide)
    obtain ⟨d', hd', hroot'⟩ := Document.exists_read (c := .flow ['x']) hx.isSome
    cases hd.symm.trans hd'
    rw [hroot, Content.nodes, flowNodes_of_isRunOf hx] at hroot'
    cases hroot'
  · rintro ⟨d, hd, hroot⟩
    let g := Printer.tagSource ⟨.html, [' ', ' '], '"'⟩ ['p'] .empty ⟨[([], ['r'])], by decide⟩
    have hg : g.IsValid := Printer.isValid_tagSource ⟨rfl, rfl, .inl rfl⟩ (by decide) (List.forall_mem_nil _)
      (by decide)
    have hc : (Content.cons [] (.full g (.flow []) ⟨['p'], []⟩) (.flow [])).IsValid :=
      ⟨isGap_nil.isSome, ⟨hg, rfl, rfl, rfl, isGap_nil.isSome, ⟨by decide, rfl, rfl⟩⟩,
        isGap_nil.isSome⟩
    obtain ⟨d', hd', hroot'⟩ := Document.exists_read hc
    cases hd.symm.trans hd'
    rw [hroot, Content.nodes, Content.nodes, flowNodes_of_isGap isGap_nil, Written.node] at hroot'
    have hstyle : g.style = .empty := by decide
    rw [hstyle] at hroot'
    cases hroot'

/-! ## Documents that were read -/

/-- No two texts stand side by side, and all declarations but the last close the quotes and brackets
that they open. -/
structure Node.KeepsApart (_tag : Text) (_attributes style : Attrs) (children : List Node) : Prop where
  texts : TextsApart children
  declarations : ∀ e ∈ style.entries.dropLast, Style.IsWhole ';' none 0 (Style.writeDeclaration e)

instance (tag : Text) (attributes style : Attrs) (children : List Node) :
    Decidable (Node.KeepsApart tag attributes style children) :=
  decidable_of_iff (TextsApart children ∧ ∀ e ∈ style.entries.dropLast,
    Style.IsWhole ';' none 0 (Style.writeDeclaration e)) ⟨fun ⟨a, b⟩ => ⟨a, b⟩, fun ⟨a, b⟩ => ⟨a, b⟩⟩

namespace Node

mutual

/-- **An element as it is read from HTML is read back**, if all that it holds stays apart. -/
theorem Everywhere.isPrintable {n : Node} (h : n.Everywhere IsReadTag) (hk : n.Everywhere KeepsApart)
    (htext : ∀ t, n = .text t → t ≠ [] ∧ Text.collapse t = t) : n.IsPrintable := by
  cases n with
  | text t => exact htext t rfl
  | element tag as st cs =>
    obtain ⟨hread, hcs⟩ := h
    obtain ⟨happart, hkcs⟩ := hk
    refine ⟨hread.name, ⟨hread.entries, hread.exclusive,
      Style.readDeclarations_of_readable hread.declarations happart.declarations⟩, hread.void, ?_⟩
    split
    next hraw => exact hread.kept hraw
    next hraw =>
      exact ⟨happart.texts, AllEverywhere.allPrintable hcs hkcs (hread.texts (Bool.eq_false_iff.2 hraw))⟩

theorem AllEverywhere.allPrintable {ns : List Node} (h : AllEverywhere IsReadTag ns)
    (hk : AllEverywhere KeepsApart ns)
    (htexts : ∀ t, .text t ∈ ns → t ≠ [] ∧ Text.collapse t = t) : AllPrintable ns := by
  cases ns with
  | nil => trivial
  | cons n ns =>
    exact ⟨Everywhere.isPrintable h.1 hk.1 fun t ht => htexts t (ht ▸ List.mem_cons_self),
      AllEverywhere.allPrintable h.2 hk.2 fun t ht => htexts t (List.mem_cons_of_mem _ ht)⟩

end

theorem Everywhere.textsApart_topLevel {n : Node} (h : n.Everywhere KeepsApart) :
    TextsApart n.topLevel := by
  rw [Node.topLevel]
  split
  · cases n with
    | text => exact .nil
    | element => exact h.1.texts
  · exact .singleton _

end Node

namespace Document

variable {s : Text} {d : Document}

/-- A document that was read from HTML is read back if all that it holds stays apart. -/
theorem isPrintable_read (h : read .html s = .ok d) (hk : d.root.Everywhere Node.KeepsApart) :
    d.root.IsPrintableDocument := by
  obtain ⟨hread, htop⟩ := isRead_read h
  refine ⟨Node.allPrintable_iff.2 fun n hn => ?_, hk.textsApart_topLevel, htop⟩
  have hn' := hread n hn
  cases n with
  | text t => exact hn' rfl
  | element tag as st cs => exact Node.Everywhere.isPrintable hn' (hk.topLevel _ hn) nofun

/-- **A document that was read from HTML and is printed is read again as it was**, if no two texts
stand side by side in it and all declarations of a style but the last close what they open. -/
theorem read_print_of_read {p : Printer} (hp : p.WritesHtml) (h : read .html s = .ok d)
    (hk : d.root.Everywhere Node.KeepsApart) (level : Nat) :
    ∃ d', read .html (p.print d.root level) = .ok d' ∧ d'.root = d.root :=
  exists_read_print hp (isPrintable_read h hk) level

/-- A page with a fragment between two elements, a comment in a text, a style with a quoted
separator, and content that is kept. -/
theorem read_print_of_read_page :
    let s := "<P class=\" a  b \" style=\"A: ';' ; b:2; c: (\">x <!--c--> y<><br></></p>\n<pre>\n z</pre>".toList
    let p : Printer := ⟨.html, ['\t'], '\''⟩
    p.WritesHtml ∧ ∃ d, read .html s = .ok d ∧ d.root.Everywhere Node.KeepsApart ∧
      ∃ d', read .html (p.print d.root 1) = .ok d' ∧ d'.root = d.root := by
  intro s p
  have hp : p.WritesHtml := ⟨rfl, rfl, .inr rfl⟩
  have hread : ((read .html s).toOption.map fun d => decide (d.root.Everywhere Node.KeepsApart)) =
      some true := by
    decide +kernel
  obtain ⟨d, hd, hk⟩ := Option.map_eq_some_iff.1 hread
  have hd := eq_ok_of_toOption hd
  have hk := of_decide_eq_true hk
  exact ⟨hp, d, hd, hk, read_print_of_read hp hd hk 1⟩

/-- Two texts side by side are read as one, and a quote that is left open by a declaration takes in
those behind it. -/
theorem not_read_print_of_read :
    let p : Printer := ⟨.html, [' ', ' '], '"'⟩
    let IsLost (s : Text) : Prop := ∃ d d', read .html s = .ok d ∧
      read .html (p.print d.root 0) = .ok d' ∧ ¬ d'.root.Same d.root
    IsLost "<p style=\"a: 1; b: 2; a: 'x\">x</p>".toList ∧ IsLost "<p>a<>b</></p>".toList := by
  intro p IsLost
  have lost {s : Text} (h : ((read .html s).toOption.bind fun d =>
      (read .html (p.print d.root 0)).toOption.map fun d' => d'.root.same d.root) = some false) :
      IsLost s := by
    obtain ⟨d, hd, h⟩ := Option.bind_eq_some_iff.1 h
    obtain ⟨d', hd', h⟩ := Option.map_eq_some_iff.1 h
    refine ⟨d, d', eq_ok_of_toOption hd, eq_ok_of_toOption hd', fun hs => ?_⟩
    rw [(Node.same_iff _ _).2 hs] at h
    cases h
  exact ⟨lost (by decide +kernel), lost (by decide +kernel)⟩

end Document

/-! ## Printed markup hides no marks -/

open Section

/-- Declarations without marks are written without marks. -/
theorem Style.hasMark_writeDeclarations {style : Attrs} (h : style.IsUnmarked) :
    hasMark (writeDeclarations style) = false := by
  have hone : ∀ s ∈ style.entries.map writeDeclaration, hasMark s = false := by
    intro s hs
    obtain ⟨e, he, rfl⟩ := List.mem_map.1 hs
    obtain ⟨hname, hvalue⟩ := h e he
    rw [writeDeclaration, List.append_assoc, List.cons_append, List.singleton_append,
      hasMark_append_cons (by decide) (by decide), hasMark_cons_of_ne (by decide), hname, hvalue]
    rfl
  rw [writeDeclarations]
  generalize style.entries.map writeDeclaration = ss at hone
  induction ss with
  | nil => rfl
  | cons s ss ih =>
    obtain ⟨hs, hss⟩ := List.forall_mem_cons.1 hone
    cases ss with
    | nil => simpa using hs
    | cons t ss =>
      rw [List.intercalate_cons_cons, List.append_assoc, List.cons_append, List.singleton_append,
        hasMark_append_cons (by decide) (by decide), hasMark_cons_of_ne (by decide), hs, ih hss]
      rfl

namespace Printer

variable {p : Printer}

/-- The printed attribute of a style holds its declarations only. -/
theorem hidesNoMark_styleSource {style : Attrs}
    (h : Style.readDeclarations (Style.writeDeclarations style) = style) :
    (p.styleSource style).HidesNoMark := by
  intro st hst hunmarked v hv
  rw [meaning_styleSource h] at hst
  cases hst
  cases hv
  refine hasMark_of_decodeEntities ?_
  rw [valueSource, decodeEntities_escapeQuoted]
  exact Style.hasMark_writeDeclarations hunmarked

/-- Other printed attributes have values. -/
theorem hidesNoMark_attrSource {e : Entry} (he : IsPrintable e) : (p.attrSource e).HidesNoMark := by
  intro st hst
  rw [meaning_attrSource he] at hst
  cases hst

theorem hidesNoMark_tagSource {tag : Text} {attributes style : Attrs}
    (h : IsPrintableTag attributes style) : (p.tagSource tag attributes style).HidesNoMark := by
  intro a ha
  obtain ha | ha := List.mem_append.1 ha
  · obtain ⟨e, he, rfl⟩ := List.mem_map.1 ha
    exact hidesNoMark_attrSource (h.entries e he)
  · split at ha
    · cases ha
    · obtain rfl := List.mem_singleton.1 ha
      exact hidesNoMark_styleSource h.declarations

/-- There are no marks between lines. -/
theorem hasMark_line (hp : p.WritesHtml) {indent : Text} (hi : indent.all isIndent = true)
    (level : Nat) : hasMark (p.line indent level) = false :=
  hasMark_of_blank (isBlankText_cons.2 ⟨rfl, isBlankText_append.2
    ⟨isBlankText_of_isIndent hi, isBlankText_of_isIndent (all_isIndent_replicate hp.unit level)⟩⟩)

theorem hidesNoMark_contentOf (hp : p.WritesHtml) {indent : Text} (hi : indent.all isIndent = true)
    (level : Nat) (isOneLine : Bool) {cs : List Piece} (hcs : ∀ c ∈ cs, c.IsValid)
    (hapart : TextsApart (cs.map Piece.node)) (hhides : ∀ c ∈ cs, c.HidesNoMark) :
    (p.contentOf indent level isOneLine cs).HidesNoMark := by
  have key {gap back : Text} (hgap : IsGap gap) (hback : IsGap back) (hmark : hasMark gap = false)
      (hmark' : hasMark back = false) :
      (Content.ofPieces (cs.map fun c => (gap, c)) back).HidesNoMark := by
    have hsnd : (cs.map fun c => (gap, c)).map Prod.snd = cs := by
      rw [List.map_map]
      exact List.map_id _
    refine Content.hidesNoMark_ofPieces hback ?_ (by rwa [hsnd]) (by rwa [hsnd]) hmark' ?_
    all_goals
      intro q hq
      obtain ⟨c, hc, rfl⟩ := List.mem_map.1 hq
    · exact hgap
    · exact ⟨hmark, hhides c hc⟩
  rw [contentOf]
  split
  · exact key isGap_nil isGap_nil rfl rfl
  · exact key (isGap_line hp hi _) (isGap_line hp hi _) (hasMark_line hp hi _) (hasMark_line hp hi _)

mutual

/-- **A printed node hides no marks.** -/
theorem hidesNoMark_piece (hp : p.WritesHtml) {indent : Text} (hi : indent.all isIndent = true)
    {n : Node} (hn : n.IsPrintable) (level : Nat) : (p.piece indent level n).HidesNoMark := by
  cases n with
  | text t => exact hasMark_of_not_mem (not_mem_escapeText t)
  | element tag attributes style children =>
    obtain ⟨-, hsaid, -, hchildren⟩ := hn
    have htag : (p.tagSource tag attributes style).HidesNoMark := hidesNoMark_tagSource hsaid
    rw [piece]
    split_ifs with hv hr
    · exact htag
    · exact htag
    · simp only [hr, Bool.false_eq_true, if_false] at hchildren
      obtain ⟨hcs, hnodes⟩ := isValid_pieces hp hi hchildren.2
        (contentLevel level (p.isInline children))
      exact ⟨htag, hidesNoMark_contentOf hp hi level _ hcs (hnodes.symm ▸ hchildren.1)
        (hidesNoMark_pieces hp hi hchildren.2 _)⟩

theorem hidesNoMark_pieces (hp : p.WritesHtml) {indent : Text} (hi : indent.all isIndent = true)
    {ns : List Node} (hns : Node.AllPrintable ns) (level : Nat) :
    ∀ c ∈ p.pieces indent level ns, c.HidesNoMark := by
  cases ns with
  | nil => exact nofun
  | cons n ns =>
    rw [pieces]
    exact List.forall_mem_cons.2
      ⟨hidesNoMark_piece hp hi hns.1 level, hidesNoMark_pieces hp hi hns.2 level⟩

end

/-- A printed document hides no marks. -/
theorem hidesNoMark_documentContent (hp : p.WritesHtml) {front indent back : Text}
    (hfront : IsGap front) (hi : indent.all isIndent = true) (hback : IsGap back) {n : Node}
    (hn : n.IsPrintableDocument) (level : Nat)
    (hmark : hasMark front = false) (hmark' : hasMark back = false) :
    (p.documentContent front indent level n back).HidesNoMark := by
  obtain ⟨hns, hapart, -⟩ := hn
  obtain ⟨hcs, hnodes⟩ := isValid_pieces hp hi hns level
  rw [← hnodes] at hapart
  exact Content.hidesNoMark_between hfront (isGap_line hp hi level) hback hcs hapart
    ⟨hmark, hasMark_line hp hi level, hmark'⟩ (hidesNoMark_pieces hp hi hns level)

end Printer

end MarkupSync
