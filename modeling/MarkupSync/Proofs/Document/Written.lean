import MarkupSync.Proofs.Document.Attributes
import MarkupSync.Proofs.Document.Flow
import MarkupSync.Proofs.Lexeme.Close

/-!
# Documents as they are written

* `Written`, `Content`: elements and what stands between tags, with every character of the source;
* `Written.source`, `Written.node`, `Written.read`: the text, the document and the document with its
  places;
* `Written.IsValid`: elements that can be read;
* **`reads_written`**, `reads_content`: a valid element is read as it was written;
* `Document.readAt_source`: so is a text that starts at any byte.
-/

namespace MarkupSync

open Text

mutual

/-- An element as it is written: without content, with content that is kept, or with other
content. -/
inductive Written
  | leaf (tag : TagSource)
  | raw (tag : TagSource) (content : Text) (close : CloseSource)
  | full (tag : TagSource) (content : Content) (close : CloseSource)

/-- What stands between two tags: runs of text and elements in turn. -/
inductive Content
  | flow (s : Text)
  | cons (s : Text) (w : Written) (rest : Content)

end

mutual

/-- The text of an element. -/
def Written.source : Written → Text
  | .leaf tag => tag.source
  | .raw tag content close => tag.source ++ (content ++ close.source)
  | .full tag content close => tag.source ++ (content.source ++ close.source)

/-- The text of content. -/
def Content.source : Content → Text
  | .flow s => s
  | .cons s w rest => s ++ (w.source ++ rest.source)

end

mutual

/-- An element can be read as it is written. -/
def Written.IsValid : Written → Prop
  | .leaf tag => tag.IsValid ∧ (tag.selfClosing = true ∨ isVoid tag.name = true)
  | .raw tag content close =>
    tag.IsValid ∧ tag.selfClosing = false ∧ isVoid tag.name = false ∧ isRaw tag.name = true ∧
      IsRawContent tag.name content ∧ close.Closes tag.name
  | .full tag content close =>
    tag.IsValid ∧ tag.selfClosing = false ∧ isVoid tag.name = false ∧ isRaw tag.name = false ∧
      content.IsValid ∧ close.Closes tag.name

/-- Content can be read as it is written. -/
def Content.IsValid : Content → Prop
  | .flow s => (stripped? s).isSome
  | .cons s w rest => (stripped? s).isSome ∧ w.IsValid ∧ rest.IsValid

end

/-! ## Documents -/

/-- The nodes of a run. -/
def flowNodes (s : Text) : List Node :=
  match stripped? s with
  | none => []
  | some x => ((collapsed? (decodeEntities x)).map Node.text).toList

/-- The nodes of content that is kept as it is written. -/
def rawNodes (content : Text) : List Node :=
  if trim isBlank content = [] then [] else [.text (trim isBlank content)]

mutual

/-- The node of an element. -/
def Written.node : Written → Node
  | .leaf tag => .element tag.name tag.attrs tag.style []
  | .raw tag content _ => .element tag.name tag.attrs tag.style (rawNodes content)
  | .full tag content _ => .element tag.name tag.attrs tag.style content.nodes

/-- The nodes of content. -/
def Content.nodes : Content → List Node
  | .flow s => flowNodes s
  | .cons s w rest => flowNodes s ++ w.node :: rest.nodes

end

/-- The node of a run that starts at byte `n`, with its place. -/
def readFlow (n : Nat) (s : Text) : List (Node × Place) := (runNode? .html (flowPieces n s)).toList

/-- Content that is kept and starts at byte `n`, as a tag carries it. -/
def keptContent (n : Nat) (content : Text) : Option (Text × Span) :=
  if content = [] then none else some (content, ⟨n, n + width content⟩)

mutual

/-- The node of an element that starts at byte `n`, with its place. -/
def Written.read (n : Nat) : Written → Node × Place
  | .leaf tag => (tag.openTag n none).element .html (n + width tag.source) none []
  | .raw tag content close =>
    let start := n + width tag.source
    let t := tag.openTag n (keptContent start content)
    t.element .html (start + width content + width close.source)
      (some ⟨start, start + width content⟩) t.rawChild
  | .full tag content close =>
    let start := n + width tag.source
    (tag.openTag n none).element .html (start + width content.source + width close.source)
      (some ⟨start, start + width content.source⟩) (content.read start)

/-- The nodes of content that starts at byte `n`, with their places. -/
def Content.read (n : Nat) : Content → List (Node × Place)
  | .flow s => readFlow n s
  | .cons s w rest =>
    readFlow n s ++ w.read (n + width s) :: rest.read (n + width s + width w.source)

end

theorem map_fst_readFlow {s : Text} (hs : (stripped? s).isSome) (n : Nat) :
    (readFlow n s).map Prod.fst = flowNodes s := by
  obtain ⟨x, hx⟩ := Option.isSome_iff_exists.1 hs
  rw [readFlow, runNode?_flowPieces hx, flowNodes, hx]
  cases h : collapsed? (decodeEntities x) <;> simp [h]

theorem fst_element {g : TagSource} (hg : g.IsValid) (n : Nat) (raw : Option (Text × Span))
    (stop : Nat) (inner : Option Span) (children : List (Node × Place)) :
    ((g.openTag n raw).element .html stop inner children).1 =
      .element g.name g.attrs g.style (children.map Prod.fst) := by
  rw [OpenTag.element, g.content_openTag hg]
  rfl

/-- The child of an element whose content is kept: the content without the blanks around it. -/
theorem exists_rawChild (g : TagSource) (n k : Nat) (content : Text) :
    (trim isBlank content = [] ∧ (g.openTag n (keptContent k content)).rawChild = []) ∨
    (trim isBlank content ≠ [] ∧ ∃ a b, content = a ++ (trim isBlank content ++ b) ∧
      IsBlankText a ∧ IsBlankText b ∧ (g.openTag n (keptContent k content)).rawChild =
        [(.text (trim isBlank content),
          .text ⟨k + width a, k + width a + width (trim isBlank content)⟩)]) := by
  by_cases hc : content = []
  · subst hc
    exact .inl ⟨rfl, rfl⟩
  obtain ⟨a, b, heq, ha, hb, hspan⟩ := exists_trim content
  have hchild : (g.openTag n (keptContent k content)).rawChild =
      if trim isBlank content = [] then [] else [(.text (trim isBlank content),
        .text ⟨k + width a, k + width a + width (trim isBlank content)⟩)] := by
    rw [OpenTag.rawChild, TagSource.openTag, keptContent, if_neg hc]
    simp only [at_trimmedSpan]
    simp only [hspan, Span.length, Span.shift, Nat.add_sub_cancel_left, width_eq_zero,
      Nat.add_comm _ k, Nat.add_assoc]
  by_cases ht : trim isBlank content = []
  · exact .inl ⟨ht, by rw [hchild, if_pos ht]⟩
  · exact .inr ⟨ht, a, b, by rw [← List.append_assoc]; exact heq, ha, hb, by rw [hchild, if_neg ht]⟩

theorem map_fst_rawChild (g : TagSource) (n k : Nat) (content : Text) :
    ((g.openTag n (keptContent k content)).rawChild).map Prod.fst = rawNodes content := by
  obtain ⟨ht, hchild⟩ | ⟨ht, a, b, -, -, -, hchild⟩ := exists_rawChild g n k content
  · rw [hchild, rawNodes, if_pos ht]
    rfl
  · rw [hchild, rawNodes, if_neg ht]
    rfl

theorem reverse_rawChild (t : OpenTag) : t.rawChild.reverse = t.rawChild := by
  rw [OpenTag.rawChild]
  split
  · rfl
  · simp only
    split <;> rfl

mutual

/-- The places do not change the nodes. -/
theorem Written.fst_read {w : Written} (hw : w.IsValid) (n : Nat) : (w.read n).1 = w.node := by
  cases w with
  | leaf tag =>
    rw [Written.read, fst_element hw.1]
    rfl
  | raw tag content close =>
    simp only [Written.read]
    rw [fst_element hw.1, map_fst_rawChild]
    rfl
  | full tag content close =>
    simp only [Written.read]
    rw [fst_element hw.1, Content.fst_read hw.2.2.2.2.1]
    rfl

theorem Content.fst_read {c : Content} (hc : c.IsValid) (n : Nat) :
    (c.read n).map Prod.fst = c.nodes := by
  cases c with
  | flow s => exact map_fst_readFlow hc n
  | cons s w rest =>
    rw [Content.read, List.map_append, List.map_cons, map_fst_readFlow hc.1, Written.fst_read hc.2.1,
      Content.fst_read hc.2.2]
    rfl

end

/-! ## Reading -/

theorem isRaw_of_isVoid {tag : Text} (h : isVoid tag = true) : isRaw tag = false := by
  rw [isVoid, List.contains_iff_mem] at h
  have : ∀ t ∈ voidTags, rawTags.contains t = false := by decide
  exact this _ h

theorem contentHead_openTag {g : TagSource} (hg : g.IsValid) (rest : Text) :
    contentHead .html (g.source ++ rest) =
      .ok (some (.openTag g.name ('<' :: g.name) (g.body ++ rest))) := by
  rw [TagSource.source, List.cons_append, List.cons_append, contentHead, List.append_assoc,
    angleHead_openTag hg]
  rfl

theorem contentHead_closeSource {flavor : Flavor} {k : CloseSource} {tag : Text} (hk : k.Closes tag)
    (rest : Text) : contentHead flavor (k.source ++ rest) = .ok (some (.closeTag k.name k.source rest)) := by
  have := angleHead_closeSource hk rest
  simp only [CloseSource.source, List.cons_append, List.append_assoc, List.nil_append] at this ⊢
  rw [contentHead, this]
  rfl

theorem endsFlow_openTag {g : TagSource} (hg : g.IsValid) (rest : Text) :
    EndsFlow (g.source ++ rest) := by
  refine .inr ⟨_, rfl, ?_⟩
  have := opensNothing_openTag hg rest
  rwa [← List.append_assoc] at this

theorem endsFlow_closeSource {k : CloseSource} {tag : Text} (hk : k.Closes tag) (rest : Text) :
    EndsFlow (k.source ++ rest) := by
  refine .inr ⟨_, rfl, ?_⟩
  have := opensNothing_closeSource hk rest
  simpa using this

theorem Written.endsFlow {w : Written} (hw : w.IsValid) (rest : Text) :
    EndsFlow (w.source ++ rest) := by
  cases w with
  | leaf tag => exact endsFlow_openTag hw.1 rest
  | raw tag content close =>
    rw [source, List.append_assoc]
    exact endsFlow_openTag hw.1 _
  | full tag content close =>
    rw [source, List.append_assoc]
    exact endsFlow_openTag hw.1 _

/-! ### Readers -/

namespace Reader

theorem flush_of_run {flavor : Flavor} {r : Reader} (hr : r.run = []) :
    r.flush flavor = ⟨r.nodes, [], r.stack⟩ := by
  rw [flush, if_pos hr, ← hr]

theorem flush_hear {flavor : Flavor} {r : Reader} (hr : r.run = []) (ps : List (Text × Nat)) :
    (r.hear ps).flush flavor = ⟨(runNode? flavor ps).toList ++ r.nodes, [], r.stack⟩ := by
  rw [flush]
  simp only [hear, hr, List.nil_append]
  split
  next h =>
    subst h
    cases flavor <;> rfl
  next => split <;> simp_all

/-- A reader behind an open tag. -/
def enter (r : Reader) (tag : OpenTag) : Reader :=
  ⟨tag.rawChild, [], (.element tag, r.nodes) :: r.stack⟩

theorem nodes_enter (r : Reader) (tag : OpenTag) : (r.enter tag).nodes = tag.rawChild := rfl

theorem reads_enter (r : Reader) {tag : OpenTag} (hself : tag.selfClosing = false)
    (hvoid : isVoid tag.name = false) (scan : Scan) :
    r.reads (scan.cons (.openTag tag)) = ((r.flush .html).enter tag).reads scan := by
  rw [reads_cons, step]
  · simp [stepTag, enter, hself, hvoid]
  · exact nofun

/-- Reading a close tag ends the innermost element. -/
theorem reads_closeSource {r : Reader} {nodes : List (Node × Place)} {tag : OpenTag}
    {before : List (Node × Place)} {stack : List (Opened × List (Node × Place))}
    (hr : r.flush .html = ⟨nodes, [], (.element tag, before) :: stack⟩) {k : CloseSource}
    (hk : k.Closes tag.name) (n : Nat) (rest : Text) :
    r.reads (scan .html n (k.source ++ rest)) =
      reads ⟨tag.element .html (n + width k.source) (some ⟨tag.closing.stop, n⟩) nodes.reverse ::
        before, [], stack⟩ (scan .html (n + width k.source) rest) := by
  rw [scan_closeTag (contentHead_closeSource hk rest), reads_cons, step]
  · have hcloses : Flavor.html.closes tag.name k.name = true := by
      simp [Flavor.closes, hk.lower]
    simp only [stepTag, hr, hcloses, if_true]
  · exact nofun

/-- At the end of the text everything has to be closed. -/
theorem reads_end {r : Reader} {nodes : List (Node × Place)} (hr : r.flush .html = ⟨nodes, [], []⟩)
    (n : Nat) : r.reads (scan .html n []) = .ok nodes.reverse := by
  have hstack := congrArg Reader.stack hr
  rw [stack_flush] at hstack
  simp only [reads, scan_nil, steps, finish, hstack, hr]

end Reader

/-- Content read behind what was read before it: the nodes of its elements, and its last run. -/
def Content.hear (n : Nat) : Content → Reader → Reader
  | .flow s, r => r.hear (flowPieces n s)
  | .cons s w rest, r => rest.hear (n + width s + width w.source)
      (((r.hear (flowPieces n s)).flush .html).push (w.read (n + width s)))

theorem Content.flush_hear (c : Content) (n : Nat) {r : Reader} (hr : r.run = []) :
    (c.hear n r).flush .html = ⟨(c.read n).reverse ++ r.nodes, [], r.stack⟩ := by
  cases c with
  | flow s =>
    rw [hear, r.flush_hear hr, read, readFlow]
    cases runNode? .html (flowPieces n s) <;> rfl
  | cons s w rest =>
    rw [hear, rest.flush_hear _ (by rw [r.flush_hear hr]; rfl), r.flush_hear hr, read, readFlow]
    cases runNode? .html (flowPieces n s) <;> simp [Reader.push]

mutual

/-- **A valid element is read as it was written.** -/
theorem reads_written {w : Written} (hw : w.IsValid) (r : Reader) (n : Nat) (rest : Text) :
    r.reads (scan .html n (w.source ++ rest)) =
      ((r.flush .html).push (w.read n)).reads (scan .html (n + width w.source) rest) := by
  cases w with
  | leaf tag =>
    obtain ⟨hg, hleaf⟩ := hw
    have hraw : tag.selfClosing = true ∨ isRaw tag.name = false := hleaf.imp_right isRaw_of_isVoid
    have hstop := tag.openTag_closing_stop n none
    rw [Written.source, scan_openTag (contentHead_openTag hg rest) (openTag_source hg hraw n rest),
      Reader.reads_cons, Reader.step]
    · have : ((tag.openTag n none).selfClosing || isVoid (tag.openTag n none).name) = true := by
        simpa [TagSource.openTag] using hleaf
      simp only [Reader.stepTag, this, if_true, Written.read, hstop]
    · exact nofun
  | raw tag content close =>
    obtain ⟨hg, hself, hvoid, hraw, hc, hk⟩ := hw
    have hcontent : rawContent? tag.name (content ++ (close.source ++ rest)) =
        some (content, close.source ++ rest) :=
      rawContent?_append hg.name hc (startsClose_closeSource hk rest)
    have hstop := tag.openTag_closing_stop n (keptContent (n + width tag.source) content)
    rw [Written.source, List.append_assoc, List.append_assoc,
      scan_openTag (contentHead_openTag hg _) (openTag_rawSource hg hself hraw n hcontent),
      ← keptContent, Reader.reads_enter _ hself hvoid,
      Reader.reads_closeSource (Reader.flush_of_run rfl) hk, Reader.nodes_enter,
      reverse_rawChild, hstop]
    simp only [Written.read, width_append, Nat.add_assoc]
    rw [Reader.push, Reader.run_flush]
  | full tag content close =>
    obtain ⟨hg, hself, hvoid, hraw, hc, hk⟩ := hw
    have hstop := tag.openTag_closing_stop n none
    rw [Written.source, List.append_assoc,
      scan_openTag (contentHead_openTag hg _) (openTag_source hg (.inr hraw) n _),
      Reader.reads_enter _ hself hvoid, List.append_assoc,
      reads_content hc _ _ (endsFlow_closeSource hk rest),
      Reader.reads_closeSource (content.flush_hear _ rfl) hk, hstop]
    have hchild : (tag.openTag n none).rawChild = [] := rfl
    rw [Reader.nodes_enter, hchild, List.append_nil, List.reverse_reverse]
    simp only [Written.read, width_append, Nat.add_assoc]
    rw [Reader.push, Reader.run_flush]

/-- Valid content is read as it was written. -/
theorem reads_content {c : Content} (hc : c.IsValid) (r : Reader) (n : Nat) {rest : Text}
    (hrest : EndsFlow rest) : r.reads (scan .html n (c.source ++ rest)) =
      (c.hear n r).reads (scan .html (n + width c.source) rest) := by
  cases c with
  | flow s =>
    obtain ⟨x, hx⟩ := Option.isSome_iff_exists.1 hc
    exact reads_flow hx r n hrest
  | cons s w c =>
    obtain ⟨hs, hw, hc⟩ := hc
    obtain ⟨x, hx⟩ := Option.isSome_iff_exists.1 hs
    rw [Content.source, List.append_assoc, List.append_assoc, reads_flow hx r n (w.endsFlow hw _),
      reads_written hw, reads_content hc _ _ hrest, Content.hear]
    simp [Nat.add_assoc]

end

/-! ### Documents -/

theorem Document.root_ofTopLevel (outer inner : Span) (nodes : List (Node × Place)) :
    (Document.ofTopLevel outer inner nodes).root = Node.ofTopLevel (nodes.map Prod.fst) := by
  match nodes with
  | [] => rfl
  | [(.text _, _)] => rfl
  | [(.element .., _)] => rfl
  | (.text _, _) :: _ :: _ => rfl
  | (.element .., _) :: _ :: _ => rfl

/-- **A text that is written as valid content is read as it was written**, wherever it starts. -/
theorem Document.readAt_source {c : Content} (hc : c.IsValid) (n : Nat) :
    Document.readAt .html n c.source = .ok (Document.ofTopLevel ⟨n, n + width c.source⟩
      ⟨n, n + width c.source⟩ (c.read n)) := by
  have hread := reads_content hc .start n (.inl rfl)
  rw [List.append_nil, Reader.reads_end (c.flush_hear n rfl)] at hread
  rw [Document.readAt, Scan.nodes_eq_reads, hread]
  simp [Except.map, Reader.start]

/-- So is a whole text. -/
theorem Document.read_source {c : Content} (hc : c.IsValid) : Document.read .html c.source =
    .ok (Document.ofTopLevel ⟨0, width c.source⟩ ⟨0, width c.source⟩ (c.read 0)) := by
  simpa [Document.read] using Document.readAt_source hc 0

/-- The document of valid content. -/
theorem Document.exists_read {c : Content} (hc : c.IsValid) :
    ∃ d, Document.read .html c.source = .ok d ∧ d.root = Node.ofTopLevel c.nodes :=
  ⟨_, Document.read_source hc, by rw [Document.root_ofTopLevel, c.fst_read hc]⟩

end MarkupSync
