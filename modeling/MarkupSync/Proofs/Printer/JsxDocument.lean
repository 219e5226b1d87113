import MarkupSync.Proofs.Document.Indent
import MarkupSync.Proofs.Document.Passage
import MarkupSync.Proofs.Printer.JsxTag
import MarkupSync.Proofs.Text.Lines

/-!
# Printed markup of JSX is read as it was

* `Printer.IsReadBack`: a node that is read as it was printed, wherever it stands and whatever was
  read before it;
* `isReadBack_text`, `isReadBack_element`: texts, and elements of such nodes;
* `exists_passes_content`: children on one line and on lines of their own;
* **`Document.read_print_jsx`**: printed markup is read as the document, at any place of a text and
  as a text of its own.
-/

namespace MarkupSync

open Text

namespace Printer

variable {p : Printer}

/-! ## Nodes -/

/-- A node is read as it was printed, at any byte and behind anything. A text that is no expression
must not continue a run of text, nor be continued. -/
def IsReadBack (p : Printer) (n : Node) : Prop :=
  ∀ (level k : Nat) (rest : Text) (r : Reader),
    (n.isPlainText = true → r.run = [] ∧ Reader.OpensMarkup rest) →
    ∃ r', Reader.Passes .jsx rest k (p.printNode level false n) r r' ∧
      (r'.flush .jsx).nodes.map Prod.fst = n :: (r.flush .jsx).nodes.map Prod.fst ∧
      r'.stack = r.stack ∧ (n.isPlainText = false → r'.run = [])

/-- **A text is read as it was printed.** -/
theorem isReadBack_text (hp : p.WritesJsx) {t : Text} (ht : (Node.text t).IsJsxNormal) :
    p.IsReadBack (.text t) := by
  intro level k rest r hplain
  rw [Node.IsJsxNormal] at ht
  by_cases hexpr : isExpression t = true
  · -- an expression ends the run of text in front of it
    rw [if_pos hexpr] at ht
    obtain ⟨s, rfl, hs⟩ := ht.exists_cons
    obtain ⟨span, hpasses⟩ := Reader.passes_expression hs k rest r
    have hrun : ((r.flush .jsx).push (.text ('\x7b' :: s), .text span)).run = [] :=
      Reader.run_flush r
    refine ⟨(r.flush .jsx).push (.text ('\x7b' :: s), .text span), ?_, ?_, Reader.stack_flush r,
      fun _ => hrun⟩
    · rw [printNode, text, hp.flavor]
      simp only [hexpr, if_true, Bool.false_eq_true, if_false]
      exact hpasses
    · rw [Reader.flush_of_run hrun]
      rfl
  · rw [if_neg hexpr] at ht
    obtain ⟨hrun, hrest⟩ := hplain (by simp [Node.isPlainText, hexpr])
    have hflow := flowText?_escapeExpressionText ht
    have hne : escapeExpressionText t ≠ [] := by
      intro h
      rw [h] at hflow
      cases hflow
    refine ⟨r.hear [(escapeExpressionText t, k)], ?_, ?_, rfl, fun h => ?_⟩
    · rw [printNode, text, hp.flavor]
      simp only [hexpr, Bool.false_eq_true, if_false]
      exact Reader.passes_text (isPlain_escapeExpressionText t) hne hrest k r
    · rw [Reader.flush_hear hrun, Reader.flush_of_run hrun, runNode?]
      simp [hflow]
    · simp [Node.isPlainText, hexpr] at h

/-- What an element is printed as. -/
theorem printNode_element (hp : p.WritesJsx) {tag : Text} (htag : IsTagName tag)
    (attributes style : Attrs) (children : List Node) (level : Nat) :
    p.printNode level false (.element tag attributes style children) =
      if children = [] then p.tagText tag attributes style true
      else p.tagText tag attributes style false ++
        (p.content level (p.isInline children)
            (p.printAll (contentLevel level (p.isInline children)) false children) ++
          (CloseSource.mk tag []).source) := by
  have hkeeps : p.keepsContent tag = false := by simp [keepsContent, hp.flavor]
  rw [printNode, if_neg htag.ne_rootTag, hkeeps]
  by_cases hc : children = []
  · simp [hc, tagText, tagEnd, emptyEnd, hp.flavor]
  · simp [hc, tagText, tagEnd, CloseSource.source]

/-- A node that is printed as no running text opens markup. -/
theorem opensMarkup_printNode (hp : p.WritesJsx) {n : Node} (hn : n.IsJsxNormal)
    (hplain : n.isPlainText = false) (level : Nat) (rest : Text) :
    Reader.OpensMarkup (p.printNode level false n ++ rest) := by
  cases n with
  | text t =>
    have hexpr : isExpression t = true := by simpa [Node.isPlainText] using hplain
    rw [Node.IsJsxNormal, if_pos hexpr] at hn
    obtain ⟨s, rfl, hs⟩ := hn.exists_cons
    rw [printNode, text, hp.flavor]
    simp only [hexpr, if_true, Bool.false_eq_true, if_false]
    exact Reader.opensMarkup_expression hs rest
  | element tag attributes style children =>
    obtain ⟨htag, -, ha, hstyle, hs, -, -⟩ := hn
    have hopen (sc : Bool) (u : Text) :
        Reader.OpensMarkup (p.tagText tag attributes style sc ++ u) := by
      obtain ⟨t, body, hhead, -⟩ := exists_openTag hp htag ha hstyle hs sc 0 u
      exact ⟨_, hhead, fun _ _ h => by cases h⟩
    rw [printNode_element hp htag]
    split_ifs
    · exact hopen true rest
    · rw [List.append_assoc]
      exact hopen false _

/-! ## Children -/

/-- Children on one line are read one after another. -/
theorem exists_passes_inline (hp : p.WritesJsx) {ns : List Node} (hns : ∀ n ∈ ns, p.IsReadBack n)
    (hnormal : Node.AllJsxNormal ns) (hapart : PlainTextsApart ns) (level k : Nat) {rest : Text}
    (hrest : Reader.OpensMarkup rest) {r : Reader} (hopen : r.stack ≠ [])
    (hrun : ∀ n ∈ ns.head?, n.isPlainText = true → r.run = []) :
    ∃ r', Reader.Passes .jsx rest k (p.printAll level false ns).flatten r r' ∧
      (r'.flush .jsx).nodes.map Prod.fst = ns.reverse ++ (r.flush .jsx).nodes.map Prod.fst ∧
      r'.stack = r.stack := by
  induction ns generalizing k r with
  | nil => exact ⟨r, .nil k r, rfl, rfl⟩
  | cons n ns ih =>
    rw [PlainTextsApart, List.isChain_cons] at hapart
    obtain ⟨hnext, hapart⟩ := hapart
    -- a text is followed by something else
    have hopens : n.isPlainText = true →
        Reader.OpensMarkup ((p.printAll level false ns).flatten ++ rest) := by
      intro hn
      cases ns with
      | nil => exact hrest
      | cons m ms =>
        have hm : m.isPlainText = false := by simpa [hn] using hnext m rfl
        rw [printAll, List.flatten_cons, List.append_assoc]
        exact opensMarkup_printNode hp hnormal.2.1 hm level _
    obtain ⟨r₁, hpasses, hnodes, hstack, hrun₁⟩ := hns n List.mem_cons_self level k
      ((p.printAll level false ns).flatten ++ rest) r fun h => ⟨hrun n rfl h, hopens h⟩
    have hopen₁ : r₁.stack ≠ [] := by rwa [hstack]
    obtain ⟨r₂, hpasses', hnodes', hstack'⟩ := ih (fun m hm => hns m (List.mem_cons_of_mem n hm))
      hnormal.2 hapart (k + width (p.printNode level false n)) hopen₁ fun m hm hplain =>
        hrun₁ (by simpa [hplain] using hnext m hm)
    refine ⟨r₂, ?_, by simp [hnodes', hnodes], hstack'.trans hstack⟩
    rw [printAll, List.flatten_cons]
    exact hpasses.append hopen₁ hpasses'

theorem isPlain_newline (hp : p.WritesJsx) (level : Nat) :
    (p.newline level).all isPlain = true := by
  rw [newline, List.all_cons, Bool.and_eq_true]
  exact ⟨rfl, List.all_eq_true.2 fun c hc =>
    isPlain_of_isIndent (List.all_eq_true.1 (all_isIndent_replicate hp.unit level) c hc)⟩

/-- A line break adds nothing to the nodes. -/
theorem exists_passes_newline (hp : p.WritesJsx) (level k : Nat) {rest : Text}
    (hrest : Reader.OpensMarkup rest) {r : Reader} (hrun : r.run = []) :
    ∃ r', Reader.Passes .jsx rest k (p.newline level) r r' ∧
      r'.flush .jsx = ⟨r.nodes, [], r.stack⟩ ∧ r'.stack = r.stack := by
  have hnone : flowText? .jsx (p.newline level) = none :=
    flowText?_newline (List.all_eq_true.1 (all_isIndent_replicate hp.unit level))
  refine ⟨_, Reader.passes_text (isPlain_newline hp level) (List.cons_ne_nil _ _) hrest k r, ?_, rfl⟩
  rw [Reader.flush_hear hrun, runNode?]
  simp [hnone]

/-- Elements on lines of their own are read one after another. -/
theorem exists_passes_lines (hp : p.WritesJsx) {ns : List Node} (hns : ∀ n ∈ ns, p.IsReadBack n)
    (hnormal : Node.AllJsxNormal ns) (helements : ∀ n ∈ ns, n.isElement = true) (level k : Nat)
    (rest : Text) {r : Reader} (hopen : r.stack ≠ []) (hrun : r.run = []) :
    ∃ r', Reader.Passes .jsx rest k
        ((p.printAll level false ns).flatMap (p.newline level ++ ·)) r r' ∧
      r'.nodes.map Prod.fst = ns.reverse ++ r.nodes.map Prod.fst ∧ r'.stack = r.stack ∧
      r'.run = [] := by
  induction ns generalizing k r with
  | nil => exact ⟨r, .nil k r, rfl, rfl, hrun⟩
  | cons n ns ih =>
    have hplain : n.isPlainText = false := by
      have := helements n List.mem_cons_self
      cases n with
      | text => cases this
      | element => rfl
    let behind := (p.printAll level false ns).flatMap (p.newline level ++ ·) ++ rest
    obtain ⟨r₁, hbreak, hflush, hstack⟩ := exists_passes_newline hp level k
      (opensMarkup_printNode hp hnormal.1 hplain level behind) hrun
    obtain ⟨r₂, hpasses, hnodes, hstack', hrun'⟩ := hns n List.mem_cons_self level
      (k + width (p.newline level)) behind r₁ fun h => by rw [hplain] at h; cases h
    rw [hflush, Reader.flush_of_run (hrun' hplain)] at hnodes
    have hopen₁ : r₁.stack ≠ [] := by rwa [hstack]
    have hopen₂ : r₂.stack ≠ [] := by rwa [hstack']
    obtain ⟨r₃, hrest', hnodes', hstack'', hrun''⟩ := ih
      (fun m hm => hns m (List.mem_cons_of_mem n hm)) hnormal.2
      (fun m hm => helements m (List.mem_cons_of_mem n hm))
      (k + width (p.newline level ++ p.printNode level false n)) hopen₂ (hrun' hplain)
    refine ⟨r₃, ?_, by simp [hnodes', hnodes], hstack''.trans (hstack'.trans hstack), hrun''⟩
    rw [printAll, List.flatMap_cons]
    refine Reader.Passes.append ?_ hopen₂ hrest'
    exact Reader.Passes.append hbreak hopen₁ hpasses

/-- **Children are read one after another**, in either layout. -/
theorem exists_passes_content (hp : p.WritesJsx) {ns : List Node} (hns : ∀ n ∈ ns, p.IsReadBack n)
    (hnormal : Node.AllJsxNormal ns) (hapart : PlainTextsApart ns) (level k : Nat) {rest : Text}
    (hrest : Reader.OpensMarkup rest) {r : Reader} (hopen : r.stack ≠ []) (hrun : r.run = []) :
    ∃ r', Reader.Passes .jsx rest k (p.content level (p.isInline ns)
        (p.printAll (contentLevel level (p.isInline ns)) false ns)) r r' ∧
      (r'.flush .jsx).nodes.map Prod.fst = ns.reverse ++ r.nodes.map Prod.fst ∧
      r'.stack = r.stack := by
  have hnodes₀ : (r.flush .jsx).nodes = r.nodes := by rw [Reader.flush_of_run hrun]
  cases hinline : p.isInline ns with
  | true =>
    rw [content, contentLevel, if_pos rfl, if_pos rfl, ← hnodes₀]
    exact exists_passes_inline hp hns hnormal hapart level k hrest hopen fun _ _ _ => hrun
  | false =>
    have helements : ∀ n ∈ ns, n.isElement = true := by
      simpa [isInline, hp.flavor, Node.isText] using hinline
    obtain ⟨r₁, hlines, hnodes, hstack, hrun₁⟩ := exists_passes_lines hp hns hnormal helements
      (level + 1) k (p.newline level ++ rest) hopen hrun
    have hopen₁ : r₁.stack ≠ [] := by rwa [hstack]
    obtain ⟨r₂, hbreak, hflush, hstack'⟩ := exists_passes_newline hp level
      (k + width ((p.printAll (level + 1) false ns).flatMap (p.newline (level + 1) ++ ·))) hrest hrun₁
    refine ⟨r₂, hlines.append hopen₁ hbreak, by rw [hflush, hnodes], hstack'.trans hstack⟩

/-! ## Elements -/

/-- A printed tag takes a reader where the tag takes it. -/
theorem exists_passes_openTag (hp : p.WritesJsx) {tag : Text} {attributes style : Attrs}
    {children : List Node} (hn : (Node.element tag attributes style children).IsJsxNormal)
    (sc : Bool) (k : Nat) (rest : Text) :
    ∃ t, t.Gives tag attributes style ∧ t.selfClosing = sc ∧
      ∀ r r₁, Reader.step .jsx r (.openTag t) = .ok r₁ →
        Reader.Passes .jsx rest k (p.tagText tag attributes style sc) r r₁ := by
  obtain ⟨htag, -, ha, hstyle, hs, -, -⟩ := hn
  obtain ⟨t, body, hhead, hopen, hstop, hself, hgives⟩ :=
    exists_openTag hp htag ha hstyle hs sc k rest
  have hlexeme : (Lexeme.openTag t).stop = k + width (p.tagText tag attributes style sc) := by
    rw [Lexeme.stop, hgives.raw, hstop]
  have hscan := scan_openTag hhead hopen
  rw [← hlexeme] at hscan
  exact ⟨t, hgives, hself, fun r r₁ hstep => .single _ hscan hlexeme hstep⟩

/-- **An element is read as it was printed** if its children are. -/
theorem isReadBack_element (hp : p.WritesJsx) {tag : Text} {attributes style : Attrs}
    {children : List Node} (hn : (Node.element tag attributes style children).IsJsxNormal)
    (hchildren : ∀ n ∈ children, p.IsReadBack n) :
    p.IsReadBack (.element tag attributes style children) := by
  intro level k rest r _
  have hparts := hn
  obtain ⟨htag, hvoid, -, -, -, hapart, hnormal⟩ := hparts
  rw [printNode_element hp htag]
  by_cases hc : children = []
  · -- the tag closes itself
    rw [if_pos hc]
    obtain ⟨t, hgives, hself, hpasses⟩ := exists_passes_openTag hp hn true k rest
    let n := t.element .jsx t.closing.stop none []
    have hstep : r.step .jsx (.openTag t) = .ok ((r.flush .jsx).push n) := by
      simp [Reader.step, Reader.stepTag, hself, n]
    have hrun : ((r.flush .jsx).push n).run = [] := Reader.run_flush r
    have hnode : n.1 = .element tag attributes style children := by
      rw [hgives.element, hc, List.map_nil]
    refine ⟨_, hpasses r _ hstep, ?_, Reader.stack_flush r, fun _ => hrun⟩
    rw [Reader.flush_of_run hrun, ← hnode]
    rfl
  · -- the tag is followed by children and a close tag
    rw [if_neg hc]
    let layout := p.content level (p.isInline children)
      (p.printAll (contentLevel level (p.isInline children)) false children)
    obtain ⟨t, hgives, hself, hpasses⟩ := exists_passes_openTag hp hn false k
      (layout ++ (CloseSource.mk tag []).source ++ rest)
    have hnotVoid : isVoid tag = false := Bool.eq_false_iff.2 fun h => hc (hvoid h)
    have hchild : t.rawChild = [] := by simp [OpenTag.rawChild, hgives.raw]
    have hstep : r.step .jsx (.openTag t) = .ok ((r.flush .jsx).enter t) := by
      simp [Reader.step, Reader.stepTag, Reader.enter, hself, hgives.name, hnotVoid]
    obtain ⟨r₁, hcontent, hnodes, hstack⟩ := exists_passes_content hp hchildren hnormal hapart level
      (k + width (p.tagText tag attributes style false))
      (Reader.opensMarkup_closeSource htag rest) (r := (r.flush .jsx).enter t)
      (List.cons_ne_nil _ _) rfl
    have hopen : r₁.stack ≠ [] := by
      rw [hstack]
      exact List.cons_ne_nil _ _
    obtain ⟨stop, inner, hclose⟩ := Reader.passes_closeTag (hgives.name.symm ▸ htag)
      (k + width (p.tagText tag attributes style false) + width layout) rest hstack
    rw [hgives.name] at hclose
    have hnode : (t.element .jsx stop inner (r₁.flush .jsx).nodes.reverse).1 =
        .element tag attributes style children := by
      rw [hgives.element, List.map_reverse, hnodes]
      simp [Reader.enter, hchild]
    refine ⟨_, (hpasses r _ hstep).append (List.cons_ne_nil _ _) (hcontent.append hopen hclose), ?_,
      Reader.stack_flush r, fun _ => rfl⟩
    rw [Reader.flush_of_run rfl, ← hnode]
    rfl

mutual

/-- **A node that JSX can express is read as it was printed.** -/
theorem isReadBack (hp : p.WritesJsx) {n : Node} (hn : n.IsJsxNormal) : p.IsReadBack n := by
  cases n with
  | text t => exact isReadBack_text hp hn
  | element tag attributes style children =>
    exact isReadBack_element hp hn (isReadBack_of_mem hp hn.2.2.2.2.2.2)

theorem isReadBack_of_mem (hp : p.WritesJsx) {ns : List Node} (hns : Node.AllJsxNormal ns) :
    ∀ n ∈ ns, p.IsReadBack n := by
  cases ns with
  | nil => exact nofun
  | cons n ns =>
    exact List.forall_mem_cons.2 ⟨isReadBack hp hns.1, isReadBack_of_mem hp hns.2⟩

end

/-! ## Documents -/

/-- What a fragment is printed as. -/
theorem print_root (hp : p.WritesJsx) (children : List Node) (level : Nat) :
    p.print (.root children) level = ['<', '>'] ++ (p.content level (p.isInline children)
      (p.printAll (contentLevel level (p.isInline children)) false children) ++ ['<', '/', '>']) := by
  rw [print, Node.root, printNode, if_pos rfl, hp.flavor]
  simp

/-- **A fragment is read as it was printed.** -/
theorem exists_passes_root (hp : p.WritesJsx) {children : List Node}
    (hapart : PlainTextsApart children) (hchildren : Node.AllJsxNormal children)
    (level k : Nat) (rest : Text) :
    ∃ r, Reader.Passes .jsx rest k (p.print (.root children) level) .start r ∧
      r.nodes.map Prod.fst = children.reverse ∧ r.stack = [] ∧ r.run = [] := by
  let layout := p.content level (p.isInline children)
    (p.printAll (contentLevel level (p.isInline children)) false children)
  have hopen := Reader.passes_fragmentOpen k (layout ++ ['<', '/', '>'] ++ rest) .start
  obtain ⟨r₁, hcontent, hnodes, hstack⟩ := exists_passes_content hp
    (isReadBack_of_mem hp hchildren) hchildren hapart level (k + width ['<', '>'])
    (Reader.opensMarkup_fragmentClose rest)
    (r := ⟨[], [], (.fragment ⟨k, k + width ['<', '>']⟩, []) :: []⟩) (List.cons_ne_nil _ _) rfl
  replace hstack : r₁.stack = [(.fragment ⟨k, k + width ['<', '>']⟩, [])] := hstack
  have hopen₁ : r₁.stack ≠ [] := by
    rw [hstack]
    exact List.cons_ne_nil _ _
  have hclose := Reader.passes_fragmentClose (k + width ['<', '>'] + width layout) rest hstack
  refine ⟨⟨(r₁.flush .jsx).nodes ++ [], [], []⟩, ?_, ?_, rfl, rfl⟩
  · rw [print_root hp]
    exact hopen.append (List.cons_ne_nil _ _) (hcontent.append hopen₁ hclose)
  · rw [List.append_nil, hnodes, List.map_nil, List.append_nil]

/-- A printed document is read until it closes. -/
theorem exists_passes_print (hp : p.WritesJsx) {n : Node} (hn : n.IsJsxDocument)
    (level k : Nat) (rest : Text) :
    ∃ r, Reader.Passes .jsx rest k (p.print n level) .start r ∧ r.stack = [] ∧ r.run = [] ∧
      Node.ofTopLevel (r.nodes.reverse.map Prod.fst) = n := by
  cases n with
  | text t => exact hn.elim
  | element tag attributes style children =>
    rw [Node.IsJsxDocument] at hn
    split_ifs at hn with htag
    · obtain ⟨rfl, rfl, hapart, hchildren, hone⟩ := hn
      subst htag
      obtain ⟨r, hpasses, hnodes, hstack, hrun⟩ :=
        exists_passes_root hp hapart hchildren level k rest
      refine ⟨r, hpasses, hstack, hrun, ?_⟩
      rw [List.map_reverse, hnodes, List.reverse_reverse, Node.ofTopLevel_eq_root hone]
      rfl
    · obtain ⟨r, hpasses, hnodes, hstack, hrun⟩ := isReadBack hp hn level k rest .start
        fun h => by cases h
      refine ⟨r, hpasses, hstack, hrun rfl, ?_⟩
      rw [Reader.flush_of_run (hrun rfl)] at hnodes
      rw [List.map_reverse, hnodes]
      rfl

/-- A printed document starts with a tag or a fragment. -/
theorem exists_lexemes_print (hp : p.WritesJsx) {n : Node} (hn : n.IsJsxDocument)
    (level k : Nat) (rest : Text) :
    ∃ l ls, (scan .jsx k (p.print n level ++ rest)).lexemes = l :: ls ∧ l.OpensRoot := by
  cases n with
  | text t => exact hn.elim
  | element tag attributes style children =>
    rw [Node.IsJsxDocument] at hn
    split_ifs at hn with htag
    · obtain ⟨rfl, rfl, -⟩ := hn
      subst htag
      obtain ⟨u, hu⟩ : ∃ u, p.print (.root children) level ++ rest = '<' :: '>' :: u :=
        ⟨_, by rw [print_root hp, List.append_assoc]; rfl⟩
      have hhead : contentHead .jsx ('<' :: '>' :: u) = .ok (some (.fragmentOpen ['<', '>'] u)) := rfl
      rw [Node.root] at hu
      rw [hu, scan_fragmentOpen hhead]
      exact ⟨_, _, rfl, trivial⟩
    · obtain ⟨htag, -, ha, hstyle, hs, -, -⟩ := hn
      have hopen (sc : Bool) (u : Text) : ∃ l ls,
          (scan .jsx k (p.tagText tag attributes style sc ++ u)).lexemes = l :: ls ∧
            l.OpensRoot := by
        obtain ⟨t, body, hhead, hopen, -⟩ := exists_openTag hp htag ha hstyle hs sc k u
        rw [scan_openTag hhead hopen]
        exact ⟨_, _, rfl, trivial⟩
      rw [print, printNode_element hp htag]
      split_ifs
      · exact hopen true rest
      · rw [List.append_assoc]
        exact hopen false _

end Printer

/-- **Printed markup is read as the document**, with its attributes and declarations in their
order: up to its end at any byte of a text, whatever follows it, and as a text of its own. -/
theorem Document.read_print_jsx {p : Printer} (hp : p.WritesJsx) {n : Node} (hn : n.IsJsxDocument)
    (level : Nat) :
    (∀ start rest, ∃ d, Document.readRootAt .jsx start (p.print n level ++ rest) =
      .ok (d, start + width (p.print n level)) ∧ d.root = n) ∧
    ∃ d, Document.read .jsx (p.print n level) = .ok d ∧ d.root = n := by
  constructor
  · intro start rest
    obtain ⟨r, hpasses, hclosed, -, htop⟩ := Printer.exists_passes_print hp hn level start rest
    obtain ⟨l, ls, hlexemes, hopens⟩ := Printer.exists_lexemes_print hp hn level start rest
    have hne : p.print n level ≠ [] := by
      intro h
      obtain ⟨l, ls, hnone, -⟩ := Printer.exists_lexemes_print hp hn level start []
      rw [h, List.append_nil, scan_nil] at hnone
      cases hnone
    obtain ⟨last, hread, hlast⟩ := hpasses.exists_untilClosed (.inr hne) hclosed
      (scan .jsx start (p.print n level ++ rest)).fault
    obtain ⟨d, hd, hroot⟩ := Document.exists_readRootAt hlexemes hopens hread
    exact ⟨d, by rw [hd, hlast], hroot.trans htop⟩
  · obtain ⟨r, hpasses, hclosed, hrun, htop⟩ := Printer.exists_passes_print hp hn level 0 []
    have hread : Document.read .jsx (p.print n level) = .ok (Document.ofTopLevel
        ⟨0, 0 + width (p.print n level)⟩ ⟨0, 0 + width (p.print n level)⟩ r.nodes.reverse) := by
      rw [Document.read, Document.readAt, hpasses.nodes_scan hrun hclosed]
      rfl
    exact ⟨_, hread, (Document.root_ofTopLevel ..).trans htop⟩

/-- A component with a renamed attribute, a spread, code with a string in it, a style, text next to
an expression, and an element on a line of its own. -/
def Node.card : Node :=
  .element "Card".toList
    ⟨[("class".toList, "a b".toList), ("\x7b...rest\x7d".toList, []),
      ("on".toList, "\x7bf('\x7d')\x7d".toList)], by decide⟩
    ⟨[("font-size".toList, "1em".toList), ("--gap".toList, "'x'".toList)], by decide⟩
    [.element "p".toList .empty .empty
        [.text "x < \x7by\x7d ".toList, .text "\x7bn\x7d".toList],
      .element "br".toList .empty .empty []]

theorem Document.read_print_jsx_card :
    let p := FormatOptions.printer ⟨2, true, .single, true⟩ .jsx
    p.WritesJsx ∧ Node.card.IsJsxDocument ∧
      (∀ start rest, ∃ d, Document.readRootAt .jsx start (p.print .card 2 ++ rest) =
        .ok (d, start + width (p.print .card 2)) ∧ d.root = .card) ∧
      ∃ d, Document.read .jsx (p.print .card 2) = .ok d ∧ d.root = .card := by
  intro p
  have hp : p.WritesJsx := FormatOptions.writesJsx_printer _
  have hn : Node.card.IsJsxDocument := by decide
  exact ⟨hp, hn, Document.read_print_jsx hp hn 2⟩

end MarkupSync
