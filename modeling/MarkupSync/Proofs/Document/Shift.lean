import MarkupSync.Document.Read
import MarkupSync.Proofs.Document.Spans
import MarkupSync.Proofs.Lexeme.Shift
import MarkupSync.Proofs.Lexeme.Tokenizer

/-!
# Documents of texts that start further on

The byte at which a text starts moves the places of its document and of its error, and changes
nothing else: the tree of a part of a file depends only on the characters of that part, and what
stands around it has no influence.

* `Place.shift`, `Document.shift`: places moved by a number of bytes;
* `Reader.step_shift`, `Reader.steps_shift`: reading lexemes further on;
* **`Document.readAt_shift`**: the document of a text that starts `k` bytes further on;
* `Document.exists_readWithin`: parts of texts that agree have the same tree;
* `Reader.untilClosed_shift`: reading up to where everything is closed, further on;
* `Document.readRootAt_eq_shift`: the element that a text starts with, further on;
* **`Document.read_part`**: the tokens, the document and the first element of a part of a text.
-/

namespace MarkupSync

/-! ## Moving places -/

/-- The place of an attribute moved by `k` bytes. -/
def AttrPlace.shift (k : Nat) (p : AttrPlace) : AttrPlace :=
  ⟨p.key, p.span.shift k, p.value.map (Span.shift k)⟩

/-- The parts of an element moved by `k` bytes. -/
def ElementPlace.shift (k : Nat) (p : ElementPlace) : ElementPlace where
  outer := p.outer.shift k
  openTag := p.openTag.map (Span.shift k)
  attrsEnd := p.attrsEnd + k
  inner := p.inner.map (Span.shift k)
  attributes := p.attributes.map (AttrPlace.shift k)

mutual

/-- The place of a node moved by `k` bytes. -/
def Place.shift (k : Nat) : Place → Place
  | .text span => .text (span.shift k)
  | .element place children => .element (place.shift k) (Place.shiftAll k children)

/-- The places of a list of nodes moved by `k` bytes. -/
def Place.shiftAll (k : Nat) : List Place → List Place
  | [] => []
  | p :: ps => p.shift k :: Place.shiftAll k ps

end

/-- A document moved by `k` bytes. -/
def Document.shift (k : Nat) (d : Document) : Document := ⟨d.root, d.place.shift k⟩

/-- A node with its place moved by `k` bytes. -/
def Document.shiftNode (k : Nat) (n : Node × Place) : Node × Place := (n.1, n.2.shift k)

open Document (shiftNode)

/-- What the attributes of a tag say, moved by `k` bytes. -/
def TagContent.shift (k : Nat) (t : TagContent) : TagContent :=
  { t with places := t.places.map (AttrPlace.shift k) }

/-- Something open moved by `k` bytes. -/
def Opened.shift (k : Nat) : Opened → Opened
  | element tag => element (tag.shift k)
  | fragment span => fragment (span.shift k)

/-- Pieces of text moved by `k` bytes. -/
def shiftPieces (k : Nat) (pieces : List (Text × Nat)) : List (Text × Nat) :=
  pieces.map fun (piece, start) => (piece, start + k)

/-- A reader moved by `k` bytes. -/
def Reader.shift (k : Nat) (r : Reader) : Reader where
  nodes := r.nodes.map (shiftNode k)
  run := shiftPieces k r.run
  stack := r.stack.map fun (opened, nodes) => (opened.shift k, nodes.map (shiftNode k))

variable {flavor : Flavor} (k : Nat)

theorem Place.shiftAll_eq_map (ps : List Place) : Place.shiftAll k ps = ps.map (Place.shift k) := by
  induction ps with
  | nil => rfl
  | cons p ps ih => rw [Place.shiftAll, ih, List.map_cons]

theorem Document.map_fst_shiftNode (ns : List (Node × Place)) :
    (ns.map (shiftNode k)).map Prod.fst = ns.map Prod.fst := by
  rw [List.map_map]
  rfl

theorem Document.map_snd_shiftNode (ns : List (Node × Place)) :
    (ns.map (shiftNode k)).map Prod.snd = Place.shiftAll k (ns.map Prod.snd) := by
  rw [List.map_map, Place.shiftAll_eq_map, List.map_map]
  rfl

theorem Document.ofTopLevel_shift (outer inner : Span) (ns : List (Node × Place)) :
    Document.ofTopLevel (outer.shift k) (inner.shift k) (ns.map (shiftNode k)) =
      (Document.ofTopLevel outer inner ns).shift k := by
  match ns with
  | [] => rfl
  | [(.text content, place)] => rfl
  | [(.element tag attributes style children, place)] => rfl
  | a :: b :: ns =>
    -- several nodes are wrapped
    rw [Document.ofTopLevel.eq_2 _ _ (a :: b :: ns) (by simp), Document.ofTopLevel.eq_2 _ _ _ (by simp),
      Document.map_fst_shiftNode, Document.map_snd_shiftNode]
    rfl

/-! ## Tags -/

theorem AttrMeaning.of_shift (key : Text) (value : Option RawValue) :
    AttrMeaning.of key (value.map (RawValue.shift k)) = AttrMeaning.of key value := by
  cases value <;> rfl

theorem TagContent.add_shift (t : TagContent) (raw : RawAttribute) :
    TagContent.add flavor (t.shift k) (raw.shift k) = (TagContent.add flavor t raw).shift k := by
  have hplace : AttrPlace.shift k ⟨flavor.key raw.name, raw.span, raw.value.map RawValue.span⟩ =
      ⟨flavor.key raw.name, (raw.shift k).span,
        (raw.value.map (RawValue.shift k)).map RawValue.span⟩ := by
    rw [RawAttribute.span_shift, AttrPlace.shift]
    cases raw.value <;> rfl
  have hmeaning := AttrMeaning.of_shift k (flavor.key raw.name) raw.value
  simp only [TagContent.add, TagContent.shift, RawAttribute.shift] at hplace ⊢
  rw [hmeaning]
  by_cases h : (t.attributes.has (flavor.key raw.name) ||
      flavor.key raw.name == styleName && !t.style.isEmpty) = true
  · simp only [h, if_true]
  · simp only [h, Bool.false_eq_true, if_false]
    cases AttrMeaning.of (flavor.key raw.name) raw.value <;> simp [hplace]

theorem OpenTag.content_shift (t : OpenTag) :
    (t.shift k).content flavor = (t.content flavor).shift k := by
  have key (as : List RawAttribute) : ∀ c : TagContent,
      (as.map (RawAttribute.shift k)).foldl (TagContent.add flavor) (c.shift k) =
        (as.foldl (TagContent.add flavor) c).shift k := by
    induction as with
    | nil => exact fun c => rfl
    | cons a as ih =>
      intro c
      rw [List.map_cons, List.foldl_cons, List.foldl_cons, TagContent.add_shift, ih]
  exact key t.attributes ⟨.empty, .empty, []⟩

theorem OpenTag.attrsEnd_shift (t : OpenTag) : (t.shift k).attrsEnd = t.attrsEnd + k := by
  simp only [OpenTag.attrsEnd, OpenTag.shift, List.getLast?_map]
  cases t.attributes.getLast? with
  | none => rfl
  | some a => exact congrArg Span.stop (RawAttribute.span_shift k a)

theorem OpenTag.element_shift (flavor : Flavor) (t : OpenTag) (stop : Nat) (inner : Option Span)
    (children : List (Node × Place)) :
    (t.shift k).element flavor (stop + k) (inner.map (Span.shift k)) (children.map (shiftNode k)) =
      shiftNode k (t.element flavor stop inner children) := by
  simp only [OpenTag.element, OpenTag.content_shift, OpenTag.attrsEnd_shift,
    Document.map_fst_shiftNode, Document.map_snd_shiftNode]
  rfl

theorem OpenTag.rawChild_shift (t : OpenTag) :
    (t.shift k).rawChild = t.rawChild.map (shiftNode k) := by
  simp only [OpenTag.rawChild, OpenTag.shift]
  cases t.raw with
  | none => rfl
  | some raw =>
    simp only [Option.map_some]
    split
    · rfl
    · simp [shiftNode, Place.shift, Span.shift, Nat.add_assoc]

/-! ## Runs of text -/

theorem trimmedPiece?_shift (piece : Text) (start : Nat) :
    trimmedPiece? (piece, start + k) = (trimmedPiece? (piece, start)).map (Span.shift k) := by
  simp only [trimmedPiece?]
  split
  · rfl
  · simp [Span.shift, Nat.add_assoc]

theorem findSome?_trimmedPiece_shift (pieces : List (Text × Nat)) :
    (shiftPieces k pieces).findSome? trimmedPiece? =
      (pieces.findSome? trimmedPiece?).map (Span.shift k) := by
  induction pieces with
  | nil => rfl
  | cons p ps ih =>
    rw [shiftPieces, List.map_cons, List.findSome?_cons, List.findSome?_cons, trimmedPiece?_shift]
    cases trimmedPiece? (p.1, p.2) with
    | none => exact ih
    | some span => rfl

theorem runSpan_shift {pieces : List (Text × Nat)} (h : pieces ≠ []) :
    runSpan (shiftPieces k pieces) = (runSpan pieces).shift k := by
  have hrev : (shiftPieces k pieces).reverse = shiftPieces k pieces.reverse := by
    rw [shiftPieces, ← List.map_reverse]
    rfl
  simp only [runSpan, hrev, findSome?_trimmedPiece_shift]
  cases pieces with
  | nil => exact absurd rfl h
  | cons p ps =>
    cases (p :: ps).findSome? trimmedPiece? <;> cases (p :: ps).reverse.findSome? trimmedPiece? <;>
      simp [Span.shift, shiftPieces, Nat.add_right_comm]

theorem runNode?_shift {pieces : List (Text × Nat)} (h : pieces ≠ []) :
    runNode? flavor (shiftPieces k pieces) = (runNode? flavor pieces).map (shiftNode k) := by
  have htext : (shiftPieces k pieces).flatMap Prod.fst = pieces.flatMap Prod.fst := by
    rw [shiftPieces, List.flatMap_map]
  rw [runNode?, runNode?, htext, runSpan_shift k h]
  cases flowText? flavor (pieces.flatMap Prod.fst) <;> rfl

/-! ## Readers -/

namespace Reader

theorem flush_shift (r : Reader) : (r.shift k).flush flavor = (r.flush flavor).shift k := by
  have hrun : (r.shift k).run = [] ↔ r.run = [] := List.map_eq_nil_iff
  by_cases h : r.run = []
  · rw [flush, flush, if_pos h, if_pos (hrun.2 h)]
  · have hnode : runNode? flavor (r.shift k).run = (runNode? flavor r.run).map (shiftNode k) :=
      runNode?_shift k h
    rw [flush, flush, if_neg h, if_neg (mt hrun.1 h), hnode]
    cases runNode? flavor r.run <;> rfl

theorem stepTag_shift (r : Reader) (l : Lexeme) :
    (r.shift k).stepTag flavor (l.shift k) =
      ((r.stepTag flavor l).map (shift k)).mapError (ParseError.shift k) := by
  obtain ⟨nodes, run, stack⟩ := r
  cases l with
  | text content span =>
    simp [stepTag, shift, shiftPieces, Lexeme.shift, Span.shift, Except.map, Except.mapError]
  | expression content span => rfl
  | fragmentOpen span => rfl
  | fragmentClose span =>
    rcases stack with _ | ⟨⟨tag | span', before⟩, stack⟩
    · rfl
    · rfl
    · simp [stepTag, shift, Lexeme.shift, Opened.shift, Except.map, Except.mapError]
  | openTag tag =>
    have hchild := tag.rawChild_shift k
    have hnode := tag.element_shift k flavor tag.closing.stop none []
    simp only [Lexeme.shift, stepTag]
    by_cases hvoid : (tag.selfClosing || isVoid tag.name) = true
    · have hshift : ((tag.shift k).selfClosing || isVoid (tag.shift k).name) = true := hvoid
      rw [if_pos hvoid, if_pos hshift]
      exact congrArg (fun n => Except.ok (push (shift k ⟨nodes, run, stack⟩) n)) hnode
    · have hshift : ¬ ((tag.shift k).selfClosing || isVoid (tag.shift k).name) = true := hvoid
      rw [if_neg hvoid, if_neg hshift, hchild]
      rfl
  | closeTag name span =>
    rcases stack with _ | ⟨⟨tag | span', before⟩, stack⟩
    · rfl
    · have hnode := tag.element_shift k flavor span.stop
        (some ⟨tag.closing.stop, span.start⟩) nodes.reverse
      rw [List.map_reverse] at hnode
      simp only [Lexeme.shift, stepTag, shift, List.map_cons, Opened.shift]
      by_cases hname : flavor.closes tag.name name = true
      · have hshift : flavor.closes (tag.shift k).name name = true := hname
        rw [if_pos hname, if_pos hshift]
        exact congrArg (fun n => Except.ok (Reader.mk (n :: before.map (shiftNode k))
          (shiftPieces k run) (shift k ⟨nodes, run, stack⟩).stack)) hnode
      · have hshift : ¬ flavor.closes (tag.shift k).name name = true := hname
        rw [if_neg hname, if_neg hshift]
        rfl
    · rfl

/-- Reading a lexeme further on. -/
theorem step_shift (r : Reader) (l : Lexeme) :
    (r.shift k).step flavor (l.shift k) =
      ((r.step flavor l).map (shift k)).mapError (ParseError.shift k) := by
  have htag := @stepTag_shift flavor k
  cases l with
  | text content span => exact htag r (.text content span)
  | _ =>
    rw [step, step]
    · rw [flush_shift]
      exact htag _ _
    all_goals (intros; contradiction)

/-- Reading lexemes further on. -/
theorem steps_shift (r : Reader) (ls : List Lexeme) :
    (r.shift k).steps flavor (ls.map (Lexeme.shift k)) =
      ((r.steps flavor ls).map (shift k)).mapError (ParseError.shift k) := by
  induction ls generalizing r with
  | nil => rfl
  | cons l ls ih =>
    rw [List.map_cons, steps, steps, step_shift]
    cases r.step flavor l with
    | error e => rfl
    | ok r => exact ih r

theorem finish_shift (r : Reader) :
    (r.shift k).finish flavor =
      ((r.finish flavor).map (List.map (shiftNode k))).mapError (ParseError.shift k) := by
  cases hstack : r.stack with
  | nil =>
    have hshift : (r.shift k).stack = [] := by rw [shift, hstack]; rfl
    rw [finish, finish, hstack, hshift, flush_shift]
    exact congrArg Except.ok (List.map_reverse ..).symm
  | cons top stack =>
    obtain ⟨opened, before⟩ := top
    have hshift : (r.shift k).stack =
        (opened.shift k, before.map (shiftNode k)) :: (r.shift k).stack.tail := by
      rw [shift, hstack]
      rfl
    rw [finish, finish, hstack, hshift]
    cases opened <;> rfl

end Reader

theorem Scan.nodes_shift (r : Scan) :
    (r.shift k).nodes flavor =
      ((r.nodes flavor).map (List.map (shiftNode k))).mapError (ParseError.shift k) := by
  have hsteps : Reader.start.steps flavor (r.shift k).lexemes =
      ((Reader.start.steps flavor r.lexemes).map (Reader.shift k)).mapError (ParseError.shift k) :=
    Reader.start.steps_shift k r.lexemes
  rw [nodes, nodes, hsteps, shift]
  cases Reader.start.steps flavor r.lexemes with
  | error e => rfl
  | ok reader =>
    cases r.fault with
    | some e => rfl
    | none => exact reader.finish_shift k

/-- **The document of a text that starts `k` bytes further on.** -/
theorem Document.readAt_shift (n : Nat) (s : Text) :
    Document.readAt flavor (n + k) s =
      ((Document.readAt flavor n s).map (Document.shift k)).mapError (ParseError.shift k) := by
  have hregion : (⟨n + k, n + k + width s⟩ : Span) = Span.shift k ⟨n, n + width s⟩ := by
    rw [Span.shift_mk, Nat.add_right_comm]
  rw [Document.readAt, Document.readAt, scan_shift, Scan.nodes_shift, hregion]
  cases (scan flavor n s).nodes flavor with
  | error e => rfl
  | ok ns => exact congrArg Except.ok (Document.ofTopLevel_shift k _ _ ns)

/-- The tree of a text does not depend on the byte at which it starts. -/
theorem Document.exists_readAt {n : Nat} {s : Text} {d : Document}
    (h : Document.readAt flavor n s = .ok d) (m : Nat) :
    ∃ d', Document.readAt flavor m s = .ok d' ∧ d'.root = d.root := by
  have hn := @Document.readAt_shift flavor n 0 s
  have hm := @Document.readAt_shift flavor m 0 s
  rw [Nat.zero_add] at hn hm
  rw [h] at hn
  cases hzero : Document.readAt flavor 0 s with
  | error e =>
    rw [hzero] at hn
    cases hn
  | ok d₀ =>
    rw [hzero] at hn hm
    cases hn
    exact ⟨d₀.shift m, hm, rfl⟩

/-- Parts of texts that agree have the same tree. -/
theorem Document.exists_readWithin {r q : Span} {s t : Text} {d : Document}
    (hat : t.at q = s.at r) (h : Document.readWithin flavor r s = .ok d) :
    ∃ d', Document.readWithin flavor q t = .ok d' ∧ d'.root = d.root := by
  rw [Document.readWithin, hat]
  exact Document.exists_readAt h q.start

/-! ## Parts of a text -/

theorem Lexeme.stop_shift (l : Lexeme) : (l.shift k).stop = l.stop + k := by
  cases l with
  | openTag t =>
    obtain ⟨name, nameSpan, attributes, closing, selfClosing, raw⟩ := t
    cases raw <;> rfl
  | _ => rfl

namespace Reader

/-- A text that ends too early, further on, if something is open or the text has a fault. -/
theorem ended_shift {r : Reader} (h : r.stack ≠ []) (fault : Option ParseError) :
    (r.shift k).ended (fault.map (ParseError.shift k)) = (r.ended fault).shift k := by
  obtain ⟨nodes, run, stack⟩ := r
  cases fault with
  | some e => rfl
  | none =>
    cases stack with
    | nil => exact absurd rfl h
    | cons top stack =>
      obtain ⟨opened, before⟩ := top
      cases opened <;> rfl

variable (flavor) in
/-- Reading up to where everything is closed, further on. -/
theorem untilClosed_shift (fault : Option ParseError) {r : Reader} {ls : List Lexeme}
    (h : r.stack ≠ [] ∨ ls ≠ []) :
    (r.shift k).untilClosed flavor (fault.map (ParseError.shift k)) (ls.map (Lexeme.shift k)) =
      ((r.untilClosed flavor fault ls).map fun (nodes, last) =>
        (nodes.map (Document.shiftNode k), last.shift k)).mapError (ParseError.shift k) := by
  induction ls generalizing r with
  | nil =>
    obtain h | h := h
    · exact congrArg Except.error (ended_shift k h fault)
    · exact absurd rfl h
  | cons l ls ih =>
    rw [List.map_cons, untilClosed, untilClosed, step_shift]
    cases r.step flavor l with
    | error e => rfl
    | ok r =>
      cases hstack : r.stack with
      | nil =>
        have hshift : (r.shift k).stack = [] := by rw [shift, hstack]; rfl
        simp only [Except.map, Except.mapError, hstack, hshift]
        exact congrArg (fun nodes => Except.ok (nodes, l.shift k)) (List.map_reverse ..).symm
      | cons top stack =>
        have hshift : (r.shift k).stack ≠ [] := by simp [shift, hstack]
        have ih := ih (r := r) (.inl (by simp [hstack]))
        simp only [Except.map, Except.mapError, hstack, List.isEmpty_iff, hshift] at ih ⊢
        exact ih

end Reader

namespace Document

/-- The close of the fragment that a text starts with takes three of its bytes. -/
theorem fragmentCloseWidth_le {s : Text} {span : Span} {ls : List Lexeme}
    {fault : Option ParseError} {nodes : List (Node × Place)} {last : Lexeme}
    (hlexemes : (scan flavor 0 s).lexemes = .fragmentOpen span :: ls)
    (h : Reader.start.untilClosed flavor fault (.fragmentOpen span :: ls) = .ok (nodes, last)) :
    fragmentCloseWidth ≤ last.stop := by
  obtain ⟨horder, hls⟩ := stands_scan flavor (Text.Holds.self s)
  rw [hlexemes] at horder hls
  obtain ⟨hlo, hspan, horder⟩ := inOrder_cons.1 horder
  obtain ⟨hopen, hls⟩ := List.forall_mem_cons.1 hls
  have hsound : Reader.start.IsSound flavor s ⟨0, width s⟩ 0 := Reader.isSound_start (Nat.zero_le _)
  have hopened := hsound.step hopen hlo hspan horder.le rfl
  obtain ⟨close, rfl, hmem, -⟩ :=
    hopened.untilClosed_fragment (List.nil_append _).symm horder hls h
  have hclose : s.Holds close ['<', '/', '>'] := hls _ hmem
  show fragmentCloseWidth ≤ close.stop
  rw [hclose.stop_eq]
  exact Nat.le_add_left fragmentCloseWidth close.start

/-- The document of the element or fragment that a text starts with, if the text starts `k` bytes
further on. -/
theorem readRootAt_eq_shift (s : Text) :
    readRootAt flavor k s =
      ((readRootAt flavor 0 s).map fun (d, stop) => (d.shift k, stop + k)).mapError
        (ParseError.shift k) := by
  have hscan : scan flavor k s = (scan flavor 0 s).shift k := by rw [← scan_shift, Nat.zero_add]
  rw [readRootAt, readRootAt]
  simp only [hscan, Scan.shift]
  cases hlexemes : (scan flavor 0 s).lexemes with
  | nil =>
    cases (scan flavor 0 s).fault with
    | some e => rfl
    | none =>
      exact congrArg (fun n => Except.error (ParseError.mk .noElement n)) (Nat.zero_add k).symm
  | cons first ls =>
    have huntil := Reader.untilClosed_shift flavor k (scan flavor 0 s).fault (r := .start)
      (.inr (List.cons_ne_nil first ls))
    have hstart : Reader.start.shift k = Reader.start := rfl
    rw [hstart] at huntil
    cases first with
    | openTag t =>
      have hfirst : (Lexeme.openTag t).shift k = .openTag (t.shift k) := rfl
      simp only [List.map_cons, hfirst] at huntil ⊢
      rw [huntil]
      cases Reader.start.untilClosed flavor (scan flavor 0 s).fault (.openTag t :: ls) with
      | error e => rfl
      | ok read =>
        have hregion : (⟨k, read.2.stop + k⟩ : Span) = Span.shift k ⟨0, read.2.stop⟩ := by
          rw [Span.shift_mk, Nat.zero_add]
        simp only [Except.map, Except.mapError, Lexeme.stop_shift]
        rw [hregion, ofTopLevel_shift]
    | fragmentOpen span =>
      have hfirst : (Lexeme.fragmentOpen span).shift k = .fragmentOpen (span.shift k) := rfl
      simp only [List.map_cons, hfirst] at huntil ⊢
      rw [huntil]
      cases hread : Reader.start.untilClosed flavor (scan flavor 0 s).fault
          (.fragmentOpen span :: ls) with
      | error e => rfl
      | ok read =>
        have hclose := fragmentCloseWidth_le hlexemes hread
        simp only [Except.map, Except.mapError, Lexeme.stop_shift, Nat.sub_add_comm hclose]
        exact congrArg (fun d => Except.ok (d, read.2.stop + k)) (ofTopLevel_shift k
          ⟨span.start, read.2.stop⟩ ⟨span.stop, read.2.stop - fragmentCloseWidth⟩ read.1)
    | _ => exact congrArg (fun n => Except.error (ParseError.mk .noElement n)) (Nat.zero_add k).symm

/-- **A part of a text is read as its text by itself**, moved to where the part starts: the tokens
that are read in place, the document, the first element with its end, and the errors. -/
theorem read_part (flavor : Flavor) (p m q : Text) :
    let source := p ++ m ++ q
    let region : Span := ⟨width p, width p + width m⟩
    (∀ r : Scan, (Tokenizer.bounded flavor region source).Emits r.tokens r.fault ↔
      r = (scanAll flavor m).shift (width p)) ∧
    readWithin flavor region source =
      ((read flavor m).map (shift (width p))).mapError (ParseError.shift (width p)) ∧
    readRootWithin flavor region source =
      ((readRootAt flavor 0 m).map fun (d, stop) => (d.shift (width p), stop + width p)).mapError
        (ParseError.shift (width p)) := by
  intro source region
  have hpart : source.at region = m := Text.slice_append p m q
  refine ⟨Tokenizer.emits_iff flavor p m q, ?_, ?_⟩
  · rw [readWithin, hpart, read, ← readAt_shift, Nat.zero_add]
  · rw [readRootWithin, hpart, readRootAt_eq_shift]

end Document

end MarkupSync
