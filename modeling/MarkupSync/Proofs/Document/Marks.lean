import MarkupSync.Proofs.Document.Image
import MarkupSync.Proofs.Text.Lines

/-!
# Data and code in markup

* `Mark`: what markup says, piece by piece, with data and code apart;
* `marks`, `Node.marks`: what lexemes say, and what a tree says if whatever looks like code is code;
* `Mark.isEvident`: nothing but code looks like code;
* `foldl_add_marks`: the attributes of a tag;
* `Reader.exists_marks_step`: what one lexeme adds to a reader;
* **`Document.marks_root`**: a document says what its lexemes say, if that is evident;
* `Mark.letters`, `letters_marksFrom`: texts cut into their letters.
-/

namespace MarkupSync

open Text

/-! ## Marks -/

/-- An attribute: the name by which a document knows it, whether its value is code, and the
value. -/
structure AttrMark where
  key : Text
  isCode : Bool
  value : Text
  deriving Repr, DecidableEq

/-- A piece of what markup says. -/
inductive Mark
  | opened (tag : Text) (attributes : List AttrMark)
  | closed
  | code (content : Text)
  | literal (content : Text)
  deriving Repr, DecidableEq

namespace Mark

/-- Whether nothing but code looks like code. -/
def isEvident : Mark → Bool
  | opened _ attributes => attributes.all fun a => a.isCode || !isExpression a.value
  | literal content => !isExpression content
  | closed | code _ => true

/-- Code ends at the brace that closes the first one. -/
def ClosesCode : Mark → Prop
  | opened _ attributes => ∀ a ∈ attributes, a.isCode = true → IsClosed a.value
  | code content => IsClosed content
  | closed | literal _ => True

/-- A text cut into its letters, and anything else as it is. -/
def letters : Mark → List Mark
  | literal content => (Text.letters content).map fun c => literal [c]
  | opened tag attributes => [opened tag attributes]
  | closed => [closed]
  | code content => [code content]

end Mark

/-! ## Marks of lexemes -/

/-- An attribute of JSX. -/
def RawAttribute.mark (a : RawAttribute) : AttrMark :=
  let key := Flavor.key .jsx a.name
  ⟨key, a.isCode,
    match AttrMeaning.of key a.value with
    | .value value => value
    | .declarations _ => []⟩

/-- The attributes of a tag, the first one of each name, without those that are named in `seen`. -/
def attrMarks (seen : List Text) : List RawAttribute → List AttrMark
  | [] => []
  | a :: as =>
    if seen.contains a.mark.key then attrMarks seen as
    else a.mark :: attrMarks (a.mark.key :: seen) as

theorem attrMarks_cons_of_mem {seen : List Text} {a : RawAttribute} (h : a.mark.key ∈ seen)
    (as : List RawAttribute) : attrMarks seen (a :: as) = attrMarks seen as :=
  if_pos (List.contains_iff_mem.2 h)

theorem attrMarks_cons_of_not_mem {seen : List Text} {a : RawAttribute} (h : a.mark.key ∉ seen)
    (as : List RawAttribute) :
    attrMarks seen (a :: as) = a.mark :: attrMarks (a.mark.key :: seen) as :=
  if_neg (mt List.contains_iff_mem.1 h)

/-- The attributes of a tag other than its style. -/
def OpenTag.attrMarks (t : OpenTag) : List AttrMark := MarkupSync.attrMarks [styleName] t.attributes

/-- What a lexeme says that is no text. -/
def Lexeme.marks : Lexeme → List Mark
  | .openTag t =>
    .opened t.name t.attrMarks :: if t.selfClosing || isVoid t.name then [.closed] else []
  | .closeTag .. => [.closed]
  | .expression content _ => [.code content]
  | .fragmentOpen _ | .fragmentClose _ | .text .. => []

/-- What a run of text says. -/
def literalMarks (run : Text) : List Mark := ((flowText? .jsx run).map Mark.literal).toList

/-- What lexemes say behind a run of text. -/
def marksFrom (run : Text) : List Lexeme → List Mark
  | [] => literalMarks run
  | .text content _ :: ls => marksFrom (run ++ content) ls
  | l :: ls => literalMarks run ++ l.marks ++ marksFrom [] ls

/-- What lexemes say. -/
def marks (ls : List Lexeme) : List Mark := marksFrom [] ls

theorem literalMarks_nil : literalMarks [] = [] := rfl

theorem Lexeme.text_or (l : Lexeme) :
    (∃ content span, l = .text content span) ∨ ∀ content span, l ≠ .text content span := by
  cases l with
  | text content span => exact .inl ⟨content, span, rfl⟩
  | _ => exact .inr nofun

theorem marksFrom_cons {l : Lexeme} (hl : ∀ content span, l ≠ .text content span) (run : Text)
    (ls : List Lexeme) :
    marksFrom run (l :: ls) = literalMarks run ++ l.marks ++ marksFrom [] ls := by
  cases l with
  | text content span => exact absurd rfl (hl content span)
  | _ => rfl

/-! ## Marks of trees -/

/-- The attributes of an element other than `style`. -/
def Attrs.marks (m : Attrs) : List AttrMark :=
  (m.entries.filter (·.1 != styleName)).map fun e => ⟨e.1, isExpression e.2, e.2⟩

namespace Node

mutual

/-- What a tree says if whatever looks like code is code. A wrapping root says what its children
say. -/
def marks : Node → List Mark
  | .text content => [if isExpression content then .code content else .literal content]
  | .element tag attributes _ children =>
    if tag = rootTag then marksAll children
    else .opened tag attributes.marks :: (marksAll children ++ [.closed])

/-- What trees say one after another. -/
def marksAll : List Node → List Mark
  | [] => []
  | n :: ns => marks n ++ marksAll ns

end

theorem marksAll_append (ns ms : List Node) : marksAll (ns ++ ms) = marksAll ns ++ marksAll ms := by
  induction ns with
  | nil => rfl
  | cons n ns ih => rw [List.cons_append, marksAll, marksAll, ih, List.append_assoc]

/-- A document says what its top-level nodes say. -/
theorem marks_ofTopLevel (ns : List Node) : (ofTopLevel ns).marks = marksAll ns := by
  rw [ofTopLevel.eq_def]
  split
  · rw [marksAll, marksAll, List.append_nil]
  · rw [root, marks, if_pos rfl]

end Node

/-! ## Attributes -/

/-- An attribute that gives its element a value. -/
theorem RawAttribute.mark_eq {a : RawAttribute} {value : Text}
    (h : AttrMeaning.of (Flavor.key .jsx a.name) a.value = .value value) :
    a.mark = ⟨Flavor.key .jsx a.name, a.isCode, value⟩ := by
  rw [mark, h]

/-- The value of an attribute looks like code exactly if it is code, if that is evident. -/
theorem RawAttribute.isExpression_eq {a : RawAttribute} {key value : Text}
    (h : AttrMeaning.of key a.value = .value value)
    (hevident : (a.isCode || !isExpression value) = true) : isExpression value = a.isCode := by
  cases hcode : a.isCode with
  | false => simpa [hcode] using hevident
  | true =>
    obtain ⟨raw, -, -, rfl⟩ := a.exists_of_isCode h hcode
    exact isExpression_braces _

/-- An attribute is ignored, or it is the first one of its name. -/
theorem TagContent.attributes_add (t : TagContent) (a : RawAttribute) :
    (TagContent.add .jsx t a).attributes = t.attributes ∧
        (Flavor.key .jsx a.name ≠ styleName → t.attributes.has (Flavor.key .jsx a.name) = true) ∨
      ∃ value, t.attributes.has (Flavor.key .jsx a.name) = false ∧
        AttrMeaning.of (Flavor.key .jsx a.name) a.value = .value value ∧
        (TagContent.add .jsx t a).attributes =
          t.attributes.insert (Flavor.key .jsx a.name) value := by
  simp only [TagContent.add]
  split
  next hold =>
    refine .inl ⟨rfl, fun hstyle => ?_⟩
    simpa [hstyle] using hold
  next hnew =>
    obtain ⟨hhas, -⟩ := Bool.or_eq_false_iff.1 (Bool.eq_false_iff.2 hnew)
    cases hmeaning : AttrMeaning.of (Flavor.key .jsx a.name) a.value with
    | value value => exact .inr ⟨value, hhas, rfl, rfl⟩
    | declarations =>
      exact .inl ⟨rfl, fun hstyle => absurd (AttrMeaning.eq_styleName hmeaning) hstyle⟩

theorem Attrs.entries_insert_of_has {m : Attrs} {name : Text} (h : m.has name = false)
    (value : Text) : (m.insert name value).entries = m.entries ++ [(name, value)] := by
  refine entries_insert_of_not_mem fun hmem => ?_
  obtain ⟨e, he, rfl⟩ := List.mem_map.1 hmem
  rw [has, find?_of_mem he] at h
  cases h

/-- **The attributes of a tag say what they say by themselves**, if that is evident. -/
theorem foldl_add_marks {as : List RawAttribute} {seen : List Text} {t : TagContent}
    (hstyle : styleName ∈ seen)
    (hseen : ∀ key, key ≠ styleName → (t.attributes.has key = true ↔ key ∈ seen))
    (hevident : ∀ a ∈ attrMarks seen as, (a.isCode || !isExpression a.value) = true) :
    (as.foldl (TagContent.add .jsx) t).attributes.marks =
      t.attributes.marks ++ attrMarks seen as := by
  induction as generalizing seen t with
  | nil => simp [attrMarks]
  | cons a as ih =>
    have hkey : a.mark.key = Flavor.key .jsx a.name := rfl
    rw [List.foldl_cons]
    obtain ⟨hsame, hold⟩ | ⟨value, hnew, hvalue, hinsert⟩ := t.attributes_add a
    · -- the attribute is ignored
      have hmem : Flavor.key .jsx a.name ∈ seen := by
        by_cases hs : Flavor.key .jsx a.name = styleName
        · rwa [hs]
        · exact (hseen _ hs).1 (hold hs)
      rw [attrMarks_cons_of_mem hmem] at hevident ⊢
      rw [ih hstyle (by rwa [hsame]) hevident, hsame]
    have hhas (key : Text) : (TagContent.add .jsx t a).attributes.has key = true ↔
        key = Flavor.key .jsx a.name ∨ t.attributes.has key = true := by
      rw [hinsert, Attrs.has, Attrs.find?_insert]
      split <;> simp_all [Attrs.has]
    have hmarks : (TagContent.add .jsx t a).attributes.marks = t.attributes.marks ++
        if Flavor.key .jsx a.name = styleName then []
        else [⟨Flavor.key .jsx a.name, isExpression value, value⟩] := by
      rw [hinsert, Attrs.marks, Attrs.entries_insert_of_has hnew, List.filter_append,
        List.map_append]
      by_cases hs : Flavor.key .jsx a.name = styleName <;> simp [Attrs.marks, hs]
    by_cases hs : Flavor.key .jsx a.name = styleName
    · -- a style that is no list of declarations
      rw [attrMarks_cons_of_mem (by rwa [hkey, hs])] at hevident ⊢
      rw [ih hstyle (fun key hk => by rw [hhas, hs]; simp [hk, hseen key hk]) hevident, hmarks,
        if_pos hs, List.append_nil]
    · have hnot : Flavor.key .jsx a.name ∉ seen := fun h => by
        rw [(hseen _ hs).2 h] at hnew
        cases hnew
      rw [attrMarks_cons_of_not_mem hnot] at hevident ⊢
      obtain ⟨hfirst, hrest⟩ := List.forall_mem_cons.1 hevident
      rw [a.mark_eq hvalue] at hfirst ⊢
      rw [ih (List.mem_cons_of_mem _ hstyle)
        (fun key hk => by rw [hhas, List.mem_cons, hseen key hk, hkey]) hrest, hmarks, if_neg hs,
        a.isExpression_eq hvalue hfirst, List.append_assoc]
      rfl

theorem OpenTag.marks_content {t : OpenTag}
    (hevident : ∀ a ∈ t.attrMarks, (a.isCode || !isExpression a.value) = true) :
    (t.content .jsx).attributes.marks = t.attrMarks := by
  refine (foldl_add_marks List.mem_cons_self (fun key hkey => ?_) hevident).trans
    (List.nil_append _)
  simp [Attrs.has, Attrs.find?, Attrs.empty, hkey]

/-- An element says what its tags and its children say. -/
theorem OpenTag.marks_element {t : OpenTag} (hname : IsTagName t.name)
    (hevident : ∀ a ∈ t.attrMarks, (a.isCode || !isExpression a.value) = true) (stop : Nat)
    (inner : Option Span) (children : List (Node × Place)) :
    (t.element .jsx stop inner children).1.marks =
      .opened t.name t.attrMarks :: (Node.marksAll (children.map Prod.fst) ++ [.closed]) := by
  rw [OpenTag.element, Node.marks, if_neg hname.ne_rootTag, marks_content hevident]

/-! ## The reader -/

namespace Reader

/-- What something that is open says. -/
def openedMarks : Opened → List Mark
  | .element t => [.opened t.name t.attrMarks]
  | .fragment _ => []

/-- What nodes say, the last one of which comes first. -/
def nodeMarks (nodes : List (Node × Place)) : List Mark :=
  Node.marksAll (nodes.reverse.map Prod.fst)

/-- What is open says, with the nodes in front of it. -/
def stackMarks : List (Opened × List (Node × Place)) → List Mark
  | [] => []
  | (opened, before) :: stack => stackMarks stack ++ (nodeMarks before ++ openedMarks opened)

/-- What a reader has read, up to the run of text. -/
def marks (r : Reader) : List Mark := stackMarks r.stack ++ nodeMarks r.nodes

/-- The open tags are tags, and what they say is evident. -/
def IsMarked (r : Reader) : Prop :=
  ∀ t before, (Opened.element t, before) ∈ r.stack → IsTagName t.name ∧
    ∀ a ∈ t.attrMarks, (a.isCode || !isExpression a.value) = true

theorem nodeMarks_cons (n : Node × Place) (nodes : List (Node × Place)) :
    nodeMarks (n :: nodes) = nodeMarks nodes ++ n.1.marks := by
  simp [nodeMarks, Node.marksAll_append, Node.marksAll]

theorem nodeMarks_append (nodes before : List (Node × Place)) :
    nodeMarks (nodes ++ before) = nodeMarks before ++ nodeMarks nodes := by
  simp [nodeMarks, Node.marksAll_append]

theorem marks_push (r : Reader) (n : Node × Place) : (r.push n).marks = r.marks ++ n.1.marks := by
  rw [marks, push, nodeMarks_cons, marks, List.append_assoc]

variable {r r' : Reader} {l : Lexeme}

/-- The end of a run of text. -/
theorem marks_flush (hevident : ∀ m ∈ literalMarks r.heard, m.isEvident = true) :
    (r.flush .jsx).marks = r.marks ++ literalMarks r.heard := by
  rw [flush]
  split
  next hrun => rw [heard, hrun, List.flatMap_nil, literalMarks_nil, List.append_nil]
  next =>
    rw [literalMarks] at hevident ⊢
    cases hflow : flowText? .jsx r.heard with
    | none =>
      have hnode : runNode? .jsx r.run = none := by rw [runNode?, ← heard, hflow]; rfl
      rw [hnode]
      exact (List.append_nil _).symm
    | some content =>
      have hnode : runNode? .jsx r.run = some (.text content, .text (runSpan r.run)) := by
        rw [runNode?, ← heard, hflow]
        rfl
      have hplain : isExpression content = false := by
        simpa [hflow, Mark.isEvident] using hevident
      rw [hnode]
      show stackMarks r.stack ++ nodeMarks (_ :: r.nodes) = _
      rw [nodeMarks_cons, Node.marks, if_neg (by simp [hplain]), ← List.append_assoc, ← marks]
      rfl

theorem run_of_stepTag (htext : ∀ content span, l ≠ .text content span)
    (hstep : r.stepTag .jsx l = .ok r') : r'.run = r.run := by
  revert hstep
  fun_cases stepTag .jsx r l with
  | case1 content span => exact absurd rfl (htext content span)
  | _ => rintro ⟨⟩; try rfl

/-- A lexeme that is no text, behind the end of a run. -/
theorem marks_stepTag (hl : l.IsJsx) (htext : ∀ content span, l ≠ .text content span)
    (hmarked : r.IsMarked) (hevident : ∀ m ∈ l.marks, m.isEvident = true)
    (hstep : r.stepTag .jsx l = .ok r') : r'.IsMarked ∧ r'.marks = r.marks ++ l.marks := by
  cases l with
  | text content span => exact absurd rfl (htext content span)
  | expression content span =>
    cases hstep
    have hcode : isExpression content = true := IsClosed.isExpression hl
    exact ⟨hmarked, by rw [marks_push, Node.marks, if_pos hcode]; rfl⟩
  | fragmentOpen span =>
    cases hstep
    refine ⟨fun t before hmem => ?_, ?_⟩
    · obtain ⟨⟨⟩⟩ | hmem := List.mem_cons.1 hmem
      exact hmarked t before hmem
    · simp [marks, stackMarks, openedMarks, nodeMarks, Node.marksAll, Lexeme.marks]
  | fragmentClose span =>
    rw [stepTag] at hstep
    split at hstep <;> cases hstep
    next span before stack hstack =>
    refine ⟨fun t before' hmem => hmarked t before' ?_, ?_⟩
    · rw [hstack]
      exact List.mem_cons_of_mem _ hmem
    · simp [marks, hstack, stackMarks, openedMarks, nodeMarks_append, Lexeme.marks]
  | openTag t =>
    obtain ⟨hname, hraw, -⟩ := hl
    have hattrs : ∀ a ∈ t.attrMarks, (a.isCode || !isExpression a.value) = true :=
      List.all_eq_true.1 (hevident (.opened t.name t.attrMarks) List.mem_cons_self)
    rw [stepTag] at hstep
    split at hstep <;> cases hstep
    next hclosed =>
      refine ⟨hmarked, ?_⟩
      rw [marks_push, OpenTag.marks_element hname hattrs, Lexeme.marks, if_pos hclosed]
      rfl
    next hopen =>
      have hchild : t.rawChild = [] := by rw [OpenTag.rawChild, hraw]
      refine ⟨fun u before hmem => ?_, ?_⟩
      · obtain ⟨⟨⟩⟩ | hmem := List.mem_cons.1 hmem
        · exact ⟨hname, hattrs⟩
        · exact hmarked u before hmem
      · simp [marks, stackMarks, openedMarks, hchild, nodeMarks, Node.marksAll, Lexeme.marks, hopen]
  | closeTag name span =>
    rw [stepTag] at hstep
    split at hstep
    next t before stack hstack =>
      split at hstep <;> cases hstep
      obtain ⟨hname, hattrs⟩ := hmarked t before (by rw [hstack]; exact List.mem_cons_self)
      refine ⟨fun u before' hmem => hmarked u before' ?_, ?_⟩
      · rw [hstack]
        exact List.mem_cons_of_mem _ hmem
      · simp only [marks, hstack, stackMarks, openedMarks, nodeMarks_cons,
          OpenTag.marks_element hname hattrs]
        simp [nodeMarks, Lexeme.marks]
    next => cases hstep

/-- **One lexeme** adds what it says to what a reader has read. -/
theorem exists_marks_step (hl : l.IsJsx) (hstep : r.step .jsx l = .ok r') :
    ∃ said, (∀ ls, marksFrom r.heard (l :: ls) = said ++ marksFrom r'.heard ls) ∧
      ((∀ content span, l ≠ .text content span) → r'.run = []) ∧
      (r.IsMarked → (∀ m ∈ said, m.isEvident = true) →
        r'.IsMarked ∧ r'.marks = r.marks ++ said) := by
  obtain ⟨content, span, rfl⟩ | htext := l.text_or
  · cases hstep
    refine ⟨[], fun ls => ?_, fun h => absurd rfl (h content span), fun hmarked _ => ⟨hmarked, ?_⟩⟩
    · simp [marksFrom, heard]
    · exact (List.append_nil _).symm
  · replace hstep : (r.flush .jsx).stepTag .jsx l = .ok r' := by
      cases l with
      | text content span => exact absurd rfl (htext content span)
      | _ => exact hstep
    have hrun : r'.run = [] := (run_of_stepTag htext hstep).trans (run_flush r)
    refine ⟨literalMarks r.heard ++ l.marks, fun ls => ?_, fun _ => hrun,
      fun hmarked hevident => ?_⟩
    · rw [marksFrom_cons htext, heard, heard, hrun]
      rfl
    · obtain ⟨hliteral, hmarks⟩ := List.forall_mem_append.1 hevident
      obtain ⟨hmarked', heq⟩ := marks_stepTag hl htext
        (fun t before h => hmarked t before (stack_flush r ▸ h)) hmarks hstep
      exact ⟨hmarked', by rw [heq, marks_flush hliteral, List.append_assoc]⟩

/-- What is read until nothing is open says what its lexemes say. -/
theorem exists_marks_untilClosed {ls : List Lexeme} (hls : ∀ l ∈ ls, l.IsJsx)
    (hopen : r.stack = [] → ∀ content span, ls.head? ≠ some (.text content span))
    {fault : Option ParseError} {nodes : List (Node × Place)} {last : Lexeme}
    (h : r.untilClosed .jsx fault ls = .ok (nodes, last)) :
    ∃ front rest, ls = front ++ last :: rest ∧ (r.IsMarked →
      (∀ m ∈ marksFrom r.heard (front ++ [last]), m.isEvident = true) →
        Node.marksAll (nodes.map Prod.fst) = r.marks ++ marksFrom r.heard (front ++ [last])) := by
  induction ls generalizing r with
  | nil => cases h
  | cons l ls ih =>
    obtain ⟨hl, hls⟩ := List.forall_mem_cons.1 hls
    rw [untilClosed] at h
    split at h
    · cases h
    next r₁ hstep =>
    obtain ⟨said, hsaid, hrun, hadds⟩ := exists_marks_step hl hstep
    split at h
    next hclosed =>
      cases h
      rw [List.isEmpty_iff] at hclosed
      have hrun₁ : r₁.run = [] := by
        refine hrun ?_
        rintro content span rfl
        cases hstep
        exact hopen hclosed content span rfl
      have hheard : marksFrom r₁.heard [] = [] := by rw [heard, hrun₁]; rfl
      refine ⟨[], ls, rfl, fun hmarked hevident => ?_⟩
      rw [List.nil_append, hsaid, hheard, List.append_nil] at hevident ⊢
      obtain ⟨-, hmarks⟩ := hadds hmarked hevident
      rw [← hmarks, marks, hclosed]
      rfl
    next hne =>
      have hne : r₁.stack ≠ [] := by simpa using hne
      obtain ⟨front, rest, rfl, hmarks⟩ := ih hls (fun h => absurd h hne) h
      refine ⟨l :: front, rest, rfl, fun hmarked hevident => ?_⟩
      rw [List.cons_append, hsaid] at hevident ⊢
      obtain ⟨hfirst, hrest⟩ := List.forall_mem_append.1 hevident
      obtain ⟨hmarked₁, hmarks₁⟩ := hadds hmarked hfirst
      rw [hmarks hmarked₁ hrest, hmarks₁, List.append_assoc]

end Reader

/-- **A document says what its lexemes say**, if nothing but code looks like code. -/
theorem Document.marks_root {n stop : Nat} {s : Text} {d : Document}
    (h : readRootAt .jsx n s = .ok (d, stop))
    (hevident : ∀ m ∈ marks ((scan .jsx n s).upTo stop), m.isEvident = true) :
    d.root.marks = marks ((scan .jsx n s).upTo stop) := by
  obtain ⟨l, ls, nodes, last, hls, hopens, hread, rfl, hroot⟩ := exists_of_readRootAt h
  obtain ⟨front, rest, heq, hmarks⟩ := Reader.exists_marks_untilClosed
    (fun _ => isJsx_of_mem_scan) (fun _ content span htext => by
      rw [hls] at htext
      cases htext
      exact hopens) hread
  rw [Scan.upTo_eq heq] at hevident ⊢
  rw [hroot, Node.marks_ofTopLevel]
  exact hmarks nofun hevident

/-! ## Code in marks -/

theorem closesCode_attrMarks {as : List RawAttribute} (has : ∀ a ∈ as, a.IsJsx) {seen : List Text}
    (hstyle : styleName ∈ seen) : ∀ m ∈ attrMarks seen as, m.isCode = true → IsClosed m.value := by
  induction as generalizing seen with
  | nil => exact nofun
  | cons a as ih =>
    obtain ⟨ha, has⟩ := List.forall_mem_cons.1 has
    by_cases hnew : a.mark.key ∈ seen
    · rw [attrMarks_cons_of_mem hnew]
      exact ih has hstyle
    · rw [attrMarks_cons_of_not_mem hnew]
      refine List.forall_mem_cons.2 ⟨fun hcode => ?_, ih has (List.mem_cons_of_mem _ hstyle)⟩
      cases hmeaning : AttrMeaning.of (Flavor.key .jsx a.name) a.value with
      | value value =>
        rw [a.mark_eq hmeaning] at hcode ⊢
        exact ha.isClosed hmeaning hcode
      | declarations =>
        have hkey : a.mark.key = styleName := AttrMeaning.eq_styleName hmeaning
        exact absurd (hkey ▸ hstyle) hnew

/-- The code of lexemes ends where it is closed. -/
theorem closesCode_marksFrom {ls : List Lexeme} (hls : ∀ l ∈ ls, l.IsJsx) (run : Text) :
    ∀ m ∈ marksFrom run ls, m.ClosesCode := by
  have hliteral (run : Text) : ∀ m ∈ literalMarks run, m.ClosesCode := by
    intro m hm
    obtain ⟨content, -, rfl⟩ := Option.map_eq_some_iff.1 (Option.mem_toList.1 hm)
    trivial
  have hlexeme {l : Lexeme} (hl : l.IsJsx) : ∀ m ∈ l.marks, m.ClosesCode := by
    cases l with
    | openTag t =>
      refine List.forall_mem_cons.2 ⟨closesCode_attrMarks hl.2.2 List.mem_cons_self, ?_⟩
      split
      · exact List.forall_mem_singleton.2 trivial
      · exact List.forall_mem_nil _
    | closeTag => exact List.forall_mem_singleton.2 trivial
    | expression => exact List.forall_mem_singleton.2 hl
    | fragmentOpen | fragmentClose | text => exact List.forall_mem_nil _
  induction ls generalizing run with
  | nil => exact hliteral run
  | cons l ls ih =>
    obtain ⟨hl, hls'⟩ := List.forall_mem_cons.1 hls
    obtain ⟨content, span, rfl⟩ | htext := l.text_or
    · exact ih hls' (run ++ content)
    · rw [marksFrom_cons htext]
      exact List.forall_mem_append.2
        ⟨List.forall_mem_append.2 ⟨hliteral run, hlexeme hl⟩, ih hls' []⟩

theorem Scan.closesCode_marks_upTo (n stop : Nat) (s : Text) :
    ∀ m ∈ marks ((scan .jsx n s).upTo stop), m.ClosesCode :=
  closesCode_marksFrom (fun _ hl => isJsx_of_mem_scan ((List.takeWhile_sublist _).subset hl)) []

/-! ## Letters -/

theorem letters_literalMarks (run : Text) : (literalMarks run).flatMap Mark.letters =
    (letters (decodeEntities run)).map fun c => .literal [c] := by
  rw [← letters_flowText?, literalMarks]
  cases flowText? .jsx run <;> simp [Mark.letters]

/-- A text in front of a run adds its letters, if references behind it are read by themselves. -/
theorem letters_marksFrom {x : Text} (hx : x.IsReadApart) (run : Text) (ls : List Lexeme) :
    (marksFrom (x ++ run) ls).flatMap Mark.letters =
      ((letters (decodeEntities x)).map fun c => .literal [c]) ++
        (marksFrom run ls).flatMap Mark.letters := by
  have hliteral (run : Text) : (literalMarks (x ++ run)).flatMap Mark.letters =
      ((letters (decodeEntities x)).map fun c => .literal [c]) ++
        (literalMarks run).flatMap Mark.letters := by
    rw [letters_literalMarks, letters_literalMarks, hx, letters_append, List.map_append]
  induction ls generalizing run with
  | nil => exact hliteral run
  | cons l ls ih =>
    obtain ⟨content, span, rfl⟩ | htext := l.text_or
    · have := ih (run ++ content)
      rwa [← List.append_assoc] at this
    · rw [marksFrom_cons htext, marksFrom_cons htext]
      simp only [List.flatMap_append, hliteral, List.append_assoc]

end MarkupSync
