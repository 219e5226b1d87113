import MarkupSync.Lexeme.Tag
import MarkupSync.Node

/-!
# Reading lexemes

* `contentHead`: what stands at the start of content, with the characters it takes
  (`eq_of_contentHead`);
* `textRun`: a run of text, in which single `<` and, where they open nothing, braces are text;
* `Scan`, `scan`: the lexemes of a text, up to the first fault.
-/

namespace MarkupSync

/-- The letters that start tag names. -/
def isNameStart (c : Char) : Bool := c.isAlpha

/-- The characters of tag names. -/
def isNameChar (c : Char) : Bool :=
  c.isAlphanum || c == ':' || c == '.' || c == '_' || c == '-'

/-- The blanks that may stand before the end of a close tag. -/
def isCloseBlank (c : Char) : Bool := c == ' ' || c == '\t' || c == '\r' || c == '\n'

/-- What stands at the start of content: its characters, and the rest of the text. -/
inductive ContentHead
  /-- A comment, a declaration or an instruction. -/
  | skipped (piece rest : Text)
  /-- The open angle and the name of a tag. -/
  | openTag (name piece rest : Text)
  | closeTag (name piece rest : Text)
  | fragmentOpen (piece rest : Text)
  | fragmentClose (piece rest : Text)
  | expression (piece rest : Text)
  /-- Characters that mean nothing but themselves. -/
  | plain (piece rest : Text)
  deriving Repr

namespace ContentHead

/-- The characters of a piece. -/
def piece : ContentHead → Text
  | skipped p _ | openTag _ p _ | closeTag _ p _ | fragmentOpen p _ | fragmentClose p _
  | expression p _ | plain p _ => p

/-- The text behind a piece. -/
def rest : ContentHead → Text
  | skipped _ r | openTag _ _ r | closeTag _ _ r | fragmentOpen _ r | fragmentClose _ r
  | expression _ r | plain _ r => r

end ContentHead

/-- Skip to the first occurrence of `stop`, behind the characters `start`. -/
def skipTo (stop : Text) (start s : Text) : Except Fault ContentHead :=
  match Text.cut? stop s with
  | some (p, rest) => .ok (.skipped (start ++ p ++ stop) rest)
  | none => .error .unexpectedInput

/-- Read a close tag behind `</`. -/
def closeHead (s : Text) : Except Fault ContentHead :=
  let name := s.takeWhile isNameChar
  let s := s.dropWhile isNameChar
  match s.dropWhile isCloseBlank with
  | '>' :: rest => .ok (.closeTag name (['<', '/'] ++ name ++ s.takeWhile isCloseBlank ++ ['>']) rest)
  | _ => .error .unexpectedInput

/-- What an open angle starts, read from behind it. -/
def angleHead : Text → Except Fault ContentHead
  | '!' :: '-' :: '-' :: s =>
    match Text.cut? ['-', '-', '>'] s with
    | some (p, rest) => .ok (.skipped (['<', '!', '-', '-'] ++ p ++ ['-', '-', '>']) rest)
    | none => .error .openComment
  | '!' :: c :: s =>
    if c.isAlpha || c == '[' then skipTo ['>'] ['<', '!', c] s else .ok (.plain ['<'] ('!' :: c :: s))
  | '?' :: s => skipTo ['>'] ['<', '?'] s
  | '/' :: '>' :: s => .ok (.fragmentClose ['<', '/', '>'] s)
  | '/' :: c :: s =>
    if isNameStart c then closeHead (c :: s) else .ok (.plain ['<'] ('/' :: c :: s))
  | '>' :: s => .ok (.fragmentOpen ['<', '>'] s)
  | c :: s =>
    if isNameStart c then
      .ok (.openTag (c :: s.takeWhile isNameChar) ('<' :: c :: s.takeWhile isNameChar)
        (s.dropWhile isNameChar))
    else .ok (.plain ['<'] (c :: s))
  | [] => .ok (.plain ['<'] [])

/-- The characters that open nothing. -/
def isPlain (c : Char) : Bool := c != '<' && c != '\x7b'

/-- What stands at the start of a text; none at its end. -/
def contentHead (flavor : Flavor) : Text → Except Fault (Option ContentHead)
  | [] => .ok none
  | '<' :: s => (angleHead s).map some
  | c :: s =>
    if c = '\x7b' then
      match flavor, closeBraces? s with
      | .jsx, some (p, rest) => .ok (some (.expression (c :: p) rest))
      | _, _ => .ok (some (.plain [c] s))
    else .ok (some (.plain (c :: s.takeWhile isPlain) (s.dropWhile isPlain)))

theorem eq_of_skipTo {stop start s : Text} {h : ContentHead} (hs : skipTo stop start s = .ok h)
    (hn : start ≠ []) : start ++ s = h.piece ++ h.rest ∧ h.piece ≠ [] := by
  simp only [skipTo] at hs
  split at hs
  next p r hc =>
    cases hs
    simp [ContentHead.piece, ContentHead.rest, Text.eq_of_cut?_eq_some hc, hn]
  next => cases hs

theorem eq_of_closeHead {s : Text} {h : ContentHead} (hs : closeHead s = .ok h) :
    '<' :: '/' :: s = h.piece ++ h.rest ∧ h.piece ≠ [] := by
  simp only [closeHead] at hs
  split at hs
  next r hr =>
    cases hs
    refine ⟨?_, by simp [ContentHead.piece]⟩
    have h1 := List.takeWhile_append_dropWhile (p := isNameChar) (l := s)
    have h2 := List.takeWhile_append_dropWhile (p := isCloseBlank) (l := s.dropWhile isNameChar)
    rw [hr] at h2
    simp only [ContentHead.piece, ContentHead.rest, List.append_assoc, List.cons_append,
      List.nil_append, h2, h1]
  next => cases hs

theorem eq_of_angleHead {s : Text} {h : ContentHead} (hs : angleHead s = .ok h) :
    '<' :: s = h.piece ++ h.rest ∧ h.piece ≠ [] := by
  revert hs
  fun_cases angleHead s
  all_goals intro hs
  case case1 s p r hc =>
    cases hs
    simp [ContentHead.piece, ContentHead.rest, Text.eq_of_cut?_eq_some hc]
  case case2 => cases hs
  case case3 c s _ => exact eq_of_skipTo hs (by simp)
  case case5 s => exact eq_of_skipTo hs (by simp)
  case case7 c s _ => exact eq_of_closeHead hs
  all_goals cases hs; simp [ContentHead.piece, ContentHead.rest]

/-- A piece of content is not empty, and it and the rest make up the text. -/
theorem eq_of_contentHead {flavor : Flavor} {s : Text} {h : ContentHead}
    (hs : contentHead flavor s = .ok (some h)) : s = h.piece ++ h.rest ∧ h.piece ≠ [] := by
  revert hs
  fun_cases contentHead flavor s
  all_goals intro hs
  case case1 => cases hs
  case case2 s =>
    cases ha : angleHead s with
    | error e => rw [ha] at hs; cases hs
    | ok k =>
      rw [ha] at hs
      cases hs
      exact eq_of_angleHead ha
  case case3 s p r hc _ =>
    cases hs
    simp [ContentHead.piece, ContentHead.rest, eq_of_closeBraces? hc]
  all_goals cases hs; simp [ContentHead.piece, ContentHead.rest]

theorem length_of_contentHead {flavor : Flavor} {s : Text} {h : ContentHead}
    (hs : contentHead flavor s = .ok (some h)) : h.rest.length < s.length := by
  obtain ⟨he, hn⟩ := eq_of_contentHead hs
  have := List.length_pos_iff.2 hn
  have := congrArg List.length he
  rw [List.length_append] at this
  omega

/-- The plain characters at the start of a text, and the rest. -/
def textRun (flavor : Flavor) (s : Text) : Text × Text :=
  match _hs : contentHead flavor s with
  | .ok (some (.plain piece rest)) => (piece ++ (textRun flavor rest).1, (textRun flavor rest).2)
  | _ => ([], s)
termination_by s.length
decreasing_by all_goals exact length_of_contentHead _hs

/-- What is read and what is left make up the text. -/
theorem textRun_append (flavor : Flavor) (s : Text) :
    (textRun flavor s).1 ++ (textRun flavor s).2 = s := by
  fun_induction textRun flavor s with
  | case1 s piece rest hs ih =>
    simp only [List.append_assoc, ih]
    exact (eq_of_contentHead hs).1.symm
  | case2 => rfl

/-! ## Scanning -/

/-- The lexemes of a text, up to its end or to the first fault. -/
structure Scan where
  lexemes : List Lexeme
  fault : Option ParseError
  deriving Repr, DecidableEq

namespace Scan

/-- A lexeme in front of a scan. -/
def cons (l : Lexeme) (r : Scan) : Scan := { r with lexemes := l :: r.lexemes }

/-- A scan that ends with a fault. -/
def failed (fault : Fault) (position : Nat) : Scan := ⟨[], some ⟨fault, position⟩⟩

/-- The tokens of a scan, with their bytes. -/
def tokens (r : Scan) : List (Token × Span) := r.lexemes.flatMap Lexeme.tokens

end Scan

/-- The fault of a tag. -/
def TagFault.fault (name : Text) : TagFault → Fault
  | malformed => .malformedTag name
  | unended => .openTag name

/-- Read an open tag behind its name, with content that is kept as written: the tag, where it
ends, and the rest. The name starts at byte `start` behind its open angle. -/
def openTag (flavor : Flavor) (start : Nat) (name s : Text) : Except Fault (OpenTag × Nat × Text) :=
  let nameSpan : Span := ⟨start, start + 1 + width name⟩
  match tagBody flavor nameSpan.stop .nothing s with
  | .error e => .error (e.fault name)
  | .ok t =>
    if !t.selfClosing && flavor == .html && isRaw name then
      match rawContent? name t.rest with
      | none => .error (.openElement name)
      | some (content, rest) =>
        let stop := t.closing.stop + width content
        let raw := if content = [] then none else some (content, ⟨t.closing.stop, stop⟩)
        .ok (⟨name, nameSpan, t.attributes, t.closing, false, raw⟩, stop, rest)
    else .ok (⟨name, nameSpan, t.attributes, t.closing, t.selfClosing, none⟩, t.closing.stop, t.rest)

theorem length_of_tagBody {flavor : Flavor} {start : Nat} {w : Waiting} {s : Text} {t : TagBody}
    (h : tagBody flavor start w s = .ok t) : t.rest.length < s.length := by
  have shorter {s : Text} {k : TagHead} (hk : tagHead? flavor s = some k) :
      k.rest.length < s.length := by
    obtain ⟨he, hn⟩ := eq_of_tagHead? hk
    have := List.length_pos_iff.2 hn
    have := congrArg List.length he
    rw [List.length_append] at this
    omega
  fun_induction tagBody flavor start w s generalizing t with
  | case1 | case6 | case7 => cases h
  | case2 start w s piece rest hs ih | case3 start w s piece rest hs ih
  | case5 start s piece rest hs name span ih =>
    exact Nat.lt_trans (ih h) (shorter hs)
  | case4 start w s selfClosing piece rest hs =>
    cases h
    exact shorter hs
  | case8 start w s quoting content piece rest hs done w' hw ih =>
    cases ht : tagBody flavor (start + width piece) w' rest with
    | error e => rw [ht] at h; cases h
    | ok u =>
      rw [ht] at h
      cases h
      have := ih ht
      exact Nat.lt_trans this (shorter hs)

theorem length_of_openTag {flavor : Flavor} {start stop : Nat} {name s rest : Text} {t : OpenTag}
    (h : openTag flavor start name s = .ok (t, stop, rest)) : rest.length < s.length := by
  simp only [openTag] at h
  split at h
  · cases h
  next b hb =>
    have := length_of_tagBody hb
    split at h
    · split at h
      · cases h
      next content r hr =>
        cases h
        have := congrArg List.length (eq_of_rawContent? hr)
        rw [List.length_append] at this
        omega
    · cases h
      exact this

/-- The lexemes of a text that starts at byte `start`. -/
def scan (flavor : Flavor) (start : Nat) (s : Text) : Scan :=
  match _hs : contentHead flavor s with
  | .error fault => .failed fault start
  | .ok none => ⟨[], none⟩
  | .ok (some (.skipped piece rest)) => scan flavor (start + width piece) rest
  | .ok (some (.openTag name _ rest)) =>
    match _ht : openTag flavor start name rest with
    | .error fault => .failed fault start
    | .ok (tag, stop, rest) => (scan flavor stop rest).cons (.openTag tag)
  | .ok (some (.closeTag name piece rest)) =>
    let stop := start + width piece
    (scan flavor stop rest).cons (.closeTag name ⟨start, stop⟩)
  | .ok (some (.fragmentOpen piece rest)) =>
    let stop := start + width piece
    (scan flavor stop rest).cons (.fragmentOpen ⟨start, stop⟩)
  | .ok (some (.fragmentClose piece rest)) =>
    let stop := start + width piece
    (scan flavor stop rest).cons (.fragmentClose ⟨start, stop⟩)
  | .ok (some (.expression piece rest)) =>
    let stop := start + width piece
    (scan flavor stop rest).cons (.expression piece ⟨start, stop⟩)
  | .ok (some (.plain piece rest)) =>
    let run := textRun flavor rest
    let content := piece ++ run.1
    let stop := start + width content
    (scan flavor stop run.2).cons (.text content ⟨start, stop⟩)
termination_by s.length
decreasing_by
  all_goals have := length_of_contentHead _hs
  all_goals simp only [ContentHead.rest] at this
  case _ => exact this
  case _ => exact Nat.lt_trans (length_of_openTag _ht) this
  case _ => exact this
  case _ => exact this
  case _ => exact this
  case _ => exact this
  case _ =>
    have := congrArg List.length (textRun_append flavor rest)
    rw [List.length_append] at this
    omega

/-- The lexemes of a whole text. -/
def scanAll (flavor : Flavor) (s : Text) : Scan := scan flavor 0 s

end MarkupSync
