import MarkupSync.Lexeme.Basic
import MarkupSync.Text.Basic
import MarkupSync.Text.Blank
import MarkupSync.Text.Search

/-!
# Open tags

Reading an open tag from behind its name to its end.

* `closeBraces?`: the text up to the brace that closes an open one, and the text behind it; braces
  inside quoted strings do not count;
* `tagHead?`: the next piece of a tag;
* `Waiting`, `tagBody`: the attributes of a tag, up to and with its end;
* `rawContent?`: the content of an element that is kept as written, up to its close tag.
-/

namespace MarkupSync

/-! ## Balanced braces -/

/-- The characters that quote strings in expressions. -/
def isStringQuote (c : Char) : Bool := c == '"' || c == '\'' || c == '\x60'

/-- Read up to the closing brace from inside `depth + 1` open braces and, if a quote is given,
from inside a string. -/
def closeFrom : Option Char → Nat → Text → Option (Text × Text)
  | _, _, [] => none
  | some _, _, ['\\'] => none
  | some q, depth, '\\' :: d :: s =>
    Text.extend ['\\', d] (closeFrom (some q) depth s)
  | some q, depth, c :: s =>
    Text.extend [c] (closeFrom (if c = q then none else some q) depth s)
  | none, depth, c :: s =>
    if c = '\x7b' then Text.extend [c] (closeFrom none (depth + 1) s)
    else if c = '\x7d' then
      match depth with
      | 0 => some ([c], s)
      | depth + 1 => Text.extend [c] (closeFrom none depth s)
    else if isStringQuote c then Text.extend [c] (closeFrom (some c) depth s)
    else Text.extend [c] (closeFrom none depth s)

/-- The text behind an open brace up to and with the brace that closes it, and the rest. -/
def closeBraces? (s : Text) : Option (Text × Text) := closeFrom none 0 s

theorem eq_of_closeFrom {q : Option Char} {depth : Nat} {s p r : Text}
    (h : closeFrom q depth s = some (p, r)) : s = p ++ r := by
  fun_induction closeFrom q depth s generalizing p with
  | case1 | case2 => cases h
  | case3 _ _ _ _ ih | case4 _ _ _ _ _ _ ih | case5 _ _ ih | case7 _ _ _ ih =>
    obtain ⟨p', h', rfl⟩ := Text.extend_eq_some.1 h
    simp [ih h']
  | case6 =>
    obtain ⟨rfl, rfl⟩ := Prod.mk.inj (Option.some.inj h)
    rfl
  | case8 _ _ _ _ _ _ ih | case9 _ _ _ _ _ _ ih =>
    obtain ⟨p', h', rfl⟩ := Text.extend_eq_some.1 h
    simp [ih h']

/-- What is read and what is left make up the text. -/
theorem eq_of_closeBraces? {s p r : Text} (h : closeBraces? s = some (p, r)) : s = p ++ r :=
  eq_of_closeFrom h

/-! ## Tags -/

/-- The characters of attribute names and unquoted values. -/
def isWordChar (c : Char) : Bool :=
  !(isBlank c || c == '"' || c == '\'' || c == '=' || c == '<' || c == '>' || c == '/' ||
    c == '\x7b' || c == '\x7d' || c == '\x60')

/-- The next piece of a tag: its characters, and the rest of the text. -/
inductive TagHead
  | blank (piece rest : Text)
  | close (selfClosing : Bool) (piece rest : Text)
  | equals (piece rest : Text)
  | slash (piece rest : Text)
  | value (quoting : Quoting) (content piece rest : Text)
  deriving Repr

namespace TagHead

/-- The characters of a piece. -/
def piece : TagHead → Text
  | blank p _ | close _ p _ | equals p _ | slash p _ | value _ _ p _ => p

/-- The text behind a piece. -/
def rest : TagHead → Text
  | blank _ r | close _ _ r | equals _ r | slash _ r | value _ _ _ r => r

end TagHead

/-- Read a value in quotes, behind its open quote `q`. -/
def quotedHead? (quoting : Quoting) (q : Char) (s : Text) : Option TagHead :=
  (Text.cut? [q] s).map fun (content, rest) =>
    .value quoting content (q :: content ++ [q]) rest

/-- Read the next piece of a tag; none if no piece starts here. -/
def tagHead? (flavor : Flavor) : Text → Option TagHead
  | [] => none
  | '>' :: s => some (.close false ['>'] s)
  | '/' :: '>' :: s => some (.close true ['/', '>'] s)
  | '/' :: s => some (.slash ['/'] s)
  | '=' :: s => some (.equals ['='] s)
  | '"' :: s => quotedHead? .double '"' s
  | '\'' :: s => quotedHead? .single '\'' s
  | c :: s =>
    if isBlank c then some (.blank [c] s)
    else if c = '\x7b' then
      match flavor with
      | .html => none
      | .jsx => (closeBraces? s).map fun (p, r) => .value .braces p.dropLast (c :: p) r
    else if isWordChar c then
      let word := c :: s.takeWhile isWordChar
      some (.value .bare word word (s.dropWhile isWordChar))
    else none

theorem eq_of_tagHead? {flavor : Flavor} {s : Text} {h : TagHead} (hs : tagHead? flavor s = some h) :
    s = h.piece ++ h.rest ∧ h.piece ≠ [] := by
  have quoted {quoting q s h} (hq : quotedHead? quoting q s = some h) :
      q :: s = h.piece ++ h.rest ∧ h.piece ≠ [] := by
    simp only [quotedHead?, Option.map_eq_some_iff] at hq
    obtain ⟨⟨p, r⟩, hc, rfl⟩ := hq
    simpa [TagHead.piece, TagHead.rest] using Text.eq_of_cut?_eq_some hc
  revert hs
  fun_cases tagHead? flavor s with
  | case1 | case9 | case12 => exact nofun
  | case2 | case3 | case4 | case5 | case8 =>
    intro hs
    cases hs
    simp [TagHead.piece, TagHead.rest]
  | case6 | case7 => exact quoted
  | case10 =>
    intro hs
    simp only [Option.map_eq_some_iff] at hs
    obtain ⟨⟨p, r⟩, hc, rfl⟩ := hs
    simpa [TagHead.piece, TagHead.rest] using eq_of_closeBraces? hc
  | case11 =>
    intro hs
    cases hs
    exact ⟨(congrArg (_ :: ·) List.takeWhile_append_dropWhile).symm, List.cons_ne_nil _ _⟩

/-- What the attributes read so far leave open. -/
inductive Waiting
  /-- Nothing. -/
  | nothing
  /-- A name that may get a value. -/
  | value (name : Text) (span : Span)
  /-- A name with an equals sign. -/
  | valueAfterEquals (name : Text) (span : Span)
  deriving Repr, DecidableEq

/-- The attribute that is complete once no value follows. -/
def Waiting.valueless : Waiting → List RawAttribute
  | nothing => []
  | value name span | valueAfterEquals name span => [⟨name, span, none⟩]

/-- A tag behind its name. -/
structure TagBody where
  attributes : List RawAttribute
  closing : Span
  selfClosing : Bool
  rest : Text
  deriving Repr

/-- Why a tag cannot be read. -/
inductive TagFault
  | malformed
  | unended
  deriving Repr, DecidableEq

/-- Put attributes in front of those of a tag. -/
def TagBody.withFirst (as : List RawAttribute) (t : TagBody) : TagBody :=
  { t with attributes := as ++ t.attributes }

/-- What a value that starts at byte `start` completes, and what is open behind it. -/
def Waiting.take (quoting : Quoting) (content piece : Text) (start : Nat) :
    Waiting → Except TagFault (List RawAttribute × Waiting)
  | valueAfterEquals name span =>
    .ok ([⟨name, span, some ⟨content, ⟨start, start + width piece⟩, quoting⟩⟩], nothing)
  | w =>
    match quoting with
    | .bare => .ok (w.valueless, value piece ⟨start, start + width piece⟩)
    | .braces => .ok (w.valueless ++ [⟨piece, ⟨start, start + width piece⟩, none⟩], nothing)
    | _ => .error .malformed

/-- Read the attributes of a tag up to its end, from byte `start`. -/
def tagBody (flavor : Flavor) (start : Nat) (w : Waiting) (s : Text) : Except TagFault TagBody :=
  match _hs : tagHead? flavor s with
  | none => .error (if s = [] then .unended else .malformed)
  | some (.blank piece rest) => tagBody flavor (start + width piece) w rest
  | some (.slash piece rest) => tagBody flavor (start + width piece) w rest
  | some (.close selfClosing piece rest) =>
    .ok ⟨w.valueless, ⟨start, start + width piece⟩, selfClosing, rest⟩
  | some (.equals piece rest) =>
    match w with
    | .value name span => tagBody flavor (start + width piece) (.valueAfterEquals name span) rest
    | _ => .error .malformed
  | some (.value quoting content piece rest) =>
    match w.take quoting content piece start with
    | .error e => .error e
    | .ok (done, w) => (tagBody flavor (start + width piece) w rest).map (·.withFirst done)
termination_by s.length
decreasing_by
  all_goals
    obtain ⟨he, hn⟩ := eq_of_tagHead? _hs
    have := List.length_pos_iff.2 hn
    simp only [TagHead.piece, TagHead.rest] at he this
    rw [he, List.length_append]
    omega

/-- Whether a close tag for `name` starts here: the name in any letter case, then a blank or the
end of the tag. -/
def startsClose (name s : Text) : Bool :=
  match Text.afterWord? ('<' :: '/' :: Text.lower name) (Text.lower s) with
  | some (c :: _) => c == '>' || isBlank c
  | _ => false

/-- The content of an element that is kept as written, up to its close tag, and the rest. -/
def rawContent? (name : Text) : Text → Option (Text × Text)
  | [] => none
  | c :: s =>
    if startsClose name (c :: s) then some ([], c :: s)
    else Text.extend [c] (rawContent? name s)

theorem eq_of_rawContent? {name s p r : Text} (h : rawContent? name s = some (p, r)) :
    s = p ++ r := by
  induction s generalizing p with
  | nil => simp [rawContent?] at h
  | cons c s ih =>
    simp only [rawContent?] at h
    split at h
    · simp_all
    · obtain ⟨p', h', rfl⟩ := Text.extend_eq_some.1 h
      simp [ih h']

end MarkupSync
