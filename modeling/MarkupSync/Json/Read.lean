import MarkupSync.Json.Scalar

/-!
# JSON values and their texts

A value is written as a sequence of symbols, and read from one.

* `Json`: a value as it is written: strings and numbers keep their spelling, objects the order of
  their entries;
* `Json.depth`: how deep arrays and objects are nested;
* `Symbol`, `Symbol.text`: brackets, signs and scalars, and how they are written;
* `Json.symbols`, `Json.render`: the symbols of a value, and a value as a text without white space;
* `Symbol.readAll?`: the symbols of a text;
* `Reader`: what was read so far: the open arrays and objects, and what may come next;
* `Json.ofSymbols?`, `Json.ofText?`: the value of a sequence of symbols and of a text.
-/

namespace MarkupSync

/-! ## Values -/

/-- A value as it is written. A string is what stands between its quotes. -/
inductive Json
  | null
  | bool (value : Bool)
  | number (literal : Text)
  | string (literal : Text)
  | array (items : List Json)
  | object (entries : List (Text × Json))
  deriving Repr, Inhabited

namespace Json

mutual

/-- How deep arrays and objects are nested in a value. -/
def depth : Json → Nat
  | null | bool _ | number _ | string _ => 0
  | array items => depthAll items + 1
  | object entries => depthEntries entries + 1

/-- How deep arrays and objects are nested in values. -/
def depthAll : List Json → Nat
  | [] => 0
  | j :: js => max j.depth (depthAll js)

/-- How deep arrays and objects are nested in the values of entries. -/
def depthEntries : List (Text × Json) → Nat
  | [] => 0
  | (_, j) :: es => max j.depth (depthEntries es)

end

end Json

end MarkupSync

namespace MarkupSync.Json

/-! ## Symbols -/

/-- A part of a written value; a scalar is a value without parts. -/
inductive Symbol
  | arrayOpen
  | arrayClose
  | objectOpen
  | objectClose
  | comma
  | colon
  | scalar (value : Json)
  deriving Repr, Inhabited

mutual

/-- The symbols of a value. -/
def symbols : Json → List Symbol
  | array items => .arrayOpen :: itemSymbols items ++ [.arrayClose]
  | object entries => .objectOpen :: entrySymbols entries ++ [.objectClose]
  | null => [.scalar null]
  | bool b => [.scalar (bool b)]
  | number literal => [.scalar (number literal)]
  | string literal => [.scalar (string literal)]

/-- The symbols of the items of an array. -/
def itemSymbols : List Json → List Symbol
  | [] => []
  | [j] => symbols j
  | j :: k :: js => symbols j ++ .comma :: itemSymbols (k :: js)

/-- The symbols of the entries of an object. -/
def entrySymbols : List (Text × Json) → List Symbol
  | [] => []
  | [(key, j)] => .scalar (string key) :: .colon :: symbols j
  | (key, j) :: e :: es =>
    .scalar (string key) :: .colon :: symbols j ++ .comma :: entrySymbols (e :: es)

end

/-- The words that stand for values. -/
def words : List (Text × Json) :=
  [("null".toList, null), ("true".toList, bool true), ("false".toList, bool false)]

namespace Symbol

/-- How a symbol is written. -/
def text : Symbol → Text
  | arrayOpen => ['[']
  | arrayClose => [']']
  | objectOpen => ['\x7b']
  | objectClose => ['\x7d']
  | comma => [',']
  | colon => [':']
  | scalar null => "null".toList
  | scalar (bool true) => "true".toList
  | scalar (bool false) => "false".toList
  | scalar (number literal) => literal
  | scalar (string literal) => '"' :: literal ++ ['"']
  | scalar (array _) => []
  | scalar (object _) => []

/-- The symbols that are a single character. -/
def ofChar? : Char → Option Symbol
  | '[' => some arrayOpen
  | ']' => some arrayClose
  | '\x7b' => some objectOpen
  | '\x7d' => some objectClose
  | ',' => some comma
  | ':' => some colon
  | _ => none

/-- The first of some words that stands at the start of a text, and what follows. -/
def readWord? (words : List (Text × Json)) (s : Text) : Option (Symbol × Text) :=
  match words with
  | [] => none
  | (word, j) :: rest =>
    match Text.afterWord? word s with
    | some r => some (scalar j, r)
    | none => readWord? rest s

/-- The symbol at the start of a text, and what follows. -/
def read? : Text → Option (Symbol × Text)
  | [] => none
  | c :: s =>
    match ofChar? c with
    | some symbol => some (symbol, s)
    | none =>
      if c = '"' then (quotedBody? s).map fun (literal, r) => (scalar (string literal), r)
      else
        match takeNumber? (c :: s) with
        | some (literal, r) => some (scalar (number literal), r)
        | none => readWord? words (c :: s)

theorem length_of_readWord? {ws : List (Text × Json)} {s r : Text} {x : Symbol}
    (hw : ∀ w ∈ ws, w.1 ≠ []) (h : readWord? ws s = some (x, r)) : r.length < s.length := by
  induction ws with
  | nil => cases h
  | cons w ws ih =>
    simp only [readWord?] at h
    split at h
    next t ht =>
      cases h
      have := congrArg List.length (Text.eq_of_afterWord? ht)
      have := List.length_pos_iff.2 (hw w (by simp))
      simp only [List.length_append] at *
      omega
    next => exact ih (fun w h => hw w (by simp [h])) h

/-- A symbol takes at least one character. -/
theorem length_of_read? {s r : Text} {x : Symbol} (h : read? s = some (x, r)) :
    r.length < s.length := by
  cases s with
  | nil => cases h
  | cons c s =>
    simp only [read?] at h
    split at h
    · cases h; simp
    · split at h
      · simp only [Option.map_eq_some_iff, Prod.mk.injEq] at h
        obtain ⟨⟨p, t⟩, hp, rfl, rfl⟩ := h
        have := congrArg List.length (eq_of_quotedBody? hp)
        simp only [List.length_append, List.length_cons] at *
        omega
      · split at h
        next p t hp =>
          cases h
          obtain ⟨he, hn⟩ := eq_of_takeNumber? hp
          have := congrArg List.length he
          have := List.length_pos_iff.2 hn
          simp only [List.length_append] at *
          omega
        next => exact length_of_readWord? (by simp [words]) h

/-- White space between symbols. -/
def isBlank (c : Char) : Bool := c == ' ' || c == '\t' || c == '\n' || c == '\r'

/-- The symbols of a text. -/
def readAll? (s : Text) : Option (List Symbol) :=
  match _hs : s.dropWhile isBlank with
  | [] => some []
  | c :: r =>
    match _h : read? (c :: r) with
    | none => none
    | some (symbol, rest) => (readAll? rest).map (symbol :: ·)
termination_by s.length
decreasing_by
  have h1 := length_of_read? _h
  have h2 := (List.dropWhile_suffix isBlank (l := s)).length_le
  rw [_hs] at h2
  omega

end Symbol

/-! ## Reading -/

/-- A value as a text. -/
def render (j : Json) : Text := j.symbols.flatMap Symbol.text

/-- An array or an object that is not closed yet, with what it has so far, last one first. -/
inductive Frame
  | array (items : List Json)
  /-- An object and its last key. -/
  | object (entries : List (Text × Json)) (key : Text)
  deriving Repr

/-- What may come next. -/
inductive Awaited
  | value
  | itemOrClose
  | keyOrClose
  | key
  | colon
  | commaOrClose
  deriving Repr, DecidableEq

/-- What was read so far. -/
inductive Reader
  | within (frames : List Frame) (awaited : Awaited)
  | finished (value : Json)
  deriving Repr

namespace Reader

/-- Nothing was read. -/
def start : Reader := within [] .value

/-- A value is complete: it goes into the innermost array or object. -/
def complete (j : Json) : List Frame → Reader
  | [] => finished j
  | .array items :: frames => within (.array (j :: items) :: frames) .commaOrClose
  | .object entries key :: frames => within (.object ((key, j) :: entries) key :: frames) .commaOrClose

/-- A value begins. -/
def begin? (frames : List Frame) : Symbol → Option Reader
  | .scalar j => some (complete j frames)
  | .arrayOpen => some (within (.array [] :: frames) .itemOrClose)
  | .objectOpen => some (within (.object [] [] :: frames) .keyOrClose)
  | _ => none

/-- The innermost array or object ends. -/
def close? : List Frame → Symbol → Option Reader
  | .array items :: frames, .arrayClose => some (complete (.array items.reverse) frames)
  | .object entries _ :: frames, .objectClose => some (complete (.object entries.reverse) frames)
  | _, _ => none

/-- The key of an entry. -/
def readKey? : List Frame → Symbol → Option Reader
  | .object entries _ :: frames, .scalar (.string key) =>
    some (within (.object entries key :: frames) .colon)
  | _, _ => none

/-- A comma, or the innermost array or object ends. -/
def separate? : List Frame → Symbol → Option Reader
  | .array items :: frames, .comma => some (within (.array items :: frames) .value)
  | .object entries key :: frames, .comma => some (within (.object entries key :: frames) .key)
  | frames, symbol => close? frames symbol

/-- The next symbol. -/
def step : Reader → Symbol → Option Reader
  | finished _, _ => none
  | within frames .value, symbol => begin? frames symbol
  | within frames .itemOrClose, symbol => (begin? frames symbol).or (close? frames symbol)
  | within frames .keyOrClose, symbol => (readKey? frames symbol).or (close? frames symbol)
  | within frames .key, symbol => readKey? frames symbol
  | within frames .colon, .colon => some (within frames .value)
  | within _ .colon, _ => none
  | within frames .commaOrClose, symbol => separate? frames symbol

/-- The value that was read. -/
def result? : Reader → Option Json
  | finished j => some j
  | within .. => none

end Reader

/-- The value of a sequence of symbols. -/
def ofSymbols? (symbols : List Symbol) : Option Json :=
  (symbols.foldlM Reader.step .start).bind Reader.result?

/-- The value of a text. -/
def ofText? (s : Text) : Option Json := (Symbol.readAll? s).bind ofSymbols?

end MarkupSync.Json
