import MarkupSync.Text.Search

/-!
# JSON strings and numbers

* `quote`: a text as it stands between quotes;
* `unquote?`: the text that stands between quotes. An escape that is half a surrogate pair stands
  for no character;
* `quotedBody?`: the characters up to the closing quote;
* `takeNumber?`: a number literal at the start of a text;
* `natural?`: the value of the literals that fields take, natural numbers of 64 bits;
* `isReadable`: whether a number has a finite value in double precision.
-/

namespace MarkupSync.Json

/-! ## Strings -/

/-- The letters that stand for characters behind a backslash, each with its character. -/
def escapes : List (Char × Char) :=
  [('"', '"'), ('\\', '\\'), ('b', '\x08'), ('f', '\x0c'), ('n', '\n'), ('r', '\r'), ('t', '\t')]

/-- The character that a letter stands for behind a backslash. -/
def escaped? (letter : Char) : Option Char :=
  if letter = '/' then some '/' else escapes.lookup letter

/-- The letter of a character that is written with a backslash. -/
def escapeLetter? (c : Char) : Option Char := (escapes.map Prod.swap).lookup c

/-- A digit of the base sixteen. -/
def hexDigit (n : Nat) : Char := if n < 10 then Char.ofNat (48 + n) else Char.ofNat (87 + n)

/-- The value of a digit of the base sixteen. -/
def hexValue? (c : Char) : Option Nat :=
  if '0' ≤ c ∧ c ≤ '9' then some (c.toNat - 48)
  else if 'a' ≤ c ∧ c ≤ 'f' then some (c.toNat - 87)
  else if 'A' ≤ c ∧ c ≤ 'F' then some (c.toNat - 55)
  else none

/-- The number that four digits of the base sixteen make up. -/
def hexNumber? (a b c d : Char) : Option Nat :=
  match hexValue? a, hexValue? b, hexValue? c, hexValue? d with
  | some a, some b, some c, some d => some (((a * 16 + b) * 16 + c) * 16 + d)
  | _, _, _, _ => none

/-- A character as it stands between quotes. -/
def quoteChar (c : Char) : Text :=
  match escapeLetter? c with
  | some letter => ['\\', letter]
  | none =>
    if c.toNat < 32 then ['\\', 'u', '0', '0', hexDigit (c.toNat / 16), hexDigit (c.toNat % 16)]
    else [c]

/-- A text as it stands between quotes. -/
def quote (s : Text) : Text := s.flatMap quoteChar

/-- Whether a number is the first half of a surrogate pair. -/
def isHighSurrogate (n : Nat) : Bool := 0xD800 ≤ n && n ≤ 0xDBFF

/-- Whether a number is the second half of a surrogate pair. -/
def isLowSurrogate (n : Nat) : Bool := 0xDC00 ≤ n && n ≤ 0xDFFF

/-- The character of a surrogate pair. -/
def pairedChar (high low : Nat) : Char :=
  Char.ofNat (0x10000 + (high - 0xD800) * 0x400 + (low - 0xDC00))

/-- The text that stands between quotes. -/
def unquote? : Text → Option Text
  | [] => some []
  | ['\\'] => none
  | '\\' :: 'u' :: a :: b :: c :: d :: s =>
    match hexNumber? a b c d with
    | none => none
    | some n =>
      if isLowSurrogate n then none
      else if isHighSurrogate n then
        match s with
        | '\\' :: 'u' :: a :: b :: c :: d :: s =>
          match hexNumber? a b c d with
          | none => none
          | some m => if isLowSurrogate m then (unquote? s).map (pairedChar n m :: ·) else none
        | _ => none
      else (unquote? s).map (Char.ofNat n :: ·)
  | '\\' :: letter :: s =>
    match escaped? letter with
    | none => none
    | some c => (unquote? s).map (c :: ·)
  | c :: s => (unquote? s).map (c :: ·)

/-- Whether four digits of the base sixteen stand here. -/
def startsWithHexNumber : Text → Bool
  | a :: b :: c :: d :: _ => (hexNumber? a b c d).isSome
  | _ => false

/-- The characters of a string up to its closing quote as they are written, and what follows. -/
def quotedBody? : Text → Option (Text × Text)
  | [] => none
  | c :: s =>
    if c = '"' then some ([], s)
    else if c = '\\' then
      match s with
      | [] => none
      | letter :: s =>
        if letter = 'u' ∧ startsWithHexNumber s ∨ (escaped? letter).isSome then
          Text.extend ['\\', letter] (quotedBody? s)
        else none
    else if c.toNat < 32 then none
    else Text.extend [c] (quotedBody? s)

/-- What was read of a string is what stood there. -/
theorem eq_of_quotedBody? {s p r : Text} (h : quotedBody? s = some (p, r)) : s = p ++ '"' :: r := by
  fun_induction quotedBody? s generalizing p with
  | case1 | case3 | case5 | case6 => cases h
  | case2 => cases h; simp_all
  | case4 letter s _ _ ih =>
    obtain ⟨p', h', rfl⟩ := Text.extend_eq_some.1 h
    simp [ih h']
  | case7 c s _ _ _ ih =>
    obtain ⟨p', h', rfl⟩ := Text.extend_eq_some.1 h
    simp [ih h']

/-! ## Numbers -/

/-- The digits at the start of a text, and what follows. -/
def takeDigits (s : Text) : Text × Text := (s.takeWhile Char.isDigit, s.dropWhile Char.isDigit)

/-- A minus sign at the start of a text, and what follows. -/
def takeMinus : Text → Text × Text
  | '-' :: s => (['-'], s)
  | s => ([], s)

/-- A sign at the start of a text, and what follows. -/
def takeSign : Text → Text × Text
  | '+' :: s => (['+'], s)
  | s => takeMinus s

/-- The digits of an integer at the start of a text; only zero itself starts with zero. -/
def takeInteger? : Text → Option (Text × Text)
  | '0' :: s => some (['0'], s)
  | s =>
    match takeDigits s with
    | ([], _) => none
    | found => some found

/-- The fraction of a number: a point and digits. -/
def takeFraction : Text → Text × Text
  | '.' :: s =>
    match takeDigits s with
    | ([], _) => ([], '.' :: s)
    | (ds, r) => ('.' :: ds, r)
  | s => ([], s)

/-- The exponent of a number: a letter, a sign and digits. -/
def takeExponent : Text → Text × Text
  | [] => ([], [])
  | c :: s =>
    if c = 'e' ∨ c = 'E' then
      let (sign, r) := takeSign s
      match takeDigits r with
      | ([], _) => ([], c :: s)
      | (ds, r) => (c :: sign ++ ds, r)
    else ([], c :: s)

/-- A number at the start of a text, and what follows. -/
def takeNumber? (s : Text) : Option (Text × Text) :=
  let (sign, s) := takeMinus s
  match takeInteger? s with
  | none => none
  | some (whole, s) =>
    let (fraction, s) := takeFraction s
    let (exponent, s) := takeExponent s
    some (sign ++ whole ++ fraction ++ exponent, s)

/-- The value of a list of digits. -/
def digitsValue (ds : Text) : Nat := ds.foldl (fun n c => 10 * n + (c.toNat - 48)) 0

/-- The digits of a natural number. -/
def digits (n : Nat) : Text := Nat.toDigits 10 n

/-- The natural numbers that fields take end here. -/
def naturalLimit : Nat := 1 <<< 64

/-- The value of a number without sign, fraction and exponent, if it has 64 bits. -/
def natural? (literal : Text) : Option Nat :=
  if literal ≠ [] ∧ literal.all Char.isDigit ∧ digitsValue literal < naturalLimit then
    some (digitsValue literal)
  else none

/-- The smallest number that double precision rounds to infinity. -/
def doubleLimit : Nat := 1 <<< 1024 - 1 <<< 970

/-- Whether `n` times ten to a power is too large for double precision. -/
def exceedsDouble (n : Nat) (exponent : Int) : Bool :=
  let size := (digits n).length + exponent
  if n = 0 ∨ size < 309 then false
  else if 309 < size then true
  else doubleLimit * Nat.pow 10 (-exponent).toNat ≤ n * Nat.pow 10 exponent.toNat

/-- The value of an exponent without its letter. -/
def exponentValue (s : Text) : Int :=
  let (sign, ds) := takeSign s
  if sign = ['-'] then -(digitsValue ds : Int) else digitsValue ds

/-- Whether a number has a finite value in double precision. -/
def isReadable (literal : Text) : Bool :=
  let (whole, s) := takeDigits (takeMinus literal).2
  let (fraction, s) := takeFraction s
  !exceedsDouble (digitsValue (whole ++ fraction.drop 1))
    (exponentValue (s.drop 1) - (fraction.length - 1 : Nat))

/-! ### Nothing is lost -/

theorem takeDigits_append (s : Text) : (takeDigits s).1 ++ (takeDigits s).2 = s :=
  List.takeWhile_append_dropWhile

theorem takeMinus_append (s : Text) : (takeMinus s).1 ++ (takeMinus s).2 = s := by
  unfold takeMinus; split <;> rfl

theorem takeSign_append (s : Text) : (takeSign s).1 ++ (takeSign s).2 = s := by
  unfold takeSign; split
  · rfl
  · exact takeMinus_append _

theorem eq_of_takeInteger? {s p r : Text} (h : takeInteger? s = some (p, r)) :
    s = p ++ r ∧ p ≠ [] := by
  unfold takeInteger? at h
  split at h
  · cases h; simp
  · split at h
    · cases h
    next found hn =>
      rw [Option.some.injEq] at h
      have hs := takeDigits_append s
      rw [h] at hs hn
      exact ⟨hs.symm, fun he => hn r (by rw [he])⟩

theorem takeFraction_append (s : Text) : (takeFraction s).1 ++ (takeFraction s).2 = s := by
  unfold takeFraction; split
  next s =>
    have hs := takeDigits_append s
    split
    · rfl
    next ds r _ hd => rw [hd] at hs; simp [← hs]
  · rfl

theorem takeExponent_append (s : Text) : (takeExponent s).1 ++ (takeExponent s).2 = s := by
  unfold takeExponent; split
  · rfl
  next c s =>
    split
    · have h1 := takeSign_append s
      have h2 := takeDigits_append (takeSign s).2
      dsimp only
      split
      · rfl
      next ds r _ hd =>
        rw [hd] at h2
        simp only [List.cons_append, List.append_assoc, List.cons.injEq, true_and]
        rw [h2, h1]
    · rfl

theorem eq_of_takeNumber? {s p r : Text} (h : takeNumber? s = some (p, r)) :
    s = p ++ r ∧ p ≠ [] := by
  simp only [takeNumber?] at h
  split at h
  · cases h
  next whole t ht =>
    obtain ⟨he, hn⟩ := eq_of_takeInteger? ht
    cases h
    have h1 := takeMinus_append s
    have h2 := takeFraction_append t
    have h3 := takeExponent_append (takeFraction t).2
    refine ⟨?_, by simp [hn]⟩
    rw [List.append_assoc, List.append_assoc, List.append_assoc, h3, h2, ← he, h1]

end MarkupSync.Json
