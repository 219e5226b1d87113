import Mathlib.Data.List.Chain
import Mathlib.Data.Nat.Digits.Defs
import MarkupSync.Json.Record
import MarkupSync.Proofs.Text.Words

/-!
# JSON is read back as it is written

* `Json.unquote?_quote`, `Json.quotedBody?_quote`: texts between quotes;
* `Json.natural?_digits`, `Json.takeNumber?_digits`: natural numbers;
* `Json.areRead_symbols`: the symbols of a value are read from its text;
* `Json.leads_symbols`: the value is read from its symbols;
* `Json.ofText?_render`: a value is read back from its text.
-/

namespace MarkupSync.Json

open Text

/-! ## Strings -/

theorem hexValue?_hexDigit : ∀ n < 16, hexValue? (hexDigit n) = some n := by decide

/-- The letters behind a backslash stand for their characters, and none of them is followed by a
number. -/
theorem escaped?_of_mem : ∀ e ∈ escapes, escaped? e.1 = some e.2 ∧ e.1 ≠ 'u' := by decide

theorem escaped?_of_escapeLetter? {c letter : Char} (h : escapeLetter? c = some letter) :
    escaped? letter = some c ∧ letter ≠ 'u' := by
  obtain ⟨front, back, hsplit, -⟩ := List.lookup_eq_some_iff.1 h
  have hmem : (c, letter) ∈ escapes.map Prod.swap := by simp [hsplit]
  obtain ⟨e, he, hswap⟩ := List.mem_map.1 hmem
  cases hswap
  exact escaped?_of_mem e he

/-- A character without a letter is neither a quote nor a backslash. -/
theorem ne_of_escapeLetter? {c : Char} (h : escapeLetter? c = none) : c ≠ '\\' ∧ c ≠ '"' := by
  constructor
  all_goals
    rintro rfl
    cases h

/-- The number that the last two digits make up. -/
theorem hexNumber?_of_lt {n : Nat} (h : n < 256) :
    hexNumber? '0' '0' (hexDigit (n / 16)) (hexDigit (n % 16)) = some n := by
  have hzero : hexValue? '0' = some 0 := by decide
  rw [hexNumber?, hzero, hexValue?_hexDigit _ (by omega), hexValue?_hexDigit _ (by omega)]
  simp only [Option.some.injEq]
  omega

/-- **A character between quotes stands for itself.** -/
theorem unquote?_quoteChar (c : Char) (s : Text) :
    unquote? (quoteChar c ++ s) = (unquote? s).map (c :: ·) := by
  rw [quoteChar]
  split
  next letter h =>
    obtain ⟨hletter, hu⟩ := escaped?_of_escapeLetter? h
    rw [List.cons_append, List.cons_append, List.nil_append, unquote?, hletter]
    exact fun _ _ _ _ _ h _ => hu h
  next h =>
    split_ifs with hc
    · have hlow : isLowSurrogate c.toNat = false := by simp [isLowSurrogate]; omega
      have hhigh : isHighSurrogate c.toNat = false := by simp [isHighSurrogate]; omega
      simp only [List.cons_append, List.nil_append]
      rw [unquote?, hexNumber?_of_lt (by omega)]
      simp only [hlow, hhigh, Bool.false_eq_true, if_false, Char.ofNat_toNat]
    · obtain ⟨hback, -⟩ := ne_of_escapeLetter? h
      rw [List.cons_append, List.nil_append, unquote?]
      · exact fun h _ => hback h
      · exact fun _ _ _ _ _ h _ => hback h
      · exact fun _ _ h _ => hback h

/-- **A text between quotes stands for itself.** -/
theorem unquote?_quote (s : Text) : unquote? (quote s) = some s := by
  induction s with
  | nil => rfl
  | cons c s ih =>
    rw [quote] at ih
    rw [quote, List.flatMap_cons, unquote?_quoteChar, ih]
    rfl

theorem quotedBody?_cons {c : Char} (hquote : c ≠ '"') (hback : c ≠ '\\') (hc : ¬ c.toNat < 32)
    (s : Text) : quotedBody? (c :: s) = extend [c] (quotedBody? s) := by
  rw [quotedBody?.eq_def]
  simp only [if_neg hquote, if_neg hback, if_neg hc]

theorem plain_hexDigit :
    ∀ n < 16, hexDigit n ≠ '"' ∧ hexDigit n ≠ '\\' ∧ ¬ (hexDigit n).toNat < 32 := by
  decide

theorem quotedBody?_hexDigit {n : Nat} (h : n < 16) (s : Text) :
    quotedBody? (hexDigit n :: s) = extend [hexDigit n] (quotedBody? s) :=
  quotedBody?_cons (plain_hexDigit n h).1 (plain_hexDigit n h).2.1 (plain_hexDigit n h).2.2 s

/-- **A character between quotes does not end the string.** -/
theorem quotedBody?_quoteChar (c : Char) (s : Text) :
    quotedBody? (quoteChar c ++ s) = extend (quoteChar c) (quotedBody? s) := by
  rw [quoteChar]
  split
  next letter h =>
    obtain ⟨hletter, -⟩ := escaped?_of_escapeLetter? h
    rw [List.cons_append, List.cons_append, List.nil_append, quotedBody?]
    simp [hletter]
  next h =>
    split_ifs with hc
    · have hzero (s : Text) : quotedBody? ('0' :: s) = extend ['0'] (quotedBody? s) :=
        quotedBody?_cons (by decide) (by decide) (by decide) s
      have hnumber : startsWithHexNumber
          ('0' :: '0' :: hexDigit (c.toNat / 16) :: hexDigit (c.toNat % 16) :: s) = true := by
        rw [startsWithHexNumber, hexNumber?_of_lt (by omega)]
        rfl
      simp only [List.cons_append, List.nil_append]
      rw [quotedBody?]
      simp only [hnumber, hzero, quotedBody?_hexDigit (show c.toNat / 16 < 16 by omega),
        quotedBody?_hexDigit (show c.toNat % 16 < 16 by omega)]
      simp [extend, Function.comp_def]
    · obtain ⟨hback, hquote⟩ := ne_of_escapeLetter? h
      exact quotedBody?_cons hquote hback hc s

/-- **A string ends at its quote.** -/
theorem quotedBody?_quote (s r : Text) : quotedBody? (quote s ++ '"' :: r) = some (quote s, r) := by
  induction s with
  | nil =>
    rw [quote, List.flatMap_nil, List.nil_append, quotedBody?.eq_def]
    rfl
  | cons c s ih =>
    have hquote : quote (c :: s) = quoteChar c ++ quote s := List.flatMap_cons
    rw [hquote, List.append_assoc, quotedBody?_quoteChar, ih]
    rfl

/-! ## Numbers -/

theorem digitsValue_digits (n : Nat) : digitsValue (digits n) = n :=
  Nat.ofDigitChars_toDigits (by decide) (by decide)

theorem all_isDigit_digits (n : Nat) : ∀ c ∈ digits n, c.isDigit = true := fun _ hc =>
  Nat.isDigit_of_mem_toDigits (by decide) (by decide) hc

theorem exists_digits (n : Nat) : ∃ c ds, digits n = c :: ds ∧ c.isDigit = true := by
  obtain ⟨c, ds, hds⟩ := List.exists_cons_of_ne_nil (Nat.toDigits_ne_nil (n := n) (b := 10))
  exact ⟨c, ds, hds, all_isDigit_digits n c (by rw [digits, hds]; exact List.mem_cons_self)⟩

/-- Only zero starts with a zero. -/
theorem head?_digits {n : Nat} (h : (digits n).head? = some '0') : n = 0 := by
  induction n using Nat.strong_induction_on with
  | _ n ih =>
    rw [digits, Nat.toDigits_eq_if (by decide)] at h
    split_ifs at h with hn
    · have hzero : ∀ m < 10, [Nat.digitChar m].head? = some '0' → m = 0 := by decide
      exact hzero n hn h
    · rw [List.head?_append_of_ne_nil _ Nat.toDigits_ne_nil] at h
      have := ih (n / 10) (by omega) h
      omega

/-- What follows does not go on with a number. -/
def EndsNumber (s : Text) : Prop := ∀ c ∈ s.head?, c.isDigit = false ∧ c ≠ '.' ∧ c ≠ 'e' ∧ c ≠ 'E'

theorem takeDigits_append_of_ends {s r : Text} (hs : ∀ c ∈ s, c.isDigit = true)
    (hr : ∀ c ∈ r.head?, c.isDigit = false) : takeDigits (s ++ r) = (s, r) := by
  rw [takeDigits, takeWhile_append_of_stop (List.all_eq_true.2 hs) hr,
    dropWhile_append_of_stop (List.all_eq_true.2 hs) hr]

theorem takeInteger?_digits (n : Nat) {r : Text} (hr : ∀ c ∈ r.head?, c.isDigit = false) :
    takeInteger? (digits n ++ r) = some (digits n, r) := by
  obtain ⟨c, ds, hds, -⟩ := exists_digits n
  by_cases hc : c = '0'
  · obtain rfl : n = 0 := head?_digits (by rw [hds, hc]; rfl)
    rfl
  · rw [hds, List.cons_append, takeInteger?, ← List.cons_append, ← hds,
      takeDigits_append_of_ends (all_isDigit_digits n) hr, hds]
    exact fun _ h => hc (List.cons.inj h).1

theorem takeMinus_digits (n : Nat) (r : Text) :
    takeMinus (digits n ++ r) = ([], digits n ++ r) := by
  obtain ⟨c, ds, hds, hc⟩ := exists_digits n
  rw [hds, List.cons_append, takeMinus]
  rintro s h
  obtain rfl := (List.cons.inj h).1
  cases hc

/-- **The digits of a number are read as a number.** -/
theorem takeNumber?_digits (n : Nat) {r : Text} (hr : EndsNumber r) :
    takeNumber? (digits n ++ r) = some (digits n, r) := by
  have hfraction : takeFraction r = ([], r) := by
    rw [takeFraction]
    rintro s rfl
    exact (hr '.' rfl).2.1 rfl
  have hexponent : takeExponent r = ([], r) := by
    cases r with
    | nil => rfl
    | cons c r =>
      obtain ⟨-, -, he, hE⟩ := hr c rfl
      rw [takeExponent, if_neg (by tauto)]
  simp only [takeNumber?, takeMinus_digits, takeInteger?_digits n fun c hc => (hr c hc).1,
    hfraction, hexponent, List.nil_append, List.append_nil]

/-- A number of 64 bits is finite in double precision. -/
theorem isReadable_digits {n : Nat} (h : n < naturalLimit) : isReadable (digits n) = true := by
  have hminus := takeMinus_digits n []
  have hwhole : takeDigits (digits n) = (digits n, []) := by
    have := takeDigits_append_of_ends (r := []) (all_isDigit_digits n) nofun
    rwa [List.append_nil] at this
  -- far fewer digits than numbers too large for double precision have
  have hlength : (digits n).length ≤ 20 := by
    rw [digits, Nat.length_toDigits_le_iff (by decide) (by decide)]
    exact Nat.lt_trans h (by decide)
  rw [List.append_nil] at hminus
  have hexceeds : exceedsDouble n 0 = false := by
    rw [exceedsDouble]
    exact if_pos (.inr (by omega))
  simp only [isReadable, hminus, hwhole]
  have hvalue : digitsValue (digits n ++ []) = n := by rw [List.append_nil, digitsValue_digits]
  exact congrArg (!·) ((congrArg (exceedsDouble · 0) hvalue).trans hexceeds)

/-! ## Symbols -/

/-- A scalar that is written: natural numbers of 64 bits have their digits, and texts are quoted. -/
def Symbol.IsWritten : Symbol → Prop
  | .scalar (.number literal) => ∃ n < naturalLimit, literal = digits n
  | .scalar (.string literal) => ∃ s, literal = quote s
  | .scalar (.array _) | .scalar (.object _) => False
  | _ => True

/-- A value all of whose scalars are written. -/
def IsWritten (j : Json) : Prop := ∀ x ∈ j.symbols, x.IsWritten

theorem mem_itemSymbols {x : Symbol} {js : List Json} (hx : x ∈ itemSymbols js) :
    x = .comma ∨ ∃ j ∈ js, x ∈ j.symbols := by
  induction js with
  | nil => cases hx
  | cons j js ih =>
    cases js with
    | nil => exact .inr ⟨j, .head _, hx⟩
    | cons k js =>
      rw [itemSymbols, List.mem_append, List.mem_cons] at hx
      rcases hx with hx | rfl | hx
      · exact .inr ⟨j, .head _, hx⟩
      · exact .inl rfl
      · exact (ih hx).imp_right fun ⟨l, hl, hx⟩ => ⟨l, .tail _ hl, hx⟩

theorem mem_entrySymbols {x : Symbol} {es : List (Text × Json)} (hx : x ∈ entrySymbols es) :
    x = .comma ∨ x = .colon ∨ ∃ e ∈ es, x = .scalar (.string e.1) ∨ x ∈ e.2.symbols := by
  induction es with
  | nil => cases hx
  | cons e es ih =>
    cases es with
    | nil =>
      rw [entrySymbols, List.mem_cons, List.mem_cons] at hx
      rcases hx with rfl | rfl | hx
      · exact .inr (.inr ⟨e, .head _, .inl rfl⟩)
      · exact .inr (.inl rfl)
      · exact .inr (.inr ⟨e, .head _, .inr hx⟩)
    | cons f es =>
      rw [entrySymbols, List.cons_append, List.cons_append, List.mem_cons, List.mem_cons,
        List.mem_append, List.mem_cons] at hx
      rcases hx with rfl | rfl | hx | rfl | hx
      · exact .inr (.inr ⟨e, .head _, .inl rfl⟩)
      · exact .inr (.inl rfl)
      · exact .inr (.inr ⟨e, .head _, .inr hx⟩)
      · exact .inl rfl
      · exact (ih hx).imp_right (.imp_right fun ⟨g, hg, hx⟩ => ⟨g, .tail _ hg, hx⟩)

theorem isWritten_array {js : List Json} (h : ∀ j ∈ js, j.IsWritten) : (array js).IsWritten := by
  intro x hx
  rw [symbols, List.cons_append, List.mem_cons, List.mem_append, List.mem_singleton] at hx
  rcases hx with rfl | hx | rfl
  · trivial
  · rcases mem_itemSymbols hx with rfl | ⟨j, hj, hx⟩
    · trivial
    · exact h j hj x hx
  · trivial

theorem isWritten_object {es : List (Text × Json)}
    (h : ∀ e ∈ es, (∃ s, e.1 = quote s) ∧ e.2.IsWritten) : (object es).IsWritten := by
  intro x hx
  rw [symbols, List.cons_append, List.mem_cons, List.mem_append, List.mem_singleton] at hx
  rcases hx with rfl | hx | rfl
  · trivial
  · rcases mem_entrySymbols hx with rfl | rfl | ⟨e, he, rfl | hx⟩
    · trivial
    · trivial
    · exact (h e he).1
    · exact (h e he).2 x hx
  · trivial

mutual

/-- **What is written can be read.** -/
theorem isProper_of_isWritten (j : Json) (h : ∀ x ∈ j.symbols, x.IsWritten) :
    j.isProper = true := by
  cases j with
  | null | bool => rfl
  | number literal =>
    rw [symbols] at h
    obtain ⟨n, hn, rfl⟩ := h _ List.mem_cons_self
    exact isReadable_digits hn
  | string literal =>
    rw [symbols] at h
    obtain ⟨s, rfl⟩ := h _ List.mem_cons_self
    rw [isProper, unquote?_quote]
    rfl
  | array items =>
    rw [symbols] at h
    exact allProper_of_isWritten items fun x hx => h x (by simp [hx])
  | object entries =>
    rw [symbols] at h
    exact properEntries_of_isWritten entries fun x hx => h x (by simp [hx])

theorem allProper_of_isWritten (js : List Json) (h : ∀ x ∈ itemSymbols js, x.IsWritten) :
    allProper js = true := by
  match js with
  | [] => rfl
  | [j] =>
    rw [allProper, isProper_of_isWritten j h]
    rfl
  | j :: k :: js =>
    rw [itemSymbols] at h
    rw [allProper, isProper_of_isWritten j fun x hx => h x (by simp [hx]),
      allProper_of_isWritten (k :: js) fun x hx => h x (by simp [hx])]
    rfl

theorem properEntries_of_isWritten (es : List (Text × Json))
    (h : ∀ x ∈ entrySymbols es, x.IsWritten) : properEntries es = true := by
  have hkey (s : Text) : (unquote? (quote s)).isSome = true := by
    rw [unquote?_quote]
    rfl
  match es with
  | [] => rfl
  | [(key, j)] =>
    rw [entrySymbols] at h
    obtain ⟨s, rfl⟩ := h _ List.mem_cons_self
    rw [properEntries, hkey, isProper_of_isWritten j fun x hx => h x (by simp [hx])]
    rfl
  | (key, j) :: e :: es =>
    rw [entrySymbols] at h
    obtain ⟨s, rfl⟩ := h _ List.mem_cons_self
    rw [properEntries, hkey, isProper_of_isWritten j fun x hx => h x (by simp [hx]),
      properEntries_of_isWritten (e :: es) fun x hx => h x (by simp [hx])]
    rfl

end

/-- What may stand behind a scalar. -/
def EndsScalar (s : Text) : Prop := ∀ c ∈ s.head?, (Symbol.ofChar? c).isSome = true

theorem EndsScalar.endsNumber {s : Text} (h : EndsScalar s) : EndsNumber s := by
  intro c hc
  have := h c hc
  refine ⟨?_, ?_, ?_, ?_⟩
  · revert this
    fun_cases Symbol.ofChar? c
    all_goals first | exact fun _ => rfl | rintro ⟨⟩
  all_goals
    rintro rfl
    cases this

theorem Symbol.readAll?_of_read? {s r : Text} {c : Char} {x : Symbol} (hs : s.head? = some c)
    (hc : Symbol.isBlank c = false) (h : read? s = some (x, r)) :
    readAll? s = (readAll? r).map (x :: ·) := by
  obtain ⟨u, rfl⟩ := List.head?_eq_some_iff.1 hs
  have hdrop : (c :: u).dropWhile isBlank = c :: u := List.dropWhile_cons_of_neg (by simp [hc])
  rw [readAll?]
  split
  next h' =>
    rw [hdrop] at h'
    cases h'
  next d w h' =>
    rw [hdrop] at h'
    cases h'
    split
    next h' =>
      rw [h] at h'
      cases h'
    next y t h' =>
      rw [h] at h'
      cases h'
      rfl

/-- The symbols are read from their text, in front of whatever may follow. A number goes on with the
digits behind it, so this has to be something that ends a scalar. -/
def Symbol.AreRead (xs : List Symbol) : Prop :=
  ∀ r, EndsScalar r → readAll? (xs.flatMap text ++ r) = (readAll? r).map (xs ++ ·)

/-- A blank is no sign and no digit. -/
theorem Symbol.ofChar?_of_isBlank {c : Char} (h : isBlank c = true) :
    ofChar? c = none ∧ c.isDigit = false := by
  simp only [isBlank, Bool.or_eq_true, beq_iff_eq] at h
  obtain ((rfl | rfl) | rfl) | rfl := h
  all_goals exact ⟨rfl, rfl⟩

/-- A digit is no sign, no quote and no blank. -/
theorem Symbol.ofChar?_of_isDigit {c : Char} (h : c.isDigit = true) :
    ofChar? c = none ∧ c ≠ '"' ∧ isBlank c = false := by
  refine ⟨?_, ?_, ?_⟩
  · fun_cases ofChar? c
    all_goals first | rfl | cases h
  · rintro rfl
    cases h
  · refine Bool.eq_false_iff.2 fun hblank => ?_
    rw [(ofChar?_of_isBlank hblank).2] at h
    cases h

/-- **A scalar is read as it is written.** -/
theorem Symbol.areRead_scalar {j : Json} (h : (Symbol.scalar j).IsWritten) :
    AreRead [.scalar j] := by
  intro r hr
  rw [List.flatMap_singleton]
  cases j with
  | null => exact readAll?_of_read? (c := 'n') rfl rfl rfl
  | bool b =>
    cases b with
    | true => exact readAll?_of_read? (c := 't') rfl rfl rfl
    | false => exact readAll?_of_read? (c := 'f') rfl rfl rfl
  | number literal =>
    obtain ⟨n, -, rfl⟩ := h
    obtain ⟨c, ds, hds, hc⟩ := exists_digits n
    -- neither a sign nor a quote, so it is read as a number
    obtain ⟨hsign, hquote, hblank⟩ := ofChar?_of_isDigit hc
    have hread : read? (digits n ++ r) = some (.scalar (.number (digits n)), r) := by
      have hnumber := takeNumber?_digits n hr.endsNumber
      rw [hds, List.cons_append] at hnumber ⊢
      rw [read?, hsign]
      simp only [if_neg hquote, hnumber]
    exact readAll?_of_read? (by rw [text, hds]; rfl) hblank hread
  | string literal =>
    obtain ⟨s, rfl⟩ := h
    have hread : read? ('"' :: (quote s ++ '"' :: r)) = some (.scalar (.string (quote s)), r) := by
      rw [read?, show ofChar? '"' = none from rfl]
      simp only [if_true, quotedBody?_quote, Option.map_some]
    rw [text, List.append_assoc]
    exact readAll?_of_read? rfl rfl hread
  | array | object => cases h

/-- A symbol that is a single character. -/
def Symbol.IsSign (x : Symbol) : Prop := ∃ c, x.text = [c] ∧ ofChar? c = some x

/-- **A sign is read as it is written.** -/
theorem Symbol.IsSign.readAll? {x : Symbol} (hx : x.IsSign) (r : Text) :
    Symbol.readAll? (x.text ++ r) = (Symbol.readAll? r).map (x :: ·) := by
  obtain ⟨c, hc, hof⟩ := hx
  have hblank : isBlank c = false := by
    refine Bool.eq_false_iff.2 fun hblank => ?_
    rw [(ofChar?_of_isBlank hblank).1] at hof
    cases hof
  refine readAll?_of_read? (by rw [hc]; rfl) hblank ?_
  rw [hc, List.cons_append, List.nil_append, read?, hof]

theorem Symbol.areRead_nil : AreRead [] := by
  intro r _
  rw [List.flatMap_nil, List.nil_append]
  exact Option.map_id'.symm

/-- A sign in front of symbols. -/
theorem Symbol.AreRead.cons {x : Symbol} {xs : List Symbol} (hxs : AreRead xs) (hx : x.IsSign) :
    AreRead (x :: xs) := by
  intro r hr
  rw [List.flatMap_cons, List.append_assoc, hx.readAll?, hxs r hr, Option.map_map]
  rfl

/-- A sign between symbols. -/
theorem Symbol.AreRead.append {x : Symbol} {xs ys : List Symbol} (hxs : AreRead xs)
    (hys : AreRead ys) (hx : x.IsSign) : AreRead (xs ++ x :: ys) := by
  intro r hr
  have hends : EndsScalar ((x :: ys).flatMap text ++ r) := by
    obtain ⟨c, hc, hof⟩ := hx
    rw [List.flatMap_cons, hc]
    rintro d ⟨⟩
    rw [hof]
    rfl
  rw [List.flatMap_append, List.append_assoc, hxs _ hends, hys.cons hx r hr, Option.map_map]
  simp only [Function.comp_def, List.append_assoc]

namespace Symbol

theorem isSign_arrayOpen : arrayOpen.IsSign := ⟨_, rfl, rfl⟩
theorem isSign_arrayClose : arrayClose.IsSign := ⟨_, rfl, rfl⟩
theorem isSign_objectOpen : objectOpen.IsSign := ⟨_, rfl, rfl⟩
theorem isSign_objectClose : objectClose.IsSign := ⟨_, rfl, rfl⟩
theorem isSign_comma : comma.IsSign := ⟨_, rfl, rfl⟩
theorem isSign_colon : colon.IsSign := ⟨_, rfl, rfl⟩

end Symbol

mutual

/-- **The symbols of a value are read from its text.** -/
theorem areRead_symbols (j : Json) (h : ∀ x ∈ j.symbols, x.IsWritten) :
    Symbol.AreRead j.symbols := by
  cases j with
  | null | bool | number | string =>
    rw [symbols] at h ⊢
    exact Symbol.areRead_scalar (h _ List.mem_cons_self)
  | array items =>
    rw [symbols] at h ⊢
    have hitems := areRead_itemSymbols items fun x hx => h x (by simp [hx])
    exact (hitems.append Symbol.areRead_nil Symbol.isSign_arrayClose).cons Symbol.isSign_arrayOpen
  | object entries =>
    rw [symbols] at h ⊢
    have hentries := areRead_entrySymbols entries fun x hx => h x (by simp [hx])
    exact (hentries.append Symbol.areRead_nil Symbol.isSign_objectClose).cons
      Symbol.isSign_objectOpen

theorem areRead_itemSymbols (js : List Json) (h : ∀ x ∈ itemSymbols js, x.IsWritten) :
    Symbol.AreRead (itemSymbols js) := by
  match js with
  | [] => exact Symbol.areRead_nil
  | [j] => exact areRead_symbols j h
  | j :: k :: js =>
    rw [itemSymbols] at h ⊢
    have hj := areRead_symbols j fun x hx => h x (by simp [hx])
    have hjs := areRead_itemSymbols (k :: js) fun x hx => h x (by simp [hx])
    exact hj.append hjs Symbol.isSign_comma

theorem areRead_entrySymbols (es : List (Text × Json))
    (h : ∀ x ∈ entrySymbols es, x.IsWritten) : Symbol.AreRead (entrySymbols es) := by
  match es with
  | [] => exact Symbol.areRead_nil
  | [(key, j)] =>
    rw [entrySymbols] at h ⊢
    have hkey := Symbol.areRead_scalar (h _ List.mem_cons_self)
    have hj := areRead_symbols j fun x hx => h x (by simp [hx])
    exact hkey.append hj Symbol.isSign_colon
  | (key, j) :: e :: es =>
    rw [entrySymbols] at h ⊢
    have hkey := Symbol.areRead_scalar (h _ List.mem_cons_self)
    have hj := areRead_symbols j fun x hx => h x (by simp [hx])
    have hes := areRead_entrySymbols (e :: es) fun x hx => h x (by simp [hx])
    exact hkey.append (hj.append hes Symbol.isSign_comma) Symbol.isSign_colon

end

/-! ## Values -/

namespace Reader

/-- A reader that takes the start of a value. -/
def TakesValue (frames : List Frame) (r : Reader) : Prop :=
  ∀ x s, begin? frames x = some s → r.step x = some s

theorem takesValue_value (frames : List Frame) : TakesValue frames (within frames .value) :=
  fun _ _ h => h

theorem takesValue_itemOrClose (frames : List Frame) :
    TakesValue frames (within frames .itemOrClose) := by
  intro x s h
  rw [step, h]
  rfl

/-- A reader that takes a key of an object. -/
def TakesKey (entries : List (Text × Json)) (frames : List Frame) (r : Reader) : Prop :=
  ∀ key, r.step (.scalar (.string key)) = some (within (.object entries key :: frames) .colon)

theorem takesKey_keyOrClose (frames : List Frame) :
    TakesKey [] frames (within (.object [] [] :: frames) .keyOrClose) := fun _ => rfl

theorem takesKey_key (entries : List (Text × Json)) (key : Text) (frames : List Frame) :
    TakesKey entries frames (within (.object entries key :: frames) .key) := fun _ => rfl

/-- The symbols lead from one reader to another. -/
def Leads (r : Reader) (xs : List Symbol) (r' : Reader) : Prop := xs.foldlM step r = some r'

theorem Leads.nil (r : Reader) : r.Leads [] r := rfl

theorem Leads.cons {r s t : Reader} {x : Symbol} {xs : List Symbol} (hx : r.step x = some s)
    (h : s.Leads xs t) : r.Leads (x :: xs) t := by
  rw [Leads, List.foldlM_cons, hx]
  exact h

theorem Leads.append {r s t : Reader} {xs ys : List Symbol} (h : r.Leads xs s)
    (h' : s.Leads ys t) : r.Leads (xs ++ ys) t := by
  rw [Leads, List.foldlM_append, show xs.foldlM step r = some s from h]
  exact h'

end Reader

open Reader

mutual

/-- **The symbols of a value are read as the value.** -/
theorem leads_symbols (j : Json) {frames : List Frame} {r : Reader} (hr : TakesValue frames r) :
    r.Leads j.symbols (complete j frames) := by
  cases j with
  | null | bool | number | string => exact .cons (hr _ _ rfl) (.nil _)
  | array items =>
    refine .cons (hr _ _ rfl) ?_
    by_cases hne : items = []
    · subst hne
      exact .cons rfl (.nil _)
    · have hitems := leads_itemSymbols items hne (takesValue_itemOrClose (.array [] :: frames))
      rw [List.append_nil] at hitems
      have hclose := congrArg (fun js => some (complete (.array js) frames)) items.reverse_reverse
      exact hitems.append (.cons hclose (.nil _))
  | object entries =>
    refine .cons (hr _ _ rfl) ?_
    by_cases hne : entries = []
    · subst hne
      exact .cons rfl (.nil _)
    · obtain ⟨key, hentries⟩ := leads_entrySymbols entries hne (takesKey_keyOrClose frames)
      rw [List.append_nil] at hentries
      have hclose := congrArg (fun es => some (complete (.object es) frames))
        entries.reverse_reverse
      exact hentries.append (.cons hclose (.nil _))

theorem leads_itemSymbols (js : List Json) (hne : js ≠ []) {done : List Json}
    {frames : List Frame} {r : Reader} (hr : TakesValue (.array done :: frames) r) :
    r.Leads (itemSymbols js) (within (.array (js.reverse ++ done) :: frames) .commaOrClose) := by
  match js with
  | [] => exact absurd rfl hne
  | [j] => exact leads_symbols j hr
  | j :: k :: js =>
    have hjs := leads_itemSymbols (k :: js) (List.cons_ne_nil _ _)
      (takesValue_value (.array (j :: done) :: frames))
    rw [List.reverse_cons, List.append_assoc]
    exact (leads_symbols j hr).append (.cons rfl hjs)

theorem leads_entrySymbols (es : List (Text × Json)) (hne : es ≠ []) {done : List (Text × Json)}
    {frames : List Frame} {r : Reader} (hr : TakesKey done frames r) :
    ∃ key, r.Leads (entrySymbols es)
      (within (.object (es.reverse ++ done) key :: frames) .commaOrClose) := by
  match es with
  | [] => exact absurd rfl hne
  | [(key, j)] =>
    have hj := leads_symbols j (takesValue_value (.object done key :: frames))
    exact ⟨key, .cons (hr key) (.cons rfl hj)⟩
  | (key, j) :: e :: es =>
    have hj := leads_symbols j (takesValue_value (.object done key :: frames))
    obtain ⟨last, hes⟩ := leads_entrySymbols (e :: es) (List.cons_ne_nil _ _)
      (takesKey_key ((key, j) :: done) key frames)
    refine ⟨last, ?_⟩
    rw [List.reverse_cons, List.append_assoc]
    exact .cons (hr key) (.cons rfl (hj.append (.cons rfl hes)))

end

end MarkupSync.Json
