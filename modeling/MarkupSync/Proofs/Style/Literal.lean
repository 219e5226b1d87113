import MarkupSync.Proofs.Script.Word
import MarkupSync.Proofs.Style.Member

/-!
# Values of style objects

Values count as strings and numbers by what they look like: a text with the same quote at both ends,
a decimal number, a name of a number. Most of these are literals of scripts.

* `ObjectSource`: an object as text, a list of members between braces;
* `IsLiteral`, `IsMisread`: values that are literals, and values that are taken for one;
* `read_of_isDecimal`: decimal numbers are literals;
* `isString_of_plain`: so are texts in quotes without escapes, line ends and expressions;
* `readValue?_isSome_iff`: a value is understood exactly if it is a literal or taken for one;
* **`readObject?_isSome_iff`**: an object is understood exactly if every value is a literal or taken
  for one;
* `not_readObject?_eq_none`: two strings with a sum between them are taken for one string.
-/

namespace MarkupSync.Style

open Text Script

/-! ## Decimal numbers -/

theorem digitValue_of_isDigit {c : Char} (h : c.isDigit = true) :
    (digitValue 10 c).isSome = true := by
  have hkey : isKeyChar c = true := by simp [isKeyChar, Char.isAlphanum, h]
  have := of_isKeyChar (P := fun c => !c.isDigit || (digitValue 10 c).isSome) (by decide) hkey
  simpa [h] using this

/-- Whether a character ends a run of digits. -/
def endsDigits (c : Char) : Bool := c != '_' && (digitValue 10 c).isNone

theorem dropDigits_append {ds t : Text} (hds : ds.all Char.isDigit = true)
    (ht : ∀ c ∈ t.head?, endsDigits c = true) : dropDigits 10 (ds ++ t) = t := by
  induction ds with
  | nil =>
    cases t with
    | nil => rfl
    | cons c t =>
      have hc := ht c rfl
      simp only [endsDigits, Bool.and_eq_true, bne_iff_ne, Option.isNone_iff_eq_none] at hc
      rw [List.nil_append, dropDigits]
      · simp [hc.2]
      · rintro _ _ rfl
        exact absurd rfl hc.1
  | cons d ds ih =>
    rw [List.all_cons, Bool.and_eq_true] at hds
    rw [List.cons_append, dropDigits, if_pos (digitValue_of_isDigit hds.1)]
    · exact ih hds.2
    · rintro _ _ rfl
      exact absurd hds.1 (by decide)

theorem dropExponent?_cons (c : Char) (s : Text) :
    dropExponent? (c :: s) = if c = 'e' ∨ c = 'E' then
      match unsigned s with
      | d :: _ => if d.isDigit then some (dropDigits 10 (unsigned s)) else none
      | [] => none
    else some (c :: s) := rfl

/-- An exponent is dropped as a whole. -/
theorem dropExponent?_of_isExponent {t : Text} (h : isExponent t = true) :
    dropExponent? t = some [] := by
  cases t with
  | nil => rfl
  | cons c s =>
    simp only [isExponent, isDigits, Bool.and_eq_true, Bool.or_eq_true, beq_iff_eq,
      Bool.not_eq_true', List.isEmpty_eq_false_iff] at h
    obtain ⟨hc, hne, hall⟩ := h
    obtain ⟨d, ds, hds⟩ := List.exists_cons_of_ne_nil hne
    have hends : ∀ c ∈ ([] : Text).head?, endsDigits c = true := by rintro _ ⟨⟩
    have hdrop := dropDigits_append hall hends
    rw [List.append_nil, hds] at hdrop
    rw [hds, List.all_cons, Bool.and_eq_true] at hall
    rw [dropExponent?_cons, if_pos hc, hds]
    simp [hall.1, hdrop]

/-- No digit follows in front of an exponent. -/
theorem head?_of_isExponent {t : Text} (h : isExponent t = true) :
    ∀ c ∈ t.head?, c = 'e' ∨ c = 'E' := by
  cases t with
  | nil => nofun
  | cons c s =>
    simp only [isExponent, Bool.and_eq_true, Bool.or_eq_true, beq_iff_eq] at h
    simpa using h.1

/-- A decimal number is digits with a point before, among or behind them, if at all, and an
exponent. -/
theorem exists_of_isDecimal {s : Text} (h : isDecimal s = true) :
    ∃ ds t, isExponent t = true ∧ ds.all Char.isDigit = true ∧
      ((ds ≠ [] ∧ s = ds ++ t) ∨ ∃ fs, fs.all Char.isDigit = true ∧ ¬ (ds = [] ∧ fs = []) ∧
        s = ds ++ '.' :: (fs ++ t)) := by
  have hs : s.takeWhile Char.isDigit ++ s.dropWhile Char.isDigit = s :=
    List.takeWhile_append_dropWhile
  rw [isDecimal] at h
  split at h
  next rest hrest =>
    simp only [Bool.and_eq_true, Bool.not_eq_true', Bool.and_eq_false_iff,
      List.isEmpty_eq_false_iff] at h
    refine ⟨s.takeWhile Char.isDigit, _, h.2, List.all_takeWhile,
      .inr ⟨rest.takeWhile Char.isDigit, List.all_takeWhile, ?_, ?_⟩⟩
    · rintro ⟨h1, h2⟩
      exact h.1.elim (· h1) (· h2)
    · rw [List.takeWhile_append_dropWhile, ← hrest, hs]
  next =>
    simp only [Bool.and_eq_true, Bool.not_eq_true', List.isEmpty_eq_false_iff] at h
    exact ⟨_, _, h.2, List.all_takeWhile, .inl ⟨h.1, hs.symm⟩⟩

/-- Digits end in front of an exponent. -/
theorem endsDigits_of_isExponent {t : Text} (h : isExponent t = true) :
    ∀ c ∈ t.head?, endsDigits c = true := fun c hc => by
  rcases head?_of_isExponent h c hc with rfl | rfl <;> decide

/-- What follows the first digits of a number, a fraction and an exponent, is dropped. -/
theorem dropFraction {t fs s : Text} (ht : isExponent t = true) (hfs : fs.all Char.isDigit = true)
    (hs : s = t ∨ s = '.' :: (fs ++ t)) :
    (match s with
      | 'n' :: r => some r
      | '.' :: r =>
        match r with
        | d :: _ => dropExponent? (if d.isDigit then dropDigits 10 r else r)
        | [] => some []
      | r => dropExponent? r) = some [] := by
  have hexponent := dropExponent?_of_isExponent ht
  have hhead := head?_of_isExponent ht
  obtain rfl | rfl := hs
  · cases s with
    | nil => rfl
    | cons c t => rcases hhead c rfl with rfl | rfl <;> exact hexponent
  · cases fs with
    | cons d fs =>
      have hdrop := dropDigits_append hfs (endsDigits_of_isExponent ht)
      rw [List.all_cons, Bool.and_eq_true] at hfs
      rw [List.cons_append] at hdrop
      simp [hfs.1, hdrop, hexponent]
    | nil =>
      cases t with
      | nil => rfl
      | cons c t => rcases hhead c rfl with rfl | rfl <;> exact hexponent

/-- Nothing is left behind a number that starts with a digit and is no number of another base, if
only a fraction and an exponent follow the digits. -/
theorem afterNumber?_cons {d : Char} (hd : d.isDigit = true) {s t fs : Text}
    (hs : ∀ c ∈ s.head?, c.isDigit = true ∨ c = '.' ∨ c = 'e' ∨ c = 'E')
    (ht : isExponent t = true) (hfs : fs.all Char.isDigit = true)
    (hdrop : dropDigits 10 (d :: s) = t ∨ dropDigits 10 (d :: s) = '.' :: (fs ++ t)) :
    afterNumber? (d :: s) = some [] := by
  -- no letter of another base follows
  have hbase {c : Char} {r : Text} (h : s = c :: r)
      (hc : c.isDigit = false ∧ c ≠ '.' ∧ c ≠ 'e' ∧ c ≠ 'E') : False := by
    obtain ⟨h1, h2, h3, h4⟩ := hc
    obtain h | h | h | h := hs c (by rw [h]; rfl)
    · rw [h1] at h
      cases h
    · exact h2 h
    · exact h3 h
    · exact h4 h
  unfold afterNumber?
  split
  next heq => exact (hbase (List.cons.inj heq).2 (by decide)).elim
  next heq => exact (hbase (List.cons.inj heq).2 (by decide)).elim
  next heq => exact (hbase (List.cons.inj heq).2 (by decide)).elim
  next heq => exact (hbase (List.cons.inj heq).2 (by decide)).elim
  next heq => exact (hbase (List.cons.inj heq).2 (by decide)).elim
  next heq => exact (hbase (List.cons.inj heq).2 (by decide)).elim
  next heq =>
    rw [(List.cons.inj heq).1] at hd
    cases hd
  next => exact congrArg (Option.filter _) (dropFraction ht hfs hdrop)

/-- The text behind a number is the text behind its word. -/
theorem read_of_afterNumber? {c : Char} {s : Text}
    (hc : c.isDigit = true ∨ c = '.' ∧ (s.head?.map Char.isDigit).getD false = true)
    (h : afterNumber? (c :: s) = some []) : Word.read (c :: s) = (.number, []) := by
  have hquote : ¬ (c = '"' ∨ c = '\'') ∧ c ≠ '\x60' := by
    obtain hc | ⟨rfl, -⟩ := hc
    · refine ⟨?_, ?_⟩
      · rintro (rfl | rfl) <;> exact absurd hc (by decide)
      · rintro rfl
        exact absurd hc (by decide)
    · decide
  have hnumber : (c.isDigit || (c == '.' && (s.head?.map Char.isDigit).getD false)) = true := by
    obtain hc | ⟨rfl, hs⟩ := hc
    · simp [hc]
    · simp [hs]
  rw [Word.read, if_neg hquote.1, if_neg hquote.2, if_pos hnumber, h]

/-- **A decimal number is a number of scripts.** -/
theorem read_of_isDecimal {s : Text} (h : isDecimal s = true) : Word.read s = (.number, []) := by
  obtain ⟨ds, t, ht, hds, hs⟩ := exists_of_isDecimal h
  have hends := endsDigits_of_isExponent ht
  have hdot : ∀ u : Text, ∀ c ∈ ('.' :: u).head?, endsDigits c = true := by
    rintro u _ ⟨⟩
    decide
  cases ds with
  | nil =>
    obtain ⟨hne, -⟩ | ⟨fs, hfs, hne, rfl⟩ := hs
    · exact absurd rfl hne
    obtain ⟨f, fs, rfl⟩ := List.exists_cons_of_ne_nil fun h => hne ⟨rfl, h⟩
    refine read_of_afterNumber? (.inr ⟨rfl, ?_⟩) ?_
    · rw [List.all_cons, Bool.and_eq_true] at hfs
      simp [hfs.1]
    · have hdrop : dropExponent? (dropDigits 10 (f :: fs ++ t)) = some [] := by
        rw [dropDigits_append hfs hends, dropExponent?_of_isExponent ht]
      exact congrArg (Option.filter _) hdrop
  | cons d ds =>
    have hdigits := hds
    rw [List.all_cons, Bool.and_eq_true] at hdigits
    have hhead {u : Text} (hu : ∀ c ∈ u.head?, c = '.' ∨ c = 'e' ∨ c = 'E') :
        ∀ c ∈ (ds ++ u).head?, c.isDigit = true ∨ c = '.' ∨ c = 'e' ∨ c = 'E' := by
      cases ds with
      | nil => exact fun c hc => .inr (hu c hc)
      | cons d' ds =>
        rintro _ ⟨⟩
        have := hdigits.2
        rw [List.all_cons, Bool.and_eq_true] at this
        exact .inl this.1
    obtain ⟨-, rfl⟩ | ⟨fs, hfs, -, rfl⟩ := hs
    · have hnil : ([] : Text).all Char.isDigit = true := rfl
      refine read_of_afterNumber? (.inl hdigits.1) (afterNumber?_cons hdigits.1
        (hhead fun c hc => .inr (head?_of_isExponent ht c hc)) ht hnil (.inl ?_))
      exact dropDigits_append hds hends
    · refine read_of_afterNumber? (.inl hdigits.1) (afterNumber?_cons hdigits.1
        (hhead fun c hc => .inl (by simpa using hc.symm)) ht hfs (.inr ?_))
      exact dropDigits_append hds (hdot _)

/-! ## Strings -/

/-- Whether scripts read a text as one string, or as one template without expressions. -/
def isString (v : Text) : Bool :=
  match Word.read v with
  | (.string _, []) => true
  | (.template true _, []) => true
  | _ => false

theorem eq_of_stringEnd? {quote : Char} {n : Nat} {s p r : Text}
    (h : stringEnd? quote n s = some (p, r)) : s = p ++ quote :: r := by
  fun_induction stringEnd? quote n s generalizing p with
  | case1 | case2 | case4 | case6 => cases h
  | case3 =>
    cases h
    rfl
  | case5 n s t hescape _ ih =>
    obtain ⟨p', hp, rfl⟩ := extend_eq_some.1 h
    obtain ⟨x, hx⟩ := isSuffix_afterEscape? hescape
    have htake : s.take (s.length - t.length) = x := by simp [← hx]
    rw [htake, List.cons_append, List.cons_append, List.append_assoc, ← ih hp, hx]
  | case7 n c s _ _ _ ih =>
    obtain ⟨p', hp, rfl⟩ := extend_eq_some.1 h
    rw [ih hp]
    rfl

theorem eq_of_templateEnd? {s p r : Text} (h : templateEnd? s = some (true, p, r)) :
    s = p ++ '\x60' :: r := by
  fun_induction templateEnd? s generalizing p with
  | case1 | case3 => cases h
  | case2 =>
    cases h
    rfl
  | case4 c s ih | case5 c s _ _ _ ih =>
    obtain ⟨⟨b, p', r'⟩, hp, heq⟩ := Option.map_eq_some_iff.1 h
    cases heq
    rw [ih hp]
    rfl

/-- Only a quote starts a string or a template. -/
theorem isString_cons {c : Char} (hc : isQuote c = false) (s : Text) :
    isString (c :: s) = false := by
  simp only [isQuote, Bool.or_eq_false_iff, beq_eq_false_iff_ne] at hc
  obtain ⟨⟨hdouble, hsingle⟩, htemplate⟩ := hc
  rw [isString, Word.read, if_neg (not_or.2 ⟨hdouble, hsingle⟩), if_neg htemplate]
  split_ifs
  · cases afterNumber? (c :: s) <;> rfl
  · cases name? s <;> rfl
  · cases name? (c :: s) with
    | some found => rfl
    | none => cases sign? (c :: s) <;> rfl

/-- A string has its quote at both ends. -/
theorem exists_of_isString {v : Text} (h : isString v = true) :
    ∃ q s, isQuote q = true ∧ v = q :: (s ++ [q]) := by
  cases v with
  | nil => cases h
  | cons q s =>
    cases hq : isQuote q with
    | false =>
      rw [isString_cons hq] at h
      cases h
    | true =>
      suffices hs : ∃ t, s = t ++ [q] from hs.elim fun t ht => ⟨q, t, hq, by rw [ht]⟩
      simp only [isQuote, Bool.or_eq_true, beq_iff_eq] at hq
      by_cases hstring : q = '"' ∨ q = '\''
      · rw [isString, Word.read, if_pos hstring] at h
        cases hend : stringEnd? q (q :: s).length s with
        | none => rw [hend] at h; cases h
        | some found =>
          obtain ⟨t, _ | ⟨c, r⟩⟩ := found
          · exact ⟨t, eq_of_stringEnd? hend⟩
          · rw [hend] at h; cases h
      · obtain rfl := hq.resolve_left hstring
        rw [isString, Word.read, if_neg hstring, if_pos rfl] at h
        cases hend : templateEnd? s with
        | none => rw [hend] at h; cases h
        | some found =>
          obtain ⟨_ | _, t, _ | ⟨c, r⟩⟩ := found
          · rw [hend] at h; cases h
          · rw [hend] at h; cases h
          · exact ⟨t, eq_of_templateEnd? hend⟩
          · rw [hend] at h; cases h

theorem stringEnd?_of_plain {quote : Char} {s : Text} (hquote : quote ∉ s) (hescape : '\\' ∉ s)
    (hline : '\n' ∉ s ∧ '\r' ∉ s) {n : Nat} (hn : s.length < n) (r : Text) :
    stringEnd? quote n (s ++ quote :: r) = some (s, r) := by
  induction s generalizing n with
  | nil =>
    obtain ⟨m, rfl⟩ := Nat.exists_eq_add_of_lt hn
    simp [stringEnd?]
  | cons c s ih =>
    simp only [List.mem_cons, not_or] at hquote hescape hline
    obtain ⟨m, rfl⟩ := Nat.exists_eq_succ_of_ne_zero (Nat.ne_zero_of_lt hn)
    have := ih hquote.2 hescape.2 ⟨hline.1.2, hline.2.2⟩ (Nat.lt_of_succ_lt_succ hn)
    have hends : ¬ (c = '\n' ∨ c = '\r') := not_or.2 ⟨Ne.symm hline.1.1, Ne.symm hline.2.1⟩
    rw [List.cons_append, stringEnd?, if_neg (Ne.symm hquote.1), if_neg (Ne.symm hescape.1),
      if_neg hends, this]
    rfl

theorem templateEnd?_of_plain {s : Text} (hquote : '\x60' ∉ s) (hescape : '\\' ∉ s)
    (hexpr : '$' ∉ s) (r : Text) : templateEnd? (s ++ '\x60' :: r) = some (true, s, r) := by
  induction s with
  | nil => rfl
  | cons c s ih =>
    simp only [List.mem_cons, not_or] at hquote hescape hexpr
    rw [List.cons_append, templateEnd?, ih hquote.2 hescape.2 hexpr.2]
    · rfl
    · rintro rfl
      exact hquote.1 rfl
    · rintro _ rfl _
      exact hexpr.1 rfl
    · rintro _ _ rfl _
      exact hescape.1 rfl

/-- **A text in quotes is a string unless it has its quote, a backslash, the end of a line or the
start of an expression in it.** -/
theorem isString_of_plain {q : Char} (hq : isQuote q = true) {s : Text} (hquote : q ∉ s)
    (hescape : '\\' ∉ s) (hline : '\n' ∉ s ∧ '\r' ∉ s) (hexpr : '$' ∉ s) :
    isString (q :: (s ++ [q])) = true := by
  simp only [isQuote, Bool.or_eq_true, beq_iff_eq] at hq
  by_cases hstring : q = '"' ∨ q = '\''
  · have hlt : s.length < (q :: (s ++ [q])).length := by
      rw [List.length_cons, List.length_append]
      omega
    rw [isString, Word.read, if_pos hstring, stringEnd?_of_plain hquote hescape hline hlt]
  · obtain rfl := hq.resolve_left hstring
    rw [isString, Word.read, if_neg hstring, if_pos rfl, templateEnd?_of_plain hquote hescape hexpr]

/-! ## Literals, and what is taken for one -/

/-- A value that scripts read as a string or, behind its sign, as a decimal number. -/
def IsLiteral (v : Text) : Prop :=
  isString v = true ∨ isDecimal (unsigned v) = true ∧ Word.read (unsigned v) = (.number, [])

instance (v : Text) : Decidable (IsLiteral v) := inferInstanceAs (Decidable (_ ∨ _))

/-- A value that is taken for a literal: a text with the same quote at both ends that is no string,
or the name of a number. -/
def IsMisread (v : Text) : Prop :=
  (∃ q s, isQuote q = true ∧ v = q :: (s ++ [q])) ∧ isString v = false ∨
    lower (unsigned v) ∈ numberNames

theorem unquoted?_isSome_iff {v : Text} :
    (unquoted? v).isSome = true ↔ ∃ q s, isQuote q = true ∧ v = q :: (s ++ [q]) := by
  constructor
  · intro h
    obtain ⟨s, hs⟩ := Option.isSome_iff_exists.1 h
    obtain ⟨q, hq, hv⟩ := exists_of_unquoted? hs
    exact ⟨q, s, hq, hv⟩
  · rintro ⟨q, s, hq, rfl⟩
    simp [unquoted?, hq]

instance (v : Text) : Decidable (IsMisread v) :=
  decidable_of_iff ((unquoted? v).isSome = true ∧ isString v = false ∨
      numberNames.contains (lower (unsigned v)) = true)
    (by rw [IsMisread, unquoted?_isSome_iff, List.contains_iff_mem])

theorem isNumeral_iff {v : Text} : isNumeral v = true ↔
    isDecimal (unsigned v) = true ∧ Word.read (unsigned v) = (.number, []) ∨
      lower (unsigned v) ∈ numberNames := by
  have hdecimal : isDecimal (unsigned v) = true ↔
      isDecimal (unsigned v) = true ∧ Word.read (unsigned v) = (.number, []) :=
    ⟨fun h => ⟨h, read_of_isDecimal h⟩, And.left⟩
  rw [isNumeral, Bool.or_eq_true, List.contains_iff_mem]
  exact or_congr_left hdecimal

/-- **A value is understood exactly if it is a literal or taken for one.** -/
theorem readValue?_isSome_iff {n v : Text} :
    (readValue? n v).isSome = true ↔ IsLiteral v ∨ IsMisread v := by
  have hread : (readValue? n v).isSome = true ↔
      (unquoted? v).isSome = true ∨ isNumeral v = true := by
    rw [readValue?]
    cases unquoted? v with
    | some t => simp
    | none => by_cases h : isNumeral v = true <;> simp [h]
  rw [hread, unquoted?_isSome_iff, isNumeral_iff, IsLiteral, IsMisread]
  constructor
  · rintro (hquotes | hdecimal | hname)
    · cases hv : isString v with
      | true => exact .inl (.inl rfl)
      | false => exact .inr (.inl ⟨hquotes, rfl⟩)
    · exact .inl (.inr hdecimal)
    · exact .inr (.inr hname)
  · rintro ((hstring | hdecimal) | ⟨hquotes, -⟩ | hname)
    · exact .inl (exists_of_isString hstring)
    · exact .inr (.inl hdecimal)
    · exact .inl hquotes
    · exact .inr (.inr hname)

/-! ## Objects as text -/

/-- A member of an object: a text without a colon, or a key and a value around the first colon. -/
inductive Member
  | text (source : Text) (colon : ':' ∉ source)
  | entry (key value : Text) (colon : ':' ∉ key)

namespace Member

/-- The text of a member. -/
def source : Member → Text
  | .text s _ => s
  | .entry key value _ => key ++ ':' :: value

/-- The member that a text is. -/
def ofText (s : Text) : Member :=
  match h : cut? [':'] s with
  | none => .text s (cut?_singleton_eq_none.1 h)
  | some (key, value) => .entry key value (not_mem_of_cut?_eq_some h)

theorem source_ofText (s : Text) : (ofText s).source = s := by
  rw [ofText]
  split
  next => rfl
  next key value h =>
    have := eq_of_cut?_eq_some h
    rw [List.append_assoc, List.singleton_append] at this
    exact this.symm

/-- Members that are understood: blank ones, and those with a name for a key and with a value that
is a literal or taken for one. -/
def IsUnderstood : Member → Prop
  | .text s _ => trimmed s = []
  | .entry key value _ =>
    (readName? key).isSome = true ∧ (IsLiteral (trimmed value) ∨ IsMisread (trimmed value))

instance : (m : Member) → Decidable m.IsUnderstood
  | .text s _ => inferInstanceAs (Decidable (trimmed s = []))
  | .entry .. => inferInstanceAs (Decidable (_ ∧ (_ ∨ _)))

theorem isUnderstood_iff (m : Member) :
    m.IsUnderstood ↔ trimmed m.source = [] ∨ (entryOf? m.source).isSome = true := by
  cases m with
  | text s colon => simp [IsUnderstood, source, entryOf?_of_not_mem colon]
  | entry key value colon =>
    have hne : trimmed (key ++ ':' :: value) ≠ [] := fun h => by
      have hspace := all_isSpace_of_trimmed_eq_nil h
      rw [List.all_append, List.all_cons, Bool.and_eq_true, Bool.and_eq_true] at hspace
      exact absurd hspace.2.1 (by decide)
    have hentry : (entryOf? (key ++ ':' :: value)).isSome = true ↔
        ∃ e : Entry, readName? key = some e.1 ∧ readValue? e.1 (trimmed value) = some e.2 :=
      Option.isSome_iff_exists.trans (exists_congr fun e => entryOf?_append_eq_some_iff colon)
    rw [source, or_iff_right hne, IsUnderstood, hentry]
    constructor
    · rintro ⟨hkey, hvalue⟩
      obtain ⟨n, hn⟩ := Option.isSome_iff_exists.1 hkey
      obtain ⟨v, hv⟩ := Option.isSome_iff_exists.1 ((readValue?_isSome_iff (n := n)).2 hvalue)
      exact ⟨(n, v), hn, hv⟩
    · rintro ⟨e, hn, hv⟩
      exact ⟨by rw [hn]; rfl, (readValue?_isSome_iff (n := e.1)).1 (by rw [hv]; rfl)⟩

end Member

/-- An object as text: members with commas between them, in braces with white space around. -/
structure ObjectSource where
  front : Text
  members : List Member
  back : Text
  front_space : front.all isSpace = true
  back_space : back.all isSpace = true
  members_ne : members ≠ []
  whole : ∀ m ∈ members.dropLast, IsWhole ',' none 0 m.source
  unsplit : ∀ m ∈ members, IsUnsplit ',' none 0 m.source

namespace ObjectSource

/-- The text of an object. -/
def source (o : ObjectSource) : Text :=
  o.front ++ '\x7b' :: ([','].intercalate (o.members.map Member.source) ++ '\x7d' :: o.back)

theorem splitTop_members (o : ObjectSource) :
    splitTop ',' ([','].intercalate (o.members.map Member.source)) =
      o.members.map Member.source := by
  obtain ⟨m, ms, hms⟩ := List.exists_cons_of_ne_nil o.members_ne
  have hwhole := o.whole
  have hunsplit := o.unsplit
  rw [hms] at hwhole hunsplit ⊢
  refine splitTop_join (by decide) (by decide) (by decide) ?_ ?_
  · rw [← List.map_cons, ← List.map_dropLast]
    exact List.forall_mem_map.2 hwhole
  · rw [← List.map_cons]
    exact List.forall_mem_map.2 hunsplit

/-- What stands between braces is an object. -/
theorem exists_source {a b : Text} (ha : a.all isSpace = true) (hb : b.all isSpace = true)
    (body : Text) : ∃ o : ObjectSource, o.source = a ++ '\x7b' :: (body ++ '\x7d' :: b) := by
  have hsource : ((splitTop ',' body).map Member.ofText).map Member.source = splitTop ',' body := by
    rw [List.map_map]
    exact (List.map_congr_left fun s _ => Member.source_ofText s).trans (List.map_id _)
  refine ⟨⟨a, (splitTop ',' body).map Member.ofText, b, ha, hb, ?_, ?_, ?_⟩, ?_⟩
  · rw [ne_eq, List.map_eq_nil_iff]
    exact splitFrom_ne_nil ',' none 0 body
  · rw [← List.map_dropLast]
    refine List.forall_mem_map.2 fun s hs => ?_
    rw [Member.source_ofText]
    exact isWhole_of_mem_splitTop hs
  · refine List.forall_mem_map.2 fun s hs => ?_
    rw [Member.source_ofText]
    exact isUnsplit_of_mem_splitTop hs
  · rw [source, hsource, intercalate_splitTop]

/-- **An object is understood exactly if all its members are.** -/
theorem readObject?_source_isSome_iff (o : ObjectSource) :
    (readObject? o.source).isSome = true ↔ ∀ m ∈ o.members, m.IsUnderstood := by
  rw [source, readObject?_braces o.front_space o.back_space, o.splitTop_members,
    Option.isSome_iff_exists]
  simp only [addEntries_eq_some_iff, exists_and_left, exists_eq', and_true, List.forall_mem_map,
    Member.isUnderstood_iff]

end ObjectSource

/-- **The expressions that are understood are objects all of whose values are literals or taken for
one**; an object with any other value is not understood. -/
theorem readObject?_isSome_iff (s : Text) :
    ((readObject? s).isSome = true ↔
        ∃ o : ObjectSource, o.source = s ∧ ∀ m ∈ o.members, m.IsUnderstood) ∧
      ∀ o : ObjectSource, o.source = s → (∃ m ∈ o.members, ¬ m.IsUnderstood) →
        readObject? s = none := by
  have hexists : (readObject? s).isSome = true → ∃ o : ObjectSource, o.source = s := fun h => by
    obtain ⟨m, hm⟩ := Option.isSome_iff_exists.1 h
    obtain ⟨a, b, body, rfl, ha, hb, -⟩ := readObject?_eq_some_iff.1 hm
    exact ObjectSource.exists_source ha hb body
  refine ⟨⟨fun h => ?_, ?_⟩, ?_⟩
  · obtain ⟨o, rfl⟩ := hexists h
    exact ⟨o, rfl, o.readObject?_source_isSome_iff.1 h⟩
  · rintro ⟨o, rfl, h⟩
    exact o.readObject?_source_isSome_iff.2 h
  · rintro o rfl ⟨m, hm, hnot⟩
    rw [← Option.not_isSome_iff_eq_none]
    exact fun h => hnot (o.readObject?_source_isSome_iff.1 h m hm)

/-- An object of one member that closes what it opens. -/
def ObjectSource.single (m : Member) (h : IsWhole ',' none 0 m.source) : ObjectSource where
  front := []
  members := [m]
  back := []
  front_space := rfl
  back_space := rfl
  members_ne := List.cons_ne_nil _ _
  whole := nofun
  unsplit := List.forall_mem_singleton.2 h.isUnsplit

/-- A value that is a property of a theme. -/
theorem readObject?_isSome_iff_theme :
    let s := "\x7b color: theme.primary \x7d".toList
    (∃ o : ObjectSource, o.source = s ∧ ∃ m ∈ o.members, ¬ m.IsUnderstood) ∧
      readObject? s = none := by
  intro s
  have h : ∃ o : ObjectSource, o.source = s ∧ ∃ m ∈ o.members, ¬ m.IsUnderstood :=
    ⟨.single (.entry " color".toList " theme.primary ".toList (by decide)) (by decide), rfl,
      _, List.mem_singleton_self _, by decide⟩
  obtain ⟨o, ho, hm⟩ := h
  exact ⟨⟨o, ho, hm⟩, (readObject?_isSome_iff s).2 o ho hm⟩

/-- Two strings with a sum between them are taken for one string. -/
theorem not_readObject?_eq_none :
    ¬ ∀ (o : ObjectSource) (key value : Text) (colon : ':' ∉ key),
      Member.entry key value colon ∈ o.members → ¬ IsLiteral (trimmed value) →
        readObject? o.source = none := by
  intro h
  have := h (.single (.entry " color".toList " \"var(--\" + name + \")\" ".toList (by decide))
    (by decide)) _ _ _ (List.mem_singleton_self _) (by decide)
  exact absurd this (by decide)

end MarkupSync.Style
