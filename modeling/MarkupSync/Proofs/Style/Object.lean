import MarkupSync.Proofs.Lexeme.Close
import MarkupSync.Proofs.Style.Declarations
import MarkupSync.Proofs.Style.Reread
import MarkupSync.Style.Object

/-!
# Entries of style objects, written and read

* `IsObjectEntry`: a property and a value that can be written in an object;
* `isKeyChar_spec`: what the characters of names are not;
* `exists_quoted`, `isWhole_string`: texts in quotes;
* **`entryOf?_writeEntry`**: an entry is read as it was written (`writeEntry_text`: and closes what
  it opens);
* `kebabChar`, `kebab_of_not_custom`: the CSS spelling of names, letter by letter;
* `hyphensLead`: whether every hyphen stands in front of a small letter;
* `IsPlainName`: the names that objects give back;
* **`kebab_camel_iff`**: a name without capital letters is found again in its object spelling
  exactly if its hyphens lead and it has not the vendor name `ms`.
-/

namespace MarkupSync.Style

open Text

/-- A property name in the spelling that objects give back, and a value without a backslash that one
of the quotes is not in. -/
structure IsObjectEntry (e : Entry) : Prop where
  name_ne : e.1 ≠ []
  name : e.1.all isKeyChar = true
  spelling : isCustom e.1 = true ∨ kebab (camel e.1) = e.1
  plain : '\\' ∉ e.2
  quotes : ¬ ('"' ∈ e.2 ∧ '\'' ∈ e.2)

instance (e : Entry) : Decidable (IsObjectEntry e) :=
  decidable_of_iff (e.1 ≠ [] ∧ e.1.all isKeyChar = true ∧
    (isCustom e.1 = true ∨ kebab (camel e.1) = e.1) ∧ '\\' ∉ e.2 ∧ ¬ ('"' ∈ e.2 ∧ '\'' ∈ e.2))
    ⟨fun ⟨a, b, c, d, e⟩ => ⟨a, b, c, d, e⟩, fun ⟨a, b, c, d, e⟩ => ⟨a, b, c, d, e⟩⟩

/-! ## Characters of names -/

theorem isKeyChar_lt {c : Char} (h : isKeyChar c = true) : c.toNat < 123 := by
  simp only [isKeyChar, Char.isAlphanum, Char.isDigit, Bool.or_eq_true, isAlpha_iff,
    isUpper_iff, isLower_iff, Bool.and_eq_true, decide_eq_true_eq, beq_iff_eq, ge_iff_le,
    UInt32.le_iff_toNat_le] at h
  rcases h with (((h | h) | h) | rfl) | rfl
  · exact Nat.lt_of_le_of_lt h.2 (by decide)
  · exact Nat.lt_of_le_of_lt h.2 (by decide)
  · exact Nat.lt_of_le_of_lt h.2 (by decide)
  · decide
  · decide

/-- What holds of the characters of names is checked one by one. -/
theorem of_isKeyChar {P : Char → Bool}
    (h : ∀ n < 123, isKeyChar (Char.ofNat n) = true → P (Char.ofNat n) = true) {c : Char}
    (hc : isKeyChar c = true) : P c = true := by
  have := h c.toNat (isKeyChar_lt hc)
  rw [Char.ofNat_toNat] at this
  exact this hc

/-- Names have no white space and no colon, and open neither strings nor groups. -/
theorem isKeyChar_spec {c : Char} (hc : isKeyChar c = true) :
    isSpace c = false ∧ isQuote c = false ∧ isInert ',' c = true ∧ isCodeChar c = true ∧
      c ≠ ':' := by
  have := of_isKeyChar (P := fun c =>
    !isSpace c && !isQuote c && isInert ',' c && isCodeChar c && c != ':') (by decide) hc
  simpa [and_assoc] using this

theorem all_isKeyChar_camelFrom {s : Text} (h : s.all isKeyChar = true) (raise : Bool) :
    (camelFrom raise s).all isKeyChar = true := by
  induction s generalizing raise with
  | nil => rfl
  | cons c s ih =>
    simp only [List.all_cons, Bool.and_eq_true] at h
    have hupper : isKeyChar c.toUpper = true :=
      of_isKeyChar (P := fun c => isKeyChar c.toUpper) (by decide) h.1
    rw [camelFrom]
    split_ifs
    · exact ih h.2 _
    · simp [hupper, ih h.2]
    · simp [h.1, ih h.2]

theorem all_isKeyChar_camel {s : Text} (h : s.all isKeyChar = true) :
    (camel s).all isKeyChar = true := by
  rw [camel]
  split
  next rest hrest =>
    rw [eq_of_afterWord? hrest, List.all_append, Bool.and_eq_true] at h
    refine all_isKeyChar_camelFrom ?_ _
    rw [List.all_append, h.2]
    rfl
  next => exact all_isKeyChar_camelFrom h _

/-! ## Texts in quotes -/

/-- White space around a text that neither starts nor ends with it is cut off. -/
theorem trimmed_between {a s b : Text} (ha : a.all isSpace = true) (hb : b.all isSpace = true)
    (hn : s ≠ []) (hfirst : ∀ c ∈ s.head?, isSpace c = false)
    (hlast : ∀ c ∈ s.getLast?, isSpace c = false) : trimmed (a ++ (s ++ b)) = s := by
  have hstart : trimStart isSpace (a ++ (s ++ b)) = s ++ b := by
    refine dropWhile_append_of_stop ha fun c hc => hfirst c ?_
    rwa [List.head?_append_of_ne_nil _ hn] at hc
  have hend : (s ++ b).reverse.dropWhile isSpace = s.reverse := by
    rw [List.reverse_append]
    refine dropWhile_append_of_stop (by rwa [List.all_reverse]) fun c hc => hlast c ?_
    rwa [List.head?_reverse] at hc
  rw [trimmed, trim, hstart, trimEnd, hend, List.reverse_reverse]

/-- A value is put in quotes that are not in it. -/
theorem exists_quoted {quote : Char} (hq : quote = '"' ∨ quote = '\'') {s : Text}
    (hs : ¬ ('"' ∈ s ∧ '\'' ∈ s)) :
    ∃ q, (q = '"' ∨ q = '\'') ∧ q ∉ s ∧ quoted quote s = q :: (s ++ [q]) := by
  by_cases h : quote ∈ s
  · rcases hq with rfl | rfl
    · exact ⟨'\'', .inr rfl, fun h' => hs ⟨h, h'⟩, by simp [quoted, h]⟩
    · exact ⟨'"', .inl rfl, fun h' => hs ⟨h', h⟩, by simp [quoted, h]⟩
  · exact ⟨quote, hq, h, by simp [quoted, h]⟩

section Quotes

variable {q : Char} (hq : q = '"' ∨ q = '\'')
include hq

theorem unquoted?_string (s : Text) : unquoted? (q :: (s ++ [q])) = some s := by
  have hquote : isQuote q = true := by rcases hq with rfl | rfl <;> rfl
  simp [unquoted?, hquote]

theorem trimmed_string (s : Text) : trimmed (q :: (s ++ [q])) = q :: (s ++ [q]) := by
  have hspace : isSpace q = false := by rcases hq with rfl | rfl <;> decide
  have := trimmed_between (a := []) (b := []) (s := q :: (s ++ [q])) rfl rfl (List.cons_ne_nil _ _)
    (by simpa using hspace) (by rw [← List.cons_append, List.getLast?_concat]; simpa using hspace)
  rwa [List.append_nil] at this

theorem isWhole_string {sep : Char} {s : Text} (hs : q ∉ s) {t : Text}
    (ht : IsWhole sep none 0 t) : IsWhole sep none 0 (q :: (s ++ q :: t)) := by
  have hquote : isQuote q = true := by rcases hq with rfl | rfl <;> rfl
  rw [IsWhole, if_pos hquote]
  induction s with
  | nil => rwa [List.nil_append, IsWhole, if_pos rfl]
  | cons c s ih =>
    simp only [List.mem_cons, not_or] at hs
    rw [List.cons_append, IsWhole, if_neg (Ne.symm hs.1)]
    exact ih hs.2

theorem isBalanced_quoted {s : Text} (hs : q ∉ s) (hplain : '\\' ∉ s) :
    IsBalanced (q :: (s ++ [q])) :=
  isBalanced_string (by rcases hq with rfl | rfl <;> rfl) hs hplain

end Quotes

/-! ## Entries -/

/-- A name as an object has it. -/
def writeName (quote : Char) (name : Text) : Text :=
  if isCustom name then quoted quote name else camel name

section Entry

variable {quote : Char} (hq : quote = '"' ∨ quote = '\'') {e : Entry} (he : IsObjectEntry e)
include hq he

/-- A written name is read as the name. -/
theorem writeName_spec :
    ∃ key, (unquoted? (writeName quote e.1)).getD (writeName quote e.1) = key ∧
      (isCustom key || key.all isKeyChar) = true ∧ kebab key = e.1 := by
  rw [writeName]
  split
  next hcustom =>
    have hkey := he.name
    obtain ⟨q, hq', -, hquoted⟩ := exists_quoted hq (s := e.1) fun h =>
      absurd (List.all_eq_true.1 hkey _ h.1) (by decide)
    refine ⟨e.1, by rw [hquoted, unquoted?_string hq']; rfl, by simp [hcustom], ?_⟩
    rw [kebab, if_pos hcustom]
  next hcustom =>
    have hkey := all_isKeyChar_camel he.name
    have hunquoted : unquoted? (camel e.1) = none := by
      cases hc : camel e.1 with
      | nil => rfl
      | cons c s =>
        rw [hc, List.all_cons, Bool.and_eq_true] at hkey
        simp [unquoted?, (isKeyChar_spec hkey.1).2.1]
    exact ⟨camel e.1, by rw [hunquoted]; rfl, by simp [hkey], he.spelling.resolve_left hcustom⟩

/-- A written name has neither white space nor a colon, and closes what it opens. -/
theorem writeName_text :
    (∀ c ∈ writeName quote e.1, isSpace c = false ∧ c ≠ ':') ∧
      IsBalanced (writeName quote e.1) ∧
      ∀ t, IsWhole ',' none 0 t → IsWhole ',' none 0 (writeName quote e.1 ++ t) := by
  have hname := List.all_eq_true.1 he.name
  rw [writeName]
  split
  next =>
    obtain ⟨q, hq', hmem, hquoted⟩ := exists_quoted hq (s := e.1) fun h =>
      absurd (hname _ h.1) (by decide)
    rw [hquoted]
    refine ⟨fun c hc => ?_,
      isBalanced_quoted hq' hmem fun h => absurd (hname _ h) (by decide), fun t ht => ?_⟩
    · simp only [List.mem_cons, List.mem_append, List.not_mem_nil, or_false] at hc
      rcases hc with rfl | hc | rfl
      · rcases hq' with rfl | rfl <;> decide
      · obtain ⟨hspace, -, -, -, hcolon⟩ := isKeyChar_spec (hname c hc)
        exact ⟨hspace, hcolon⟩
      · rcases hq' with rfl | rfl <;> decide
    · simpa using isWhole_string hq' hmem ht
  next hcustom =>
    have hchars : ∀ c ∈ camel e.1, isKeyChar c = true :=
      List.all_eq_true.1 (all_isKeyChar_camel he.name)
    refine ⟨fun c hc => ?_,
      isBalanced_of_all (List.all_eq_true.2 fun c hc => ?_),
      fun t ht => isWhole_append_of (List.all_eq_true.2 fun c hc => ?_) ht⟩
    all_goals obtain ⟨hspace, -, hinert, hcode, hcolon⟩ := isKeyChar_spec (hchars c hc)
    · exact ⟨hspace, hcolon⟩
    · exact hcode
    · exact hinert

/-- A written entry is its name and its value in quotes. -/
theorem exists_writeEntry : ∃ q, (q = '"' ∨ q = '\'') ∧ q ∉ e.2 ∧
    writeEntry quote e = writeName quote e.1 ++ ':' :: ' ' :: q :: (e.2 ++ [q]) := by
  obtain ⟨q, hq', hmem, hquoted⟩ := exists_quoted hq he.quotes
  exact ⟨q, hq', hmem, by simp [writeEntry, writeName, hquoted]⟩

/-- **An entry is read as it was written.** -/
theorem entryOf?_writeEntry : entryOf? (writeEntry quote e) = some e := by
  obtain ⟨q, hq', hmem, hentry⟩ := exists_writeEntry hq he
  obtain ⟨key, hkey, hok, hkebab⟩ := writeName_spec hq he
  obtain ⟨hchars, -, -⟩ := writeName_text hq he
  have hname : trimmed (writeName quote e.1) = writeName quote e.1 :=
    trimmed_of_all (List.all_eq_true.2 fun c hc => by simp [(hchars c hc).1])
  have hvalue : trimmed (' ' :: q :: (e.2 ++ [q])) = q :: (e.2 ++ [q]) :=
    trimmed_string hq' e.2
  have hcut : cut? [':'] (writeEntry quote e) =
      some (writeName quote e.1, ' ' :: q :: (e.2 ++ [q])) := by
    rw [hentry]
    exact cut?_singleton_append (fun h => (hchars _ h).2 rfl) _
  simp [entryOf?, hcut, hname, hkey, hok, hkebab, hvalue, readValue?, unquoted?_string hq']

/-- A written entry closes what it opens. -/
theorem writeEntry_text :
    IsBalanced (writeEntry quote e) ∧ IsWhole ',' none 0 (writeEntry quote e) := by
  obtain ⟨q, hq', hmem, hentry⟩ := exists_writeEntry hq he
  obtain ⟨-, hbalanced, hwhole⟩ := writeName_text hq he
  rw [hentry]
  constructor
  · have hcolon : IsBalanced [':', ' '] := isBalanced_of_all (by decide)
    have := (hbalanced.append hcolon).append (isBalanced_quoted hq' hmem he.plain)
    simpa using this
  · have hvalue : IsWhole ',' none 0 ([':', ' '] ++ q :: (e.2 ++ [q])) :=
      isWhole_append_of (by decide) (isWhole_string hq' hmem (by decide))
    exact hwhole _ hvalue

end Entry

/-! ## Letters of names -/

/-- A character of a property name in the CSS spelling. -/
def kebabChar (c : Char) : Text := if c.isUpper then ['-', c.toLower] else [c]

theorem kebab_of_not_custom {n : Text} (h : isCustom n = false) :
    kebab n = n.flatMap kebabChar := by
  rw [kebab, h]
  rfl

theorem kebabChar_of_not_isUpper {c : Char} (h : c.isUpper = false) : kebabChar c = [c] := by
  rw [kebabChar, h]
  rfl

theorem toUpper_spec {c : Char} (h : c.isLower = true) :
    c.toUpper.isUpper = true ∧ c.toUpper.toLower = c := by
  have halpha : c.isAlpha = true := isAlpha_iff.2 (.inr h)
  have hkey : isKeyChar c = true := by simp [isKeyChar, Char.isAlphanum, halpha]
  have := of_isKeyChar
    (P := fun c => !c.isLower || c.toUpper.isUpper && c.toUpper.toLower == c) (by decide) hkey
  simpa [h] using this

/-- A small letter that is raised comes back behind a hyphen. -/
theorem kebabChar_toUpper {c : Char} (h : c.isLower = true) : kebabChar c.toUpper = ['-', c] := by
  obtain ⟨hupper, hlower⟩ := toUpper_spec h
  rw [kebabChar, if_pos hupper, hlower]

theorem toUpper_of_not_isLower {c : Char} (h : c.isLower = false) : c.toUpper = c :=
  dif_neg fun hc => Bool.noConfusion (h.symm.trans (isLower_iff.2 hc))

/-- A raised character comes back as a character or behind a hyphen. -/
theorem length_kebabChar_toUpper (c : Char) (h : c.isUpper = false) :
    (kebabChar c.toUpper).length ≤ 2 := by
  cases hc : c.isLower with
  | true => simp [kebabChar_toUpper hc]
  | false => simp [toUpper_of_not_isLower hc, kebabChar_of_not_isUpper h]

/-! ## Hyphens -/

/-- Whether every hyphen of a text stands in front of a small letter. -/
def hyphensLead : Text → Bool
  | [] => true
  | c :: s => (c != '-' || s.head?.any Char.isLower) && hyphensLead s

/-- The CSS spelling of the object spelling of a name, behind a hyphen if letters are raised. -/
def respelled (raise : Bool) (n : Text) : Text := (camelFrom raise n).flatMap kebabChar

section Respelled

variable {c : Char} {s : Text}

theorem respelled_hyphen (raise : Bool) (s : Text) :
    respelled raise ('-' :: s) = respelled true s := by
  rw [respelled, camelFrom, if_pos rfl]
  rfl

theorem respelled_cons (hc : c ≠ '-') (hup : c.isUpper = false) (s : Text) :
    respelled false (c :: s) = c :: respelled false s := by
  rw [respelled, camelFrom, if_neg hc]
  simp [respelled, kebabChar_of_not_isUpper hup]

theorem respelled_raised (hc : c ≠ '-') (s : Text) :
    respelled true (c :: s) = kebabChar c.toUpper ++ respelled false s := by
  rw [respelled, camelFrom, if_neg hc, if_pos rfl, List.flatMap_cons]
  rfl

/-- A name gains no characters. -/
theorem length_respelled (raise : Bool) (hs : ∀ c ∈ s, c.isUpper = false) :
    (respelled raise s).length ≤ s.length + raise.toNat := by
  induction s generalizing raise with
  | nil => simp [respelled, camelFrom]
  | cons c s ih =>
    obtain ⟨hup, hs'⟩ := List.forall_mem_cons.1 hs
    by_cases hc : c = '-'
    · subst hc
      have := ih true hs'
      rw [respelled_hyphen, List.length_cons]
      simp only [Bool.toNat_true] at this
      omega
    · have := ih false hs'
      cases raise with
      | false =>
        rw [respelled_cons hc hup, List.length_cons, List.length_cons]
        omega
      | true =>
        have hraised := length_kebabChar_toUpper c hup
        rw [respelled_raised hc, List.length_append, List.length_cons]
        simp only [Bool.toNat_true, Bool.toNat_false] at this ⊢
        omega

/-- A name is respelled as it was exactly if its hyphens lead, also behind a hyphen. -/
theorem respelled_iff (hs : ∀ c ∈ s, c.isUpper = false) :
    (respelled false s = s ↔ hyphensLead s = true) ∧
      (respelled true s = '-' :: s ↔ hyphensLead ('-' :: s) = true) := by
  induction s with
  | nil => decide
  | cons c s ih =>
    obtain ⟨hup, hs'⟩ := List.forall_mem_cons.1 hs
    obtain ⟨hplain, hraised⟩ := ih hs'
    by_cases hc : c = '-'
    · subst hc
      refine ⟨by rw [respelled_hyphen, hraised], ?_⟩
      -- the second of two hyphens is lost
      have hlost : respelled true s ≠ '-' :: '-' :: s := fun h => by
        have := length_respelled true hs'
        rw [h] at this
        simp only [List.length_cons, Bool.toNat_true] at this
        omega
      rw [respelled_hyphen]
      simp [hlost, hyphensLead]
    · refine ⟨?_, ?_⟩
      · rw [respelled_cons hc hup]
        simp [hplain, hyphensLead, hc]
      · rw [respelled_raised hc]
        cases hlow : c.isLower with
        | true => simp [kebabChar_toUpper hlow, hplain, hyphensLead, hc, hlow]
        | false =>
          rw [toUpper_of_not_isLower hlow, kebabChar_of_not_isUpper hup]
          simp [hyphensLead, hc, hlow]

end Respelled

/-! ## Names -/

/-- A letter that is not raised is in the text, and is no hyphen. -/
theorem mem_of_mem_camelFrom {d : Char} (hd : d.isUpper = false) {raise : Bool} {s : Text}
    (h : d ∈ camelFrom raise s) : d ∈ s ∧ d ≠ '-' := by
  have hraised {c : Char} (hc : c.toUpper = d) : c = d := by
    cases hlow : c.isLower with
    | false => rwa [toUpper_of_not_isLower hlow] at hc
    | true =>
      have := kebabChar_toUpper hlow
      rw [hc, kebabChar_of_not_isUpper hd] at this
      cases this
  induction s generalizing raise with
  | nil => cases h
  | cons c s ih =>
    rw [camelFrom] at h
    split_ifs at h with hc
    · exact (ih h).imp_left (List.mem_cons_of_mem c)
    · obtain rfl | h := List.mem_cons.1 h
      · have := hraised rfl
        exact ⟨by simp [← this], this ▸ hc⟩
      · exact (ih h).imp_left (List.mem_cons_of_mem c)
    · obtain rfl | h := List.mem_cons.1 h
      · exact ⟨List.mem_cons_self, hc⟩
      · exact (ih h).imp_left (List.mem_cons_of_mem c)

/-- The CSS spelling of a name is a name. -/
theorem all_isKeyChar_kebab {n : Text} (h : n.all isKeyChar = true) :
    (kebab n).all isKeyChar = true := by
  cases hn : isCustom n with
  | true => rwa [kebab, if_pos hn]
  | false =>
    rw [kebab_of_not_custom hn, List.all_flatMap]
    refine List.all_eq_true.2 fun c hc => ?_
    exact of_isKeyChar (P := fun c => (kebabChar c).all isKeyChar) (by decide)
      (List.all_eq_true.1 h c hc)

theorem mem_of_mem_camel {d : Char} (hd : d.isUpper = false) {n : Text} (h : d ∈ camel n) :
    d ∈ n ∧ d ≠ '-' := by
  rw [camel] at h
  split at h
  next rest hrest =>
    refine (mem_of_mem_camelFrom hd h).imp_left fun h => ?_
    rw [eq_of_afterWord? hrest]
    exact List.mem_cons_of_mem '-' h
  next => exact mem_of_mem_camelFrom hd h

theorem isCustom_of_not_mem {s : Text} (h : '-' ∉ s) : isCustom s = false := by
  cases s with
  | nil => rfl
  | cons c s =>
    simp only [List.mem_cons, not_or] at h
    simp [isCustom, startsWith_cons, h.1]

/-- **A name without capital letters is found again in its object spelling exactly if every hyphen
leads to a small letter and it has not the vendor name `ms`.** -/
theorem kebab_camel_iff {n : Text} (hn : ∀ c ∈ n, c.isUpper = false) :
    kebab (camel n) = n ↔ hyphensLead n = true ∧ startsWith ['-', 'm', 's', '-'] n = false := by
  have hhyphen : '-' ∉ camel n := fun h => (mem_of_mem_camel (by decide) h).2 rfl
  rw [kebab_of_not_custom (isCustom_of_not_mem hhyphen), camel, startsWith]
  split
  next rest hrest =>
    rw [hrest]
    have heq := eq_of_afterWord? hrest
    have hne : respelled false (['m', 's', '-'] ++ rest) ≠ n := by
      rw [heq, List.cons_append, respelled_cons (by decide) (by decide)]
      simp
    rw [respelled] at hne
    exact iff_of_false hne (by simp)
  next hnone =>
    rw [hnone, ← respelled, (respelled_iff hn).1]
    simp

/-- A name that an object gives back. -/
structure IsPlainName (n : Text) : Prop where
  chars : n.all isKeyChar = true
  hyphens : hyphensLead n = true
  vendor : startsWith ['-', 'm', 's', '-'] n = false

instance (n : Text) : Decidable (IsPlainName n) :=
  decidable_of_iff (n.all isKeyChar = true ∧ hyphensLead n = true ∧
    startsWith ['-', 'm', 's', '-'] n = false)
    ⟨fun ⟨a, b, c⟩ => ⟨a, b, c⟩, fun ⟨a, b, c⟩ => ⟨a, b, c⟩⟩

end MarkupSync.Style
