import MarkupSync.Proofs.Lexeme.Close
import MarkupSync.Proofs.Script.Word
import MarkupSync.Proofs.Text.Entity

/-!
# Code in braces

Where the brace that closes an open one is found, and where scripts have it.

* `Pairs`: texts whose quotes and braces pair, wherever they stand;
* **`closes_iff_pairs`**: a brace behind a text closes the one in front of it, whatever follows,
  exactly if the quotes and braces of the text pair;
* `Script.Atom`, `Script.Piece`: the words, comments and white space of code, its templates and the
  code it has in braces;
* `Script.Piece.AreWritten`: code whose parts are read as what they are;
* `Script.Piece.ArePlain`: code whose comments have pairs of quotes and braces, and whose templates
  have no bare backquote within their expressions;
* `Script.Piece.pairs_sources`: the quotes and braces of such code pair;
* **`Script.closes_sources_iff`**: where the braces around code are closed.
-/

namespace MarkupSync

open Text

/-! ## Texts whose quotes and braces pair -/

/-- The quotes of a text pair, and so do the braces outside of quotes. -/
inductive Pairs : Text → Prop
  | nil : Pairs []
  | char {c : Char} {s : Text} (hc : isCodeChar c = true) (h : Pairs s) : Pairs (c :: s)
  | quoted {q : Char} {p s : Text} (hquote : isStringQuote q = true) (hp : IsQuoted q p)
    (h : Pairs s) : Pairs (q :: (p ++ q :: s))
  | braces {p s : Text} (hp : Pairs p) (h : Pairs s) : Pairs ('\x7b' :: (p ++ '\x7d' :: s))

namespace Pairs

variable {s t : Text}

theorem append (hs : Pairs s) (ht : Pairs t) : Pairs (s ++ t) := by
  induction hs with
  | nil => exact ht
  | char hc _ ih => exact .char hc ih
  | quoted hquote hp _ ih =>
    rw [List.cons_append, List.append_assoc, List.cons_append]
    exact .quoted hquote hp ih
  | braces hp _ _ ih =>
    rw [List.cons_append, List.append_assoc, List.cons_append]
    exact .braces hp ih

theorem of_all (hs : s.all isCodeChar = true) : Pairs s := by
  induction s with
  | nil => exact .nil
  | cons c s ih =>
    rw [List.all_cons, Bool.and_eq_true] at hs
    exact .char hs.1 (ih hs.2)

theorem isBalanced (hs : Pairs s) : IsBalanced s := by
  induction hs with
  | nil => exact isBalanced_nil
  | @char c s hc _ ih =>
    exact (isBalanced_of_all (s := [c]) (by simpa using hc)).append ih
  | @quoted q p s hquote hp _ ih =>
    have h := (hp.isBalanced hquote).append ih
    rwa [List.cons_append, List.append_assoc, List.singleton_append] at h
  | braces _ _ ihp ih =>
    have h := ihp.braces.append ih
    rwa [List.cons_append, List.append_assoc, List.singleton_append] at h

end Pairs

/-- A text that closes `depth + 1` braces: pairs, with these braces between them and the last at the
end. -/
inductive Closing : Nat → Text → Prop
  | last {s : Text} (h : Pairs s) : Closing 0 (s ++ ['\x7d'])
  | more {depth : Nat} {s t : Text} (h : Pairs s) (ht : Closing depth t) :
    Closing (depth + 1) (s ++ '\x7d' :: t)

namespace Closing

variable {depth : Nat} {s t : Text}

theorem append (hs : Pairs s) (ht : Closing depth t) : Closing depth (s ++ t) := by
  cases ht with
  | last h =>
    rw [← List.append_assoc]
    exact .last (hs.append h)
  | more h ht =>
    rw [← List.append_assoc]
    exact .more (hs.append h) ht

/-- A brace that is opened is closed. -/
theorem opened (h : Closing (depth + 1) s) : Closing depth ('\x7b' :: s) := by
  cases h with
  | @more _ p t hp ht =>
    have := append (.braces hp .nil) ht
    rwa [List.cons_append, List.append_assoc, List.singleton_append] at this

theorem pairs_of_last (h : Closing 0 (s ++ ['\x7d'])) : Pairs s := by
  generalize hu : s ++ ['\x7d'] = u at h
  cases h with
  | last h =>
    obtain rfl := List.append_cancel_right hu
    exact h

end Closing

/-- A text that closes a string, if a quote is given, and `depth + 1` braces. -/
def ClosingFrom (depth : Nat) (p : Text) : Option Char → Prop
  | none => Closing depth p
  | some q => ∃ u v, p = u ++ q :: v ∧ IsQuoted q u ∧ Closing depth v

/-- What is read up to a closing brace closes what was open. -/
theorem closingFrom_of_closeFrom {q : Option Char} {depth : Nat} {s p r : Text}
    (h : closeFrom q depth s = some (p, r)) : ClosingFrom depth p q := by
  fun_induction closeFrom q depth s generalizing p with
  | case1 | case2 => cases h
  | case3 q depth d s ih =>
    obtain ⟨p, hp, rfl⟩ := extend_eq_some.1 h
    obtain ⟨u, v, rfl, hu, hv⟩ := ih hp
    exact ⟨'\\' :: d :: u, v, rfl, .escape hu, hv⟩
  | case4 q depth c s hend hpair ih =>
    obtain ⟨p, hp, rfl⟩ := extend_eq_some.1 h
    have hc : c ≠ '\\' := by
      cases s with
      | nil => exact fun h => hend h rfl
      | cons d s => exact fun h => hpair d s h rfl
    have ih := ih hp
    by_cases hq : c = q
    · rw [if_pos hq] at ih
      exact ⟨[], p, by rw [hq]; rfl, .nil, ih⟩
    · rw [if_neg hq] at ih
      obtain ⟨u, v, rfl, hu, hv⟩ := ih
      exact ⟨c :: u, v, rfl, .char hq hc hu, hv⟩
  | case5 depth s ih =>
    obtain ⟨p, hp, rfl⟩ := extend_eq_some.1 h
    exact Closing.opened (ih hp)
  | case6 =>
    cases h
    exact .last .nil
  | case7 s depth hne ih =>
    obtain ⟨p, hp, rfl⟩ := extend_eq_some.1 h
    exact .more .nil (ih hp)
  | case8 depth c s hopen hclose hquote ih =>
    obtain ⟨p, hp, rfl⟩ := extend_eq_some.1 h
    obtain ⟨u, v, rfl, hu, hv⟩ := ih hp
    have := Closing.append (.quoted hquote hu .nil) hv
    rwa [List.cons_append, List.append_assoc, List.singleton_append] at this
  | case9 depth c s hopen hclose hquote ih =>
    obtain ⟨p, hp, rfl⟩ := extend_eq_some.1 h
    have hc : isCodeChar c = true := by simp [isCodeChar, hopen, hclose, hquote]
    exact Closing.append (.char hc .nil) (ih hp)

/-- **A brace behind a text closes the one in front of it exactly if the quotes and braces of the
text pair.** -/
theorem closes_iff_pairs {s : Text} :
    (∀ rest, closeBraces? (s ++ '\x7d' :: rest) = some (s ++ ['\x7d'], rest)) ↔ Pairs s :=
  ⟨fun h => Closing.pairs_of_last (closingFrom_of_closeFrom (h [])), fun h => h.isBalanced.closeBraces?⟩

namespace Script

/-! ## Words -/

/-- A class of characters without quotes and braces. -/
theorem isCodeChar_of {p : Char → Bool}
    (hp : ['"', '\'', '\x60', '\x7b', '\x7d'].any p = false) {c : Char} (hc : p c = true) :
    isCodeChar c = true := by
  by_contra h
  have hmem : c ∈ ['"', '\'', '\x60', '\x7b', '\x7d'] := by
    simp only [isCodeChar, isStringQuote, Bool.not_eq_true', Bool.not_eq_false, Bool.or_eq_true,
      beq_iff_eq] at h
    simpa [or_assoc] using h
  exact Bool.false_ne_true (hp.symm.trans (List.any_eq_true.2 ⟨c, hmem, hc⟩))

theorem isAlphanum_of_mem {b n v : Nat} {digits : Text} (h : readDigits b n digits = some v)
    {c : Char} (hc : c ∈ digits) : c.isAlphanum = true := by
  by_contra hdigit
  have hnone : digitValue b c = none := by
    by_contra hsome
    exact hdigit (isAlphanum_of_digitValue (Option.isSome_iff_ne_none.2 hsome))
  rw [readDigits_eq_none hnone hc] at h
  cases h

/-- The digits of a number have neither quotes nor braces. -/
theorem pairs_of_readDigits {b n v : Nat} {digits : Text} (h : readDigits b n digits = some v) :
    Pairs digits :=
  .of_all (List.all_eq_true.2 fun _ hc =>
    isCodeChar_of (p := Char.isAlphanum) (by decide) (isAlphanum_of_mem h hc))

/-- The text `s` goes on with `r` behind a text whose quotes and braces pair. -/
def SkipsPairs (s r : Text) : Prop := ∃ x, Pairs x ∧ s = x ++ r

namespace SkipsPairs

variable {s t r : Text}

theorem refl (s : Text) : SkipsPairs s s := ⟨[], .nil, rfl⟩

theorem cons {c : Char} (hc : isCodeChar c = true) (h : SkipsPairs s r) : SkipsPairs (c :: s) r := by
  obtain ⟨x, hx, rfl⟩ := h
  exact ⟨c :: x, .char hc hx, rfl⟩

theorem trans (h : SkipsPairs s r) (h' : SkipsPairs r t) : SkipsPairs s t := by
  obtain ⟨x, hx, rfl⟩ := h
  obtain ⟨y, hy, rfl⟩ := h'
  exact ⟨x ++ y, hx.append hy, (List.append_assoc ..).symm⟩

theorem pairs (h : SkipsPairs s []) : Pairs s := by
  obtain ⟨x, hx, rfl⟩ := h
  rwa [List.append_nil]

end SkipsPairs

theorem skipsPairs_unicodeEscape? {s r : Text} {c : Char} (h : unicodeEscape? s = some (c, r)) :
    SkipsPairs s r := by
  obtain ⟨digits, n, hn, rfl | rfl⟩ := unicodeEscape?_spec h
  · exact ⟨digits, pairs_of_readDigits hn, rfl⟩
  · exact ⟨_, .braces (pairs_of_readDigits hn) .nil, by simp⟩

theorem skipsPairs_nameFrom (n : Nat) (s : Text) : SkipsPairs s (nameFrom n s).2.2 := by
  fun_induction nameFrom n s with
  | case3 n c s hc name escaped r hr ih =>
    rw [hr] at ih
    exact .cons (isCodeChar_of (p := isIdPart) (by decide) hc) ih
  | case4 n t d r hescape name escaped r' hr _ ih =>
    rw [hr] at ih
    exact .cons (by decide) (.cons (by decide) ((skipsPairs_unicodeEscape? hescape).trans ih))
  | _ => exact .refl _

theorem skipsPairs_name? {s r text : Text} {escaped : Bool} (h : name? s = some (text, escaped, r)) :
    SkipsPairs s r := by
  unfold name? at h
  split at h
  next c t =>
    split at h
    · split at h
      · cases h
      next =>
        have hname := skipsPairs_nameFrom (c :: t).length (c :: t)
        rw [Option.some.inj h] at hname
        exact hname
    · cases h
  next => cases h

theorem skipsPairs_afterNumber? {s r : Text} (h : afterNumber? s = some r) : SkipsPairs s r := by
  obtain ⟨x, hx, rfl⟩ := skipsNumber_afterNumber? h
  refine ⟨x, .of_all (List.all_eq_true.2 fun c hc => ?_), rfl⟩
  exact isCodeChar_of (p := isNumberChar) (by decide) (List.all_eq_true.1 hx c hc)

/-- A sign that is no brace. -/
theorem skipsPairs_sign? {s r mark : Text} (h : sign? s = some (mark, r)) (hopen : mark ≠ ['\x7b'])
    (hclose : mark ≠ ['\x7d']) : SkipsPairs s r := by
  unfold sign? at h
  split at h
  · cases h
  next c t =>
    split at h
    next hchain =>
      cases h
      obtain ⟨rfl, hchain⟩ := hchain
      cases t with
      | nil => cases hchain
      | cons d t =>
        have hd : d = '.' := by
          unfold startsChain at hchain
          split at hchain <;> simp_all
        rw [hd]
        exact .cons (by decide) (.cons (by decide) (.refl _))
    · split at h
      next sign hfind =>
        cases h
        have hmem : ∀ sign ∈ longSigns, sign.all isCodeChar = true := by decide
        have hstart : startsWith mark (c :: t) = true := by simpa using List.find?_some hfind
        obtain ⟨r, hr⟩ := Option.isSome_iff_exists.1 hstart
        refine ⟨mark, .of_all (hmem mark (List.mem_of_find?_eq_some hfind)), ?_⟩
        rw [eq_of_afterWord? hr, List.drop_left]
      · split at h
        next hshort =>
          cases h
          refine .cons ?_ (.refl _)
          have hsigns : shortSigns.all (fun c => isCodeChar c || c == '\x7b' || c == '\x7d') = true :=
            rfl
          have hc := List.all_eq_true.1 hsigns c (List.contains_iff_mem.1 hshort)
          simp only [Bool.or_eq_true, beq_iff_eq] at hc
          rcases hc with (hc | rfl) | rfl
          · exact hc
          · exact absurd rfl hopen
          · exact absurd rfl hclose
        · cases h

/-! ## Strings and templates -/

/-- The characters of an escape behind its first one. -/
def isEscapeChar (c : Char) : Bool := c.isAlphanum || c == '\n' || c == '\x7b' || c == '\x7d'

theorem isEscapeChar_of_mem {b n v : Nat} {digits : Text} (h : readDigits b n digits = some v)
    {c : Char} (hc : c ∈ digits) : isEscapeChar c = true := by
  simp [isEscapeChar, isAlphanum_of_mem h hc]

/-- An escape is one character, perhaps with digits in braces or a line feed behind it. -/
theorem afterEscape?_spec {s r : Text} (h : afterEscape? s = some r) :
    ∃ c x, s = c :: (x ++ r) ∧ ∀ d ∈ x, isEscapeChar d = true := by
  unfold afterEscape? at h
  split at h
  · cases h
  next a b r' =>
    split at h
    next hdigits =>
      cases h
      obtain ⟨n, hn⟩ := Option.isSome_iff_exists.1 hdigits
      exact ⟨'x', [a, b], rfl, fun d hd => isEscapeChar_of_mem hn hd⟩
    · cases h
  · cases h
  next s =>
    obtain ⟨⟨c, r'⟩, hescape, rfl⟩ := Option.map_eq_some_iff.1 h
    obtain ⟨digits, n, hn, rfl | rfl⟩ := unicodeEscape?_spec hescape
    · exact ⟨'u', digits, rfl, fun d hd => isEscapeChar_of_mem hn hd⟩
    · refine ⟨'u', '\x7b' :: (digits ++ ['\x7d']), by simp, fun d hd => ?_⟩
      simp only [List.mem_cons, List.mem_append, List.not_mem_nil, or_false] at hd
      rcases hd with rfl | hd | rfl
      · rfl
      · exact isEscapeChar_of_mem hn hd
      · rfl
  next r' =>
    cases h
    refine ⟨'\r', ['\n'], rfl, fun d hd => ?_⟩
    obtain rfl := List.mem_singleton.1 hd
    rfl
  next c r' _ _ _ _ =>
    cases h
    exact ⟨c, [], rfl, fun d hd => absurd hd List.not_mem_nil⟩

/-- What is read as the content of a string is quoted. -/
theorem isQuoted_stringEnd? {q : Char} (hq : isEscapeChar q = false) {n : Nat} {s p r : Text}
    (h : stringEnd? q n s = some (p, r)) : IsQuoted q p := by
  fun_induction stringEnd? q n s generalizing p with
  | case1 | case2 | case4 | case6 => cases h
  | case3 =>
    cases h
    exact .nil
  | case5 n s t hescape _ ih =>
    obtain ⟨p', hp, rfl⟩ := extend_eq_some.1 h
    obtain ⟨c, x, rfl, hx⟩ := afterEscape?_spec hescape
    have htake : (c :: (x ++ t)).take ((c :: (x ++ t)).length - t.length) = c :: x := by
      rw [← List.cons_append, List.length_append, Nat.add_sub_cancel, List.take_left]
    have hnot {d : Char} (hd : isEscapeChar d = false) : d ∉ x := fun hmem =>
      Bool.false_ne_true (hd.symm.trans (hx d hmem))
    rw [htake]
    exact .escape ((isQuoted_of_not_mem (hnot hq) (hnot rfl)).append (ih hp))
  | case7 n c s hquote hescape _ ih =>
    obtain ⟨p', hp, rfl⟩ := extend_eq_some.1 h
    exact .char hquote hescape (ih hp)

/-- What is read as the content of a template is quoted. -/
theorem isQuoted_templateEnd? {isWhole : Bool} {s p r : Text}
    (h : templateEnd? s = some (isWhole, p, r)) : IsQuoted '\x60' p := by
  fun_induction templateEnd? s generalizing p with
  | case1 => cases h
  | case2 | case3 =>
    cases h
    exact .nil
  | case4 c s ih =>
    obtain ⟨⟨b, p', r'⟩, hp, heq⟩ := Option.map_eq_some_iff.1 h
    cases heq
    exact .escape (ih hp)
  | case5 c s hquote hhole hescape ih =>
    obtain ⟨⟨b, p', r'⟩, hp, heq⟩ := Option.map_eq_some_iff.1 h
    cases heq
    cases s with
    | nil => cases hp
    | cons d s => exact .char hquote (fun h => hescape d s h rfl) (ih hp)

/-! ## Parts of code -/

/-- A word of code that is neither a literal of text nor a brace. -/
def Word.IsPlain : Word → Prop
  | .name _ _ | .privateName | .number => True
  | .sign mark => mark ≠ ['\x7b'] ∧ mark ≠ ['\x7d']
  | .stop | .bad | .string _ | .template _ _ => False

/-- What is read as such a word has pairs of quotes and braces. -/
theorem pairs_of_read {s : Text} {w : Word} (h : Word.read s = (w, [])) (hw : w.IsPlain) :
    Pairs s := by
  unfold Word.read at h
  split at h
  · exact .nil
  next c r =>
    split_ifs at h with hquote htemplate hnumber hprivate
    · split at h <;> cases h <;> cases hw
    · split at h <;> cases h <;> cases hw
    · split at h <;> cases h
      next hread => exact (skipsPairs_afterNumber? hread).pairs
      next => cases hw
    · split at h <;> cases h
      next hread =>
        subst hprivate
        exact .char (by decide) (skipsPairs_name? hread).pairs
      next => cases hw
    · split at h
      next hread =>
        cases h
        exact (skipsPairs_name? hread).pairs
      next =>
        split at h <;> cases h
        next hread => exact (skipsPairs_sign? hread hw.1 hw.2).pairs
        next => cases hw

/-- A part of code without code in it. -/
inductive Atom
  | space (c : Char)
  /-- A comment up to the end of its line, and the character that ends the line. -/
  | lineComment (content : Text) (stop : Char)
  | blockComment (content : Text)
  | word (text : Text)
  | string (quote : Char) (content : Text)
  deriving Repr, DecidableEq

namespace Atom

/-- How it is written. -/
def source : Atom → Text
  | space c => [c]
  | lineComment content stop => '/' :: '/' :: (content ++ [stop])
  | blockComment content => '/' :: '*' :: (content ++ ['*', '/'])
  | word text => text
  | string quote content => quote :: (content ++ [quote])

/-- It is read as what it is. -/
def IsWritten : Atom → Prop
  | space c => isBlankInLine c = true ∨ endsLine c = true
  | lineComment content stop => content.all (fun c => !endsLine c) = true ∧ endsLine stop = true
  | blockComment content => cut? ['*', '/'] (content ++ ['*', '/']) = some (content, [])
  | word text => ∃ w, Word.read text = (w, []) ∧ w.IsPlain
  | string quote content => Word.read (quote :: (content ++ [quote])) = (.string content, [])

/-- The quotes and braces of a comment pair. -/
def IsPlain : Atom → Prop
  | lineComment content _ | blockComment content => Pairs content
  | space _ | word _ | string _ _ => True

theorem isQuoted_of_read {q : Char} {s p r : Text} (h : Word.read (q :: s) = (.string p, r)) :
    isStringQuote q = true ∧ IsQuoted q p := by
  rw [Word.read] at h
  split_ifs at h with hquote
  · split at h <;> cases h
    next hread =>
      rcases hquote with rfl | rfl
      · exact ⟨rfl, isQuoted_stringEnd? rfl hread⟩
      · exact ⟨rfl, isQuoted_stringEnd? rfl hread⟩
  · split at h <;> cases h
  · split at h <;> cases h
  · split at h <;> cases h
  · split at h
    · cases h
    · split at h <;> cases h

/-- The quotes and braces of a part pair, if it is not a comment in which they do not. -/
theorem pairs_source {a : Atom} (ha : a.IsWritten) (hplain : a.IsPlain) : Pairs a.source := by
  cases a with
  | space c =>
    refine .char ?_ .nil
    rcases ha with hc | hc
    · exact isCodeChar_of (p := isBlankInLine) (by decide) hc
    · exact isCodeChar_of (p := endsLine) (by decide) hc
  | lineComment content stop =>
    have hstop : isCodeChar stop = true := isCodeChar_of (p := endsLine) (by decide) ha.2
    exact .char (by decide) (.char (by decide) (Pairs.append hplain (.char hstop .nil)))
  | blockComment content =>
    exact .char (by decide) (.char (by decide) (Pairs.append hplain (.of_all (by decide))))
  | word text =>
    obtain ⟨w, hread, hw⟩ := ha
    exact pairs_of_read hread hw
  | string quote content =>
    obtain ⟨hquote, hcontent⟩ := isQuoted_of_read ha
    exact .quoted hquote hcontent .nil

end Atom

mutual

/-- A part of code. -/
inductive Piece
  | atom (a : Atom)
  | template (body : Template)
  /-- Code in braces. -/
  | braces (code : List Piece)

/-- A template behind its first backquote: texts with expressions between them. -/
inductive Template
  | last (content : Text)
  | hole (content : Text) (code : List Piece) (rest : Template)

end

mutual

/-- How a part is written. -/
def Piece.source : Piece → Text
  | .atom a => a.source
  | .template body => '\x60' :: body.source
  | .braces code => '\x7b' :: (Piece.sources code ++ ['\x7d'])

/-- How code is written. -/
def Piece.sources : List Piece → Text
  | [] => []
  | piece :: code => piece.source ++ Piece.sources code

/-- How a template is written. -/
def Template.source : Template → Text
  | .last content => content ++ ['\x60']
  | .hole content code rest =>
    content ++ '$' :: '\x7b' :: (Piece.sources code ++ '\x7d' :: rest.source)

end

mutual

/-- A part whose parts are read as what they are. -/
def Piece.IsWritten : Piece → Prop
  | .atom a => a.IsWritten
  | .template body => body.IsWritten
  | .braces code => Piece.AreWritten code

/-- Code whose parts are read as what they are. -/
def Piece.AreWritten : List Piece → Prop
  | [] => True
  | piece :: code => piece.IsWritten ∧ Piece.AreWritten code

/-- A template whose texts end where they are read to end. -/
def Template.IsWritten : Template → Prop
  | .last content => templateEnd? (content ++ ['\x60']) = some (true, content, [])
  | .hole content code rest =>
    templateEnd? (content ++ ['$', '\x7b']) = some (false, content, []) ∧
      Piece.AreWritten code ∧ rest.IsWritten

end

mutual

/-- A part without comments whose quotes or braces do not pair, and without bare backquotes in the
expressions of its templates. -/
def Piece.IsPlain : Piece → Prop
  | .atom a => a.IsPlain
  | .template body => body.IsPlain
  | .braces code => Piece.ArePlain code

/-- Code of such parts. -/
def Piece.ArePlain : List Piece → Prop
  | [] => True
  | piece :: code => piece.IsPlain ∧ Piece.ArePlain code

/-- No expression of a template has a bare backquote. -/
def Template.IsPlain : Template → Prop
  | .last _ => True
  | .hole _ code rest => IsQuoted '\x60' (Piece.sources code) ∧ rest.IsPlain

end

/-- A template is quoted up to the backquote that ends it. -/
theorem Template.exists_source {body : Template} (h : body.IsWritten) (hplain : body.IsPlain) :
    ∃ content, IsQuoted '\x60' content ∧ body.source = content ++ ['\x60'] := by
  match body with
  | .last content => exact ⟨content, isQuoted_templateEnd? h, rfl⟩
  | .hole content code rest =>
    obtain ⟨back, hback, hsource⟩ := Template.exists_source h.2.2 hplain.2
    have hexpr : IsQuoted '\x60' ('$' :: '\x7b' :: (Piece.sources code ++ '\x7d' :: back)) :=
      .char (by decide) (by decide) (.char (by decide) (by decide)
        (hplain.1.append (.char (by decide) (by decide) hback)))
    refine ⟨_, (isQuoted_templateEnd? h.1).append hexpr, ?_⟩
    rw [source, hsource]
    simp

mutual

theorem Piece.pairs_source {piece : Piece} (h : piece.IsWritten) (hplain : piece.IsPlain) :
    Pairs piece.source :=
  match piece with
  | .atom _ => Atom.pairs_source h hplain
  | .template _ => by
    obtain ⟨content, hcontent, hsource⟩ := Template.exists_source h hplain
    rw [source, hsource]
    exact .quoted rfl hcontent .nil
  | .braces _ => .braces (Piece.pairs_sources h hplain) .nil

/-- The quotes and braces of plain code pair. -/
theorem Piece.pairs_sources {code : List Piece} (h : Piece.AreWritten code)
    (hplain : Piece.ArePlain code) : Pairs (Piece.sources code) :=
  match code with
  | [] => .nil
  | _ :: _ => (Piece.pairs_source h.1 hplain.1).append (Piece.pairs_sources h.2 hplain.2)

end

/-- **Where the braces around code are closed**: a brace behind the code closes the one in front of
it, whatever follows, exactly if the quotes and braces of the code's text pair; and they do if those
of each of its comments pair and no template has a bare backquote within an expression. -/
theorem closes_sources_iff {code : List Piece} (h : Piece.AreWritten code) :
    ((∀ rest, closeBraces? (Piece.sources code ++ '\x7d' :: rest) =
        some (Piece.sources code ++ ['\x7d'], rest)) ↔ Pairs (Piece.sources code)) ∧
      (Piece.ArePlain code → ∀ rest, closeBraces? (Piece.sources code ++ '\x7d' :: rest) =
        some (Piece.sources code ++ ['\x7d'], rest)) :=
  ⟨closes_iff_pairs, fun hplain => closes_iff_pairs.2 (Piece.pairs_sources h hplain)⟩

/-- A call with a string that holds a brace, a comment and a template with code in braces. -/
def call : List Piece :=
  [.atom (.word ['f']), .atom (.word ['(']),
    .braces [.atom (.word ['a']), .atom (.word [':']), .atom (.string '"' ['\x7d', '\\', '"'])],
    .atom (.blockComment ['o', 'k']), .atom (.word [',']),
    .template (.hole ['#'] [.braces [.atom (.word ['b'])]] (.last ['\''])), .atom (.word [')']),
    .atom (.lineComment ['.'] '\n')]

theorem closes_sources_iff_call :
    Piece.AreWritten call ∧ Piece.ArePlain call ∧
      ∀ rest, closeBraces? (Piece.sources call ++ '\x7d' :: rest) =
        some (Piece.sources call ++ ['\x7d'], rest) := by
  have hword {s : Text} {w : Word} (h : Word.read s = (w, [])) (hw : w.IsPlain) :
      (Atom.word s).IsWritten := ⟨w, h, hw⟩
  have hwritten : Piece.AreWritten call := by
    have hinner : Piece.AreWritten [.atom (.word ['a']), .atom (.word [':']),
        .atom (.string '"' ['\x7d', '\\', '"'])] :=
      ⟨hword rfl trivial, hword rfl ⟨by decide, by decide⟩, rfl, trivial⟩
    have htemplate : Template.IsWritten
        (.hole ['#'] [.braces [.atom (.word ['b'])]] (.last ['\''])) :=
      ⟨rfl, ⟨⟨hword rfl trivial, trivial⟩, trivial⟩, rfl⟩
    exact ⟨hword rfl trivial, hword rfl ⟨by decide, by decide⟩, hinner, rfl,
      hword rfl ⟨by decide, by decide⟩, htemplate, hword rfl ⟨by decide, by decide⟩, ⟨rfl, rfl⟩,
      trivial⟩
  have hplain : Piece.ArePlain call := by
    have hcode : IsQuoted '\x60' (Piece.sources [.braces [.atom (.word ['b'])]]) :=
      isQuoted_of_not_mem (by decide) (by decide)
    exact ⟨trivial, trivial, ⟨trivial, trivial, trivial, trivial⟩, .of_all (by decide), trivial,
      ⟨hcode, trivial⟩, trivial, .of_all (by decide), trivial⟩
  exact ⟨hwritten, hplain, (closes_sources_iff hwritten).2 hplain⟩

/-- A template with a brace, in an expression of another template. -/
def nestedTemplate : List Piece := [.template (.hole [] [.template (.last ['\x7d'])] (.last []))]

/-- The brace within the inner template is taken for the closing one. -/
theorem not_closes_sources :
    ¬ ∀ code, Piece.AreWritten code → ∀ rest,
      closeBraces? (Piece.sources code ++ '\x7d' :: rest) =
        some (Piece.sources code ++ ['\x7d'], rest) := by
  intro h
  have hwritten : Piece.AreWritten nestedTemplate := ⟨⟨rfl, ⟨rfl, trivial⟩, rfl⟩, trivial⟩
  have hclosed := h nestedTemplate hwritten []
  revert hclosed
  decide

end Script

end MarkupSync
