import Mathlib.Data.List.Infix
import MarkupSync.Proofs.Text.Range
import MarkupSync.Script.Word

/-!
# Words stand in their script

What a reader of words leaves is a rest of the text it was given.

* `skipFrom_spec`, **`isSuffix_read`**: what is behind white space and behind a word;
* `unicodeEscape?_spec`: the characters of a character escape;
* `skipsNumber_afterNumber?`: the characters of a number;
* `Cursor.StandsIn`: the words and the bytes of a place are those of a source;
* `Cursor.standsIn_ofText`, `Cursor.StandsIn.next`, `Cursor.StandsIn.skip`: the places that are
  reached from another;
* `Cursor.standsIn_ofModule`: the start of a module.
-/

namespace MarkupSync.Script

open Text

variable {s r : Text}

/-! ## White space -/

/-- White space and comments stand in front of what is left, and all their bytes are counted. -/
theorem skipFrom_spec {newline : Bool} {bytes : Nat} {gap : Gap}
    (h : skipFrom newline bytes s = some gap) :
    ∃ x, s = x ++ gap.rest ∧ gap.bytes = bytes + width x := by
  fun_induction skipFrom newline bytes s with
  | case1 | case7 =>
    cases h
    exact ⟨[], rfl, rfl⟩
  | case2 newline bytes r comment ih =>
    obtain ⟨x, hx, hbytes⟩ := ih h
    refine ⟨'/' :: '/' :: (comment ++ x), ?_, ?_⟩
    · simp only [List.cons_append, List.append_assoc, ← hx, comment]
      rw [List.takeWhile_append_dropWhile]
    · have hslash : '/'.utf8Size = 1 := rfl
      simp only [hbytes, width_cons, width_append, hslash]
      omega
  | case3 => cases h
  | case4 newline bytes r comment r' hcut ih =>
    obtain ⟨x, hx, hbytes⟩ := ih h
    refine ⟨'/' :: '*' :: (comment ++ '*' :: '/' :: x), ?_, ?_⟩
    · rw [eq_of_cut?_eq_some hcut, hx]
      simp
    · have hslash : '/'.utf8Size = 1 := rfl
      have hstar : '*'.utf8Size = 1 := rfl
      simp only [hbytes, width_cons, width_append, hslash, hstar]
      omega
  | case5 newline bytes c r _ _ hc ih =>
    obtain ⟨x, rfl, hbytes⟩ := ih h
    exact ⟨c :: x, rfl, by rw [hbytes, width_cons, Nat.add_assoc]⟩
  | case6 newline bytes c r _ _ hc _ ih =>
    obtain ⟨x, rfl, hbytes⟩ := ih h
    exact ⟨c :: x, rfl, by rw [hbytes, width_cons, Nat.add_assoc]⟩

/-! ## Words -/

/-- A character escape is the digits of a number, with or without braces around them. -/
theorem unicodeEscape?_spec {c : Char} (h : unicodeEscape? s = some (c, r)) :
    ∃ digits n, readDigits 16 0 digits = some n ∧
      (s = digits ++ r ∨ s = '\x7b' :: (digits ++ '\x7d' :: r)) := by
  unfold unicodeEscape? at h
  split at h
  · split at h
    · cases h
    next digits r' hcut =>
      split at h
      · cases h
      · obtain ⟨d, hd, heq⟩ := Option.map_eq_some_iff.1 h
        obtain ⟨n, hn, -⟩ := Option.bind_eq_some_iff.1 hd
        cases heq
        exact ⟨digits, n, hn, .inr (by rw [eq_of_cut?_eq_some hcut, List.append_assoc]; rfl)⟩
  · obtain ⟨d, hd, heq⟩ := Option.map_eq_some_iff.1 h
    obtain ⟨n, hn, -⟩ := Option.bind_eq_some_iff.1 hd
    cases heq
    exact ⟨_, n, hn, .inl rfl⟩
  · cases h

theorem isSuffix_unicodeEscape? {c : Char} (h : unicodeEscape? s = some (c, r)) : r <:+ s := by
  obtain ⟨digits, -, -, rfl | rfl⟩ := unicodeEscape?_spec h
  · exact List.suffix_append digits r
  · exact ⟨'\x7b' :: (digits ++ ['\x7d']), by simp⟩

theorem isSuffix_nameFrom (n : Nat) (s : Text) : (nameFrom n s).2.2 <:+ s := by
  fun_induction nameFrom n s with
  | case3 n c s hc name escaped r hr ih =>
    rw [hr] at ih
    exact ih.trans (List.suffix_cons _ _)
  | case4 n t d r hescape name escaped r' hr _ ih =>
    rw [hr] at ih
    exact ih.trans ((isSuffix_unicodeEscape? hescape).trans ⟨['\\', 'u'], rfl⟩)
  | _ => exact List.suffix_rfl

theorem isSuffix_name? {text : Text} {escaped : Bool} (h : name? s = some (text, escaped, r)) :
    r <:+ s := by
  unfold name? at h
  split at h
  next c t =>
    split at h
    · split at h
      · cases h
      next =>
        have hsuffix := isSuffix_nameFrom (c :: t).length (c :: t)
        rw [Option.some.inj h] at hsuffix
        exact hsuffix
    · cases h
  next => cases h

/-- The characters of numbers. -/
def isNumberChar (c : Char) : Bool := c.isAlphanum || c == '_' || c == '.' || c == '+' || c == '-'

/-- The text `s` goes on with `r` behind characters of numbers. -/
def SkipsNumber (s r : Text) : Prop := ∃ x, x.all isNumberChar = true ∧ s = x ++ r

theorem SkipsNumber.refl (s : Text) : SkipsNumber s s := ⟨[], rfl, rfl⟩

theorem SkipsNumber.cons {c : Char} (hc : isNumberChar c = true) (h : SkipsNumber s r) :
    SkipsNumber (c :: s) r := by
  obtain ⟨x, hx, rfl⟩ := h
  exact ⟨c :: x, by rw [List.all_cons, hc, hx]; rfl, rfl⟩

theorem SkipsNumber.trans {t : Text} (h : SkipsNumber s r) (h' : SkipsNumber r t) :
    SkipsNumber s t := by
  obtain ⟨x, hx, rfl⟩ := h
  obtain ⟨y, hy, rfl⟩ := h'
  exact ⟨x ++ y, by rw [List.all_append, hx, hy]; rfl, (List.append_assoc ..).symm⟩

theorem SkipsNumber.isSuffix (h : SkipsNumber s r) : r <:+ s := by
  obtain ⟨x, -, rfl⟩ := h
  exact ⟨x, rfl⟩

theorem isAlphanum_of_digitValue {b : Nat} {c : Char} (h : (digitValue b c).isSome = true) :
    c.isAlphanum = true := by
  by_contra hc
  simp only [Char.isAlphanum, Char.isDigit, isAlpha_iff, isUpper_iff, isLower_iff, Bool.or_eq_true,
    Bool.and_eq_true, decide_eq_true_eq, not_or] at hc
  obtain ⟨⟨hupper, hlower⟩, hdigit⟩ := hc
  have hdigit : ¬ ('0' ≤ c ∧ c ≤ '9') := hdigit
  have hlower : ¬ ('a' ≤ c ∧ c ≤ 'z') := hlower
  have hupper : ¬ ('A' ≤ c ∧ c ≤ 'Z') := hupper
  simp [digitValue, hdigit, hlower, hupper] at h

theorem isNumberChar_of_digitValue {b : Nat} {c : Char} (h : (digitValue b c).isSome = true) :
    isNumberChar c = true := by
  simp [isNumberChar, isAlphanum_of_digitValue h]

theorem skipsNumber_dropDigits (b : Nat) (s : Text) : SkipsNumber s (dropDigits b s) := by
  fun_induction dropDigits b s with
  | case2 c s hc ih => exact .cons rfl (.cons (isNumberChar_of_digitValue hc) ih)
  | case4 c s _ hc ih => exact .cons (isNumberChar_of_digitValue hc) ih
  | _ => exact .refl _

theorem skipsNumber_dropExponent? (h : dropExponent? s = some r) : SkipsNumber s r := by
  unfold dropExponent? at h
  split at h
  next c s =>
    split at h
    next hc =>
      extract_lets t at h
      have ht : SkipsNumber s t := by
        unfold t
        split
        · exact .cons rfl (.refl _)
        · exact .cons rfl (.refl _)
        · exact .refl _
      clear_value t
      split at h
      next d u =>
        split at h
        · cases h
          refine .cons ?_ (ht.trans (skipsNumber_dropDigits 10 _))
          rcases hc with rfl | rfl <;> rfl
        · cases h
      next => cases h
    next =>
      cases h
      exact .refl _
  next =>
    cases h
    exact .refl _

theorem skipsNumber_afterDigits? {b : Nat} (h : afterDigits? b s = some r) : SkipsNumber s r := by
  unfold afterDigits? at h
  split at h
  · split at h
    · cases h
      have hbig (t : Text) : SkipsNumber t (dropBig t) := by
        unfold dropBig
        split
        · exact .cons rfl (.refl _)
        · exact .refl _
      exact (skipsNumber_dropDigits b _).trans (hbig _)
    · cases h
  · cases h

/-- In front of what is behind a number are characters of numbers. -/
theorem skipsNumber_afterNumber? (h : afterNumber? s = some r) : SkipsNumber s r := by
  unfold afterNumber? at h
  extract_lets found at h
  have hfound : found = some r := (Option.filter_eq_some_iff.1 h).1
  have hbased {a b : Char} {base : Nat} {t : Text} (ha : isNumberChar a = true)
      (hb : isNumberChar b = true) (h : afterDigits? base t = some r) : SkipsNumber (a :: b :: t) r :=
    .cons ha (.cons hb (skipsNumber_afterDigits? h))
  clear h
  unfold found at hfound
  split at hfound
  · exact hbased rfl rfl hfound
  · exact hbased rfl rfl hfound
  · exact hbased rfl rfl hfound
  · exact hbased rfl rfl hfound
  · exact hbased rfl rfl hfound
  · exact hbased rfl rfl hfound
  · exact .cons rfl ((skipsNumber_dropDigits 10 _).trans (skipsNumber_dropExponent? hfound))
  · have hdigits := skipsNumber_dropDigits 10 s
    split at hfound
    next t ht =>
      cases hfound
      rw [ht] at hdigits
      exact hdigits.trans (.cons rfl (.refl _))
    next t ht =>
      rw [ht] at hdigits
      refine hdigits.trans (.cons rfl ?_)
      split at hfound
      next d u =>
        refine SkipsNumber.trans ?_ (skipsNumber_dropExponent? hfound)
        split
        · exact skipsNumber_dropDigits 10 _
        · exact .refl _
      next =>
        cases hfound
        exact .refl _
    next => exact hdigits.trans (skipsNumber_dropExponent? hfound)

theorem isSuffix_afterEscape? (h : afterEscape? s = some r) : r <:+ s := by
  unfold afterEscape? at h
  split at h
  · cases h
  · split at h
    · cases h
      exact ⟨[_, _, _], rfl⟩
    · cases h
  · cases h
  · obtain ⟨⟨c, r'⟩, hescape, rfl⟩ := Option.map_eq_some_iff.1 h
    exact (isSuffix_unicodeEscape? hescape).trans (List.suffix_cons _ _)
  · cases h
    exact ⟨[_, _], rfl⟩
  · cases h
    exact List.suffix_cons _ _

theorem isSuffix_stringEnd? {quote : Char} {n : Nat} {p : Text}
    (h : stringEnd? quote n s = some (p, r)) : r <:+ s := by
  fun_induction stringEnd? quote n s generalizing p with
  | case1 | case2 | case4 | case6 => cases h
  | case3 =>
    cases h
    exact List.suffix_cons _ _
  | case5 n s t hescape _ ih =>
    obtain ⟨p', hp, -⟩ := extend_eq_some.1 h
    exact (ih hp).trans ((isSuffix_afterEscape? hescape).trans (List.suffix_cons _ _))
  | case7 n c s _ _ _ ih =>
    obtain ⟨p', hp, -⟩ := extend_eq_some.1 h
    exact (ih hp).trans (List.suffix_cons _ _)

theorem isSuffix_templateEnd? {isWhole : Bool} {p : Text}
    (h : templateEnd? s = some (isWhole, p, r)) : r <:+ s := by
  fun_induction templateEnd? s generalizing p with
  | case1 => cases h
  | case2 =>
    cases h
    exact List.suffix_cons _ _
  | case3 =>
    cases h
    exact ⟨[_, _], rfl⟩
  | case4 c s ih =>
    obtain ⟨⟨b, p', r'⟩, hp, heq⟩ := Option.map_eq_some_iff.1 h
    cases heq
    exact (ih hp).trans ⟨[_, _], rfl⟩
  | case5 c s _ _ _ ih =>
    obtain ⟨⟨b, p', r'⟩, hp, heq⟩ := Option.map_eq_some_iff.1 h
    cases heq
    exact (ih hp).trans (List.suffix_cons _ _)

theorem isSuffix_sign? {mark : Text} (h : sign? s = some (mark, r)) : r <:+ s := by
  unfold sign? at h
  split at h
  · cases h
  next c t =>
    split at h
    · cases h
      exact (List.drop_suffix _ _).trans (List.suffix_cons _ _)
    · split at h
      · cases h
        exact List.drop_suffix _ _
      · split at h
        · cases h
          exact List.suffix_cons _ _
        · cases h

/-- **What is behind a word is a rest of the text.** -/
theorem isSuffix_read (s : Text) : (Word.read s).2 <:+ s := by
  unfold Word.read
  split
  · exact List.suffix_rfl
  next c t =>
    have hbad : t <:+ c :: t := List.suffix_cons _ _
    split_ifs
    · split
      next h => exact (isSuffix_stringEnd? h).trans hbad
      · exact hbad
    · split
      next h => exact (isSuffix_templateEnd? h).trans hbad
      · exact hbad
    · split
      next h => exact (skipsNumber_afterNumber? h).isSuffix
      · exact hbad
    · split
      next h => exact (isSuffix_name? h).trans hbad
      · exact hbad
    · split
      next h => exact isSuffix_name? h
      · split
        next h => exact isSuffix_sign? h
        · exact hbad

/-! ## Places -/

namespace Cursor

/-- The texts at a place are the rests of the source from its bytes on. -/
structure StandsIn (source : Text) (c : Cursor) : Prop where
  behind : source.Holds ⟨c.behindAt, width source⟩ c.behind
  text : source.Holds ⟨c.start, width source⟩ c.text
  rest : source.Holds ⟨c.stop, width source⟩ c.rest

variable {source : Text} {c : Cursor} {n : Nat}

theorem standsIn_ofText (h : source.Holds ⟨n, width source⟩ s) : (ofText n s).StandsIn source := by
  unfold ofText
  split
  next hgap =>
    refine ⟨h, h, ?_⟩
    rw [← List.append_nil s] at h
    exact h.right
  next gap hgap =>
    obtain ⟨x, hx, hbytes⟩ := skipFrom_spec hgap
    rw [Nat.zero_add] at hbytes
    have htext : source.Holds ⟨n + gap.bytes, width source⟩ gap.rest := by
      rw [hbytes]
      exact (hx ▸ h).right
    obtain ⟨word, hword⟩ := isSuffix_read gap.rest
    refine ⟨h, htext, ?_⟩
    have htake {x r s : Text} (h : x ++ r = s) : s.take (s.length - r.length) = x := by
      subst h
      simp
    show source.Holds ⟨_ + width (gap.rest.take _), _⟩ (Word.read gap.rest).2
    rw [htake hword]
    rw [← hword] at htext
    exact htext.right

theorem StandsIn.next (h : c.StandsIn source) : c.next.StandsIn source := standsIn_ofText h.rest

theorem StandsIn.skip (h : c.StandsIn source) (n : Nat) : (c.skip n).StandsIn source := by
  refine standsIn_ofText (Holds.right (t := c.text.take n) ?_)
  rw [List.take_append_drop]
  exact h.text

/-- The start of a module. -/
theorem standsIn_ofModule (s : Text) : (ofModule s).StandsIn s := by
  unfold ofModule
  split
  next r =>
    have hline : Holds ('#' :: '!' :: r) ⟨0, width ('#' :: '!' :: r)⟩
        (['#', '!'] ++ (r.takeWhile (fun c => !endsLine c) ++ r.dropWhile fun c => !endsLine c)) := by
      rw [List.takeWhile_append_dropWhile]
      exact .self _
    exact standsIn_ofText hline.right.right
  next => exact standsIn_ofText (.self s)

end Cursor

end MarkupSync.Script
