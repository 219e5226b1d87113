import Mathlib.Data.List.Forall2
import MarkupSync.Proofs.Lexeme.Close
import MarkupSync.Proofs.Lexeme.Inset
import MarkupSync.Proofs.Text.Reflow

/-!
# Tags with other blanks at line breaks

A tag is read the same if the blanks at its line breaks change; only its values and its raw content
can change.

* `ContentHead.Reflow`, **`angleHead_reflow`**: what an open angle opens;
* `TagHead.Reflow`, `tagHead?_reflow`: the pieces of a tag;
* `RawAttribute.Reflow`, **`tagBody_reflow`**: its attributes;
* `rawContent?_reflow`: content that is kept as written;
* `OpenTag.Reflow`, **`openTag_reflow`**: a tag with its content.
-/

namespace MarkupSync

open Text

variable {a b s t : Text}

/-! ## Open angles -/

/-- What stands at the start of content and is no text, with other blanks. -/
inductive ContentHead.Reflow (a b : Text) : ContentHead → ContentHead → Prop
  | skipped {p p' r r' : Text} (h : Text.Reflow a b r r') :
    Reflow a b (.skipped p r) (.skipped p' r')
  | openTag {name p p' r r' : Text} (h : Text.Reflow a b r r') :
    Reflow a b (.openTag name p r) (.openTag name p' r')
  | closeTag {name p p' r r' : Text} (h : Text.Reflow a b r r') :
    Reflow a b (.closeTag name p r) (.closeTag name p' r')
  | fragmentOpen {p p' r r' : Text} (h : Text.Reflow a b r r') :
    Reflow a b (.fragmentOpen p r) (.fragmentOpen p' r')
  | fragmentClose {p p' r r' : Text} (h : Text.Reflow a b r r') :
    Reflow a b (.fragmentClose p r) (.fragmentClose p' r')

theorem isSoft_of_head? (h : ∀ c ∈ s.head?, isBlank c = true) : IsSoft s := by
  cases s with
  | nil => trivial
  | cons c s => exact .inr (.inr (h c rfl))

theorem not_isNameChar_of_isBlank {c : Char} (h : isBlank c = true) : isNameChar c = false := by
  by_contra hc
  rw [not_isBlank_of_isNameChar (by simpa using hc)] at h
  cases h

theorem not_isBlank_of_isNameStart {c : Char} (h : isNameStart c = true) : isBlank c = false :=
  not_isBlank_of_isNameChar (by simp_all [isNameStart, isNameChar, Char.isAlphanum])

theorem not_isBlank_of_declaration {c : Char} (h : (c.isAlpha || c == '[') = true) :
    isBlank c = false := by
  obtain hc | hc := Bool.or_eq_true_iff.1 h
  · exact not_isBlank_of_isNameStart hc
  · rw [beq_iff_eq.1 hc]
    decide

section Angle

variable (ha : IsBlankText a)
include ha

/-- Blanks in front of the end of a close tag. -/
theorem exists_dropWhile_isCloseBlank {r : Text} (h : Text.Reflow a b s t)
    (hs : s.dropWhile isCloseBlank = '>' :: r) :
    ∃ r', t.dropWhile isCloseBlank = '>' :: r' ∧ Text.Reflow a b r r' := by
  induction h with
  | stop =>
    have hmem : '>' ∈ a := (List.dropWhile_suffix isCloseBlank).subset (hs ▸ List.mem_cons_self)
    exact absurd (ha _ hmem) (by decide)
  | @char c s t h ih =>
    cases hc : isCloseBlank c with
    | true =>
      rw [List.dropWhile_cons_of_pos hc] at hs ⊢
      exact ih hs
    | false =>
      rw [List.dropWhile_cons_of_neg (by simp [hc])] at hs ⊢
      cases hs
      exact ⟨t, rfl, h⟩
  | @blanks x y s t hx hy hclose h ih =>
    rw [List.dropWhile_append_of_pos (List.all_eq_true.1 hclose)]
    refine ih ?_
    have hrest : (x.dropWhile isCloseBlank) = [] := by
      by_contra hne
      obtain ⟨d, u, hd⟩ := List.exists_cons_of_ne_nil hne
      have hmem : d ∈ x := (List.dropWhile_suffix isCloseBlank).subset (hd ▸ List.mem_cons_self)
      have hfirst : (x ++ s).dropWhile isCloseBlank = d :: (u ++ s) := by
        rw [List.dropWhile_append, hd]
        rfl
      cases hs.symm.trans hfirst
      exact absurd (hx.blank _ hmem) (by decide)
    rwa [List.dropWhile_append_of_pos] at hs
    exact List.dropWhile_eq_nil_iff.1 hrest

variable (hb : IsBlankText b)
include hb

/-- An angle opens nothing if it opened nothing. -/
theorem opensNothing_reflow (h : Text.Reflow a b s t) : opensNothing t = opensNothing s := by
  obtain ⟨w, u, v, rfl, rfl, -, hu, hv, -⟩ := h.exists_word ha hb
  have heq {x : Text} (hx : ∀ c ∈ x.head?, isBlank c = true) :
      opensNothing (w ++ x) = opensNothing w := by
    rw [Bool.eq_iff_iff]
    exact ⟨opensNothing_of_append, fun h => opensNothing_append h (isSoft_of_head? hx)⟩
  rw [heq hu, heq hv]

theorem skipTo_reflow {c : Char} {w start start' : Text} (hw : ∀ d ∈ c :: w, isBlank d = false)
    (h : Text.Reflow a b s t) {k : ContentHead} (hk : skipTo (c :: w) start s = .ok k) :
    ∃ k', skipTo (c :: w) start' t = .ok k' ∧ k.Reflow a b k' := by
  rw [skipTo] at hk ⊢
  split at hk
  next p r hcut =>
    cases hk
    obtain ⟨p', r', hcut', -, hr⟩ := h.exists_cut? ha hb hw hcut
    rw [hcut']
    exact ⟨_, rfl, .skipped hr⟩
  next => cases hk

theorem closeHead_reflow (h : Text.Reflow a b s t) {k : ContentHead} (hk : closeHead s = .ok k) :
    ∃ k', closeHead t = .ok k' ∧ k.Reflow a b k' := by
  obtain ⟨hname, hrest⟩ := h.takeWhile (fun _ => not_isNameChar_of_isBlank) ha hb
  simp only [closeHead, hname] at hk ⊢
  split at hk
  next r hr =>
    cases hk
    obtain ⟨r', hr', hreflow⟩ := exists_dropWhile_isCloseBlank ha hrest hr
    rw [hr']
    exact ⟨_, rfl, .closeTag hreflow⟩
  next => cases hk

/-- **What an angle opens.** -/
theorem angleHead_reflow (h : Text.Reflow a b s t) {k : ContentHead} (hk : angleHead s = .ok k)
    (hopen : opensNothing s = false) : ∃ k', angleHead t = .ok k' ∧ k.Reflow a b k' := by
  -- the characters that tell what is opened are not blank, and stay
  have hword {w s : Text} (h : Text.Reflow a b (w ++ s) t) (hw : ∀ c ∈ w, isBlank c = false) :
      ∃ u, t = w ++ u ∧ Text.Reflow a b s u := h.exists_append ha hw
  have hplain : ¬ ∃ p r, k = .plain p r := by
    rintro ⟨p, r, rfl⟩
    rw [(opensNothing_of_angleHead hk).1] at hopen
    cases hopen
  revert hk
  fun_cases angleHead s with
  | case1 s p r hcut =>
    rintro ⟨⟩
    obtain ⟨t, rfl, hst⟩ := hword (w := ['!', '-', '-']) h (by simp [isBlank])
    obtain ⟨p', r', hcut', -, hr⟩ := hst.exists_cut? ha hb (by simp [isBlank]) hcut
    refine ⟨.skipped (['<', '!', '-', '-'] ++ p' ++ ['-', '-', '>']) r', ?_, .skipped hr⟩
    simp only [List.cons_append, List.nil_append, angleHead, hcut']
  | case2 => rintro ⟨⟩
  | case3 c s hne hc =>
    intro hk
    obtain ⟨t, rfl, hst⟩ := hword (w := ['!', c]) h (by
      simpa using ⟨by decide, not_isBlank_of_declaration hc⟩)
    rw [List.cons_append, List.cons_append, angleHead, if_pos hc]
    · exact skipTo_reflow ha hb (by simp [isBlank]) hst hk
    · rintro u rfl
      simp at hc
  | case5 s =>
    intro hk
    obtain ⟨t, rfl, hst⟩ := hword (w := ['?']) h (by simp [isBlank])
    exact skipTo_reflow ha hb (by simp [isBlank]) hst hk
  | case6 s =>
    rintro ⟨⟩
    obtain ⟨t, rfl, hst⟩ := hword (w := ['/', '>']) h (by simp [isBlank])
    exact ⟨_, rfl, .fragmentClose hst⟩
  | case7 c s hne hc =>
    intro hk
    obtain ⟨u, rfl, hst⟩ := hword (w := ['/']) h (by simp [isBlank])
    obtain ⟨t, rfl, -⟩ := hst.exists_append ha (w := [c])
      (by simpa using not_isBlank_of_isNameStart hc)
    obtain ⟨k', hk', hreflow⟩ := closeHead_reflow ha hb hst hk
    refine ⟨k', ?_, hreflow⟩
    rw [List.cons_append, List.nil_append, List.cons_append, List.nil_append, angleHead, if_pos hc]
    · exact hk'
    · exact hne
  | case9 s =>
    rintro ⟨⟩
    obtain ⟨t, rfl, hst⟩ := hword (w := ['>']) h (by simp [isBlank])
    exact ⟨_, rfl, .fragmentOpen hst⟩
  | case10 c s h1 h2 h3 h4 h5 h6 hc =>
    rintro ⟨⟩
    obtain ⟨t, rfl, hst⟩ := hword (w := [c]) h (by simpa using not_isBlank_of_isNameStart hc)
    obtain ⟨htake, hdrop⟩ := hst.takeWhile (fun _ => not_isNameChar_of_isBlank) ha hb
    rw [List.cons_append, List.nil_append, angleHead, if_pos hc, htake]
    · exact ⟨_, rfl, .openTag hdrop⟩
    -- a letter is none of the signs that open something else
    all_goals
      intros
      subst_vars
      exact absurd hc (by decide)
  | _ =>
    rintro ⟨⟩
    exact absurd ⟨_, _, rfl⟩ hplain

end Angle

/-! ## Pieces of tags -/

/-- A piece of a tag, with other blanks in its value and behind it. -/
inductive TagHead.Reflow (a b : Text) : TagHead → TagHead → Prop
  | close (selfClosing : Bool) (p : Text) {r r' : Text} (h : Text.Reflow a b r r') :
    Reflow a b (.close selfClosing p r) (.close selfClosing p r')
  | equals (p : Text) {r r' : Text} (h : Text.Reflow a b r r') :
    Reflow a b (.equals p r) (.equals p r')
  | slash (p : Text) {r r' : Text} (h : Text.Reflow a b r r') :
    Reflow a b (.slash p r) (.slash p r')
  | value {q : Quoting} {content content' p p' r r' : Text} (hbare : q = .bare → p' = p)
    (hbraces : q ≠ .braces) (hcontent : Text.Reflow [] [] content content')
    (h : Text.Reflow a b r r') : Reflow a b (.value q content p r) (.value q content' p' r')

section Tag

variable (ha : IsBlankText a) (hb : IsBlankText b)
include ha hb

theorem quotedHead?_reflow {q : Quoting} (hbare : q ≠ .bare) (hbraces : q ≠ .braces) {c : Char}
    (hc : isBlank c = false) (h : Text.Reflow a b s t) {k : TagHead}
    (hk : quotedHead? q c s = some k) : ∃ k', quotedHead? q c t = some k' ∧ k.Reflow a b k' := by
  obtain ⟨⟨content, r⟩, hcut, rfl⟩ := Option.map_eq_some_iff.1 hk
  obtain ⟨content', r', hcut', hcontent, hr⟩ :=
    h.exists_cut? ha hb (w := []) (by simpa using hc) hcut
  rw [quotedHead?, hcut']
  exact ⟨_, rfl, .value (absurd · hbare) hbraces hcontent hr⟩

/-- What stands next in a tag, if it is not blank. -/
theorem tagHead?_reflow {c : Char} (hc : isBlank c = false) (h : Text.Reflow a b s t) {k : TagHead}
    (hk : tagHead? .html (c :: s) = some k) :
    ∃ k', tagHead? .html (c :: t) = some k' ∧ k.Reflow a b k' := by
  generalize hu : c :: s = u at hk
  generalize hhtml : Flavor.html = flavor at hk ⊢
  revert hk
  fun_cases tagHead? flavor u with
  | case1 | case9 | case12 => rintro ⟨⟩
  | case10 => cases hhtml
  | case2 s =>
    rintro ⟨⟩
    cases hu
    exact ⟨_, rfl, .close false ['>'] h⟩
  | case3 s =>
    rintro ⟨⟩
    cases hu
    obtain ⟨u, rfl, hrest⟩ := h.exists_cons ha (by decide)
    exact ⟨_, rfl, .close true ['/', '>'] hrest⟩
  | case4 _ s hne =>
    rintro ⟨⟩
    cases hu
    have hs : s.head? ≠ some '>' := fun hs => by
      obtain ⟨r, rfl⟩ := List.head?_eq_some_iff.1 hs
      exact hne r rfl
    exact ⟨_, tagHead?_slash (mt (h.head?_eq_some_iff ha hb (by decide)).1 hs), .slash ['/'] h⟩
  | case5 s =>
    rintro ⟨⟩
    cases hu
    exact ⟨_, rfl, .equals ['='] h⟩
  | case6 | case7 =>
    intro hk
    cases hu
    exact quotedHead?_reflow ha hb (by decide) (by decide) hc h hk
  | case8 _ c s _ _ _ _ _ _ hblank =>
    cases hu
    rw [hblank] at hc
    cases hc
  | case11 _ c s _ _ _ _ _ _ _ _ hword =>
    rintro ⟨⟩
    cases hu
    obtain ⟨htake, hdrop⟩ := h.takeWhile (fun _ => isWordChar_of_isBlank) ha hb
    have hall : (c :: s.takeWhile isWordChar).all isWordChar = true := by
      rw [List.all_cons, hword, List.all_takeWhile]
      rfl
    have hsplit : c :: t = c :: s.takeWhile isWordChar ++ t.dropWhile isWordChar := by
      rw [← htake, List.cons_append, List.takeWhile_append_dropWhile]
    have hbraces : Quoting.bare ≠ .braces := by decide
    rw [hsplit]
    exact ⟨_, tagHead?_word (List.cons_ne_nil _ _) hall (head?_dropWhile isWordChar t),
      .value (fun _ => rfl) hbraces (.refl _) hdrop⟩

end Tag

/-! ## Attributes -/

/-- A value with other blanks. -/
structure RawValue.Reflow (v v' : RawValue) : Prop where
  quoting : v'.quoting = v.quoting
  text : Text.Reflow [] [] v.text v'.text

/-- An attribute with other blanks in its value. -/
structure RawAttribute.Reflow (x x' : RawAttribute) : Prop where
  name : x'.name = x.name
  value : Option.Rel RawValue.Reflow x.value x'.value

/-- The same is left open, elsewhere. -/
inductive Waiting.Reflow : Waiting → Waiting → Prop
  | nothing : Reflow .nothing .nothing
  | value (name : Text) (span span' : Span) : Reflow (.value name span) (.value name span')
  | valueAfterEquals (name : Text) (span span' : Span) :
    Reflow (.valueAfterEquals name span) (.valueAfterEquals name span')

namespace Waiting

variable {w w' w₁ : Waiting}

theorem Reflow.valueless (h : w.Reflow w') :
    List.Forall₂ RawAttribute.Reflow w.valueless w'.valueless := by
  cases h with
  | nothing => exact .nil
  | value | valueAfterEquals => exact .cons ⟨rfl, .none⟩ .nil

theorem Reflow.take {q : Quoting} {content content' piece piece' : Text} {n n' : Nat}
    {done : List RawAttribute} (hbare : q = .bare → piece' = piece) (hbraces : q ≠ .braces)
    (hcontent : Text.Reflow [] [] content content') (hw : w.Reflow w')
    (h : w.take q content piece n = .ok (done, w₁)) :
    ∃ done' w₁', w'.take q content' piece' n' = .ok (done', w₁') ∧
      List.Forall₂ RawAttribute.Reflow done done' ∧ w₁.Reflow w₁' := by
  have hless := hw.valueless
  cases hw with
  | valueAfterEquals name span span' =>
    cases h
    exact ⟨_, _, rfl, .cons ⟨rfl, .some ⟨rfl, hcontent⟩⟩ .nil, .nothing⟩
  | nothing | value name span span' =>
    cases q with
    | bare =>
      cases h
      rw [hbare rfl]
      exact ⟨_, _, rfl, hless, .value ..⟩
    | braces => exact absurd rfl hbraces
    | double | single => cases h

end Waiting

/-- A tag behind its name, with other blanks. -/
structure TagBody.Reflow (a b : Text) (t t' : TagBody) : Prop where
  attributes : List.Forall₂ RawAttribute.Reflow t.attributes t'.attributes
  selfClosing : t'.selfClosing = t.selfClosing
  rest : Text.Reflow a b t.rest t'.rest

/-- Blanks do not end a tag. -/
theorem tagBody_of_blank (ha : IsBlankText a) (n : Nat) (w : Waiting) :
    tagBody .html n w a = .error .unended := by
  rw [← List.append_nil a, tagBody_blanks ha, tagBody]
  rfl

theorem exists_of_tagBody_value {flavor : Flavor} {n : Nat} {w : Waiting} {q : Quoting}
    {content p r : Text} {body : TagBody} (hk : tagHead? flavor s = some (.value q content p r))
    (h : tagBody flavor n w s = .ok body) :
    ∃ done w₁ body₁, w.take q content p n = .ok (done, w₁) ∧
      tagBody flavor (n + width p) w₁ r = .ok body₁ ∧ body = body₁.withFirst done := by
  cases htake : w.take q content p n with
  | error e =>
    rw [tagBody] at h
    split at h <;> simp_all
  | ok taken =>
    obtain ⟨done, w₁⟩ := taken
    rw [tagBody_value hk htake] at h
    cases hrest : tagBody flavor (n + width p) w₁ r with
    | error e =>
      rw [hrest] at h
      cases h
    | ok body₁ =>
      rw [hrest] at h
      cases h
      exact ⟨done, w₁, body₁, rfl, hrest, rfl⟩

section Tag

variable (ha : IsBlankText a) (hb : IsBlankText b)
include ha hb

/-- **The attributes of a tag.** -/
theorem tagBody_reflow (h : Text.Reflow a b s t) {w w' : Waiting} (hw : w.Reflow w') {n n' : Nat}
    {body : TagBody} (hbody : tagBody .html n w s = .ok body) :
    ∃ body', tagBody .html n' w' t = .ok body' ∧ body.Reflow a b body' := by
  induction hlen : s.length using Nat.strongRecOn generalizing s t w w' n n' body with
  | _ len ih =>
    subst hlen
    cases h with
    | stop =>
      rw [tagBody_of_blank ha] at hbody
      cases hbody
    | @blanks x y s t hx hy hclose h =>
      rw [tagBody_blanks hx.blank] at hbody
      rw [tagBody_blanks hy.blank]
      refine ih _ ?_ h hw hbody rfl
      have := List.length_pos_iff.2 hx.ne_nil
      rw [List.length_append]
      omega
    | @char c s t h =>
      by_cases hc : isBlank c = true
      · rw [tagBody_blank (tagHead?_blank hc)] at hbody ⊢
        exact ih _ (Nat.lt_succ_self _) h hw hbody rfl
      cases hk : tagHead? .html (c :: s) with
      | none =>
        rw [tagBody] at hbody
        split at hbody <;> simp_all
      | some k =>
        obtain ⟨k', hk', hreflow⟩ := tagHead?_reflow ha hb (by simpa using hc) h hk
        have hshorter : k.rest.length < (c :: s).length := by
          obtain ⟨heq, hne⟩ := eq_of_tagHead? hk
          have := List.length_pos_iff.2 hne
          rw [heq, List.length_append]
          omega
        cases hreflow with
        | close selfClosing p hr =>
          rw [tagBody_close hk] at hbody
          cases hbody
          exact ⟨_, tagBody_close hk', hw.valueless, rfl, hr⟩
        | slash p hr =>
          rw [tagBody_slash hk] at hbody
          rw [tagBody_slash hk']
          exact ih _ hshorter hr hw hbody rfl
        | equals p hr =>
          cases hw with
          | value name span span' =>
            rw [tagBody_equals hk] at hbody
            rw [tagBody_equals hk']
            exact ih _ hshorter hr (.valueAfterEquals ..) hbody rfl
          | nothing | valueAfterEquals =>
            rw [tagBody] at hbody
            split at hbody <;> simp_all
        | value hbare hbraces hcontent hr =>
          obtain ⟨done, w₁, body₁, htake, hbody₁, rfl⟩ := exists_of_tagBody_value hk hbody
          obtain ⟨done', w₁', htake', hdone, hw₁⟩ := hw.take hbare hbraces hcontent htake
          obtain ⟨body₁', hbody₁', hreflow⟩ := ih _ hshorter hr hw₁ hbody₁ rfl
          rw [tagBody_value hk' htake', hbody₁']
          exact ⟨_, rfl, List.rel_append hdone hreflow.attributes, hreflow.selfClosing,
            hreflow.rest⟩

end Tag

/-! ## Content that is kept -/

/-- A tag with other blanks in its values and in its raw content. -/
structure OpenTag.Reflow (t t' : OpenTag) : Prop where
  name : t'.name = t.name
  selfClosing : t'.selfClosing = t.selfClosing
  attributes : List.Forall₂ RawAttribute.Reflow t.attributes t'.attributes
  raw : Option.Rel (fun x x' => Text.Reflow [] [] x.1 x'.1) t.raw t'.raw
  isRaw : t.raw.isSome = true → t.selfClosing = false ∧ isRaw t.name = true

theorem rawContent?_blank_append {name x : Text} (hx : IsBlankText x) (s : Text) :
    rawContent? name (x ++ s) = extend x (rawContent? name s) := by
  induction x with
  | nil => simp [extend]
  | cons c x ih =>
    obtain ⟨hc, hx⟩ := isBlankText_cons.1 hx
    rw [List.cons_append, rawContent?, not_startsClose_of_blank hc, ih hx]
    cases rawContent? name s <;> rfl

section Raw

variable (ha : IsBlankText a) (hb : IsBlankText b) {name : Text} (hname : IsTagName name)
include ha hb hname

/-- A close tag starts where it started, if a tag ends at all behind it. -/
theorem startsClose_reflow (h : Text.Reflow a b s t) (hend : '>' ∈ s) :
    startsClose name t = startsClose name s := by
  have hrel := (h.lower ha hb).afterWord? ha hb fun _ => not_isBlank_of_mem_close hname
  simp only [startsClose]
  generalize hs : Text.afterWord? ('<' :: '/' :: lower name) (lower s) = k at hrel
  generalize Text.afterWord? ('<' :: '/' :: lower name) (lower t) = k' at hrel
  cases hrel with
  | none => rfl
  | some hr =>
    cases hr with
    | char c => rfl
    | @blanks x y _ _ hx hy =>
      obtain ⟨c, x, rfl⟩ := List.exists_cons_of_ne_nil hx.ne_nil
      obtain ⟨d, y, rfl⟩ := List.exists_cons_of_ne_nil hy.ne_nil
      simp [hx.blank c List.mem_cons_self, hy.blank d List.mem_cons_self]
    | stop =>
      have hmem : '>' ∈ lower s := List.mem_map.2 ⟨'>', hend, by decide⟩
      rw [eq_of_afterWord? hs] at hmem
      obtain hmem | hmem := List.mem_append.1 hmem
      · have hlower : '>' ∉ lower name :=
          not_mem_lower (by decide) (hname.not_mem (by decide))
        simp [hlower] at hmem
      · exact absurd (ha _ hmem) (by decide)

/-- **Content that is kept ends where it ended.** -/
theorem rawContent?_reflow (h : Text.Reflow a b s t) {p r : Text}
    (hs : rawContent? name s = some (p, r)) (hend : '>' ∈ r) :
    ∃ p' r', rawContent? name t = some (p', r') ∧ Text.Reflow [] [] p p' ∧
      Text.Reflow a b r r' := by
  induction h generalizing p with
  | stop =>
    have hmem : '>' ∈ a := by
      rw [eq_of_rawContent? hs]
      exact List.mem_append_right _ hend
    exact absurd (ha _ hmem) (by decide)
  | @char c s t h ih =>
    have hmem : '>' ∈ c :: s := by
      rw [eq_of_rawContent? hs]
      exact List.mem_append_right _ hend
    simp only [rawContent?, startsClose_reflow ha hb hname (h.char c) hmem] at hs ⊢
    split_ifs at hs ⊢
    · cases hs
      exact ⟨_, _, rfl, .stop, h.char c⟩
    · obtain ⟨p, hp, rfl⟩ := extend_eq_some.1 hs
      obtain ⟨p', r', hp', hpp', hr⟩ := ih hp
      exact ⟨_, _, extend_eq_some.2 ⟨p', hp', rfl⟩, .char c hpp', hr⟩
  | @blanks x y s t hx hy hclose h ih =>
    rw [rawContent?_blank_append hx.blank] at hs
    obtain ⟨p, hp, rfl⟩ := extend_eq_some.1 hs
    obtain ⟨p', r', hp', hpp', hr⟩ := ih hp
    rw [rawContent?_blank_append hy.blank]
    exact ⟨_, _, extend_eq_some.2 ⟨p', hp', rfl⟩, .blanks hx hy hclose hpp', hr⟩

/-- **A tag with its content.** -/
theorem openTag_reflow (h : Text.Reflow a b s t) {n stop : Nat} {rest : Text} {tag : OpenTag}
    (htag : openTag .html n name s = .ok (tag, stop, rest))
    (hend : startsClose name rest = true → '>' ∈ rest) (n' : Nat) :
    ∃ tag' stop' rest', openTag .html n' name t = .ok (tag', stop', rest') ∧ tag.Reflow tag' ∧
      Text.Reflow a b rest rest' := by
  simp only [openTag] at htag
  split at htag
  · cases htag
  next body hbody =>
    obtain ⟨body', hbody', hattributes, hself, hrest⟩ :
        ∃ body', tagBody .html (n' + 1 + width name) .nothing t = .ok body' ∧
          body.Reflow a b body' := tagBody_reflow ha hb h .nothing hbody
    simp only [openTag, hbody', hself]
    split_ifs at htag ⊢ with hraw
    · split at htag
      · cases htag
      next content r hcontent =>
        cases htag
        have hclose := (isRawContent_of_rawContent? hname hcontent).2.1
        obtain ⟨content', r', hcontent', hreflow, hr⟩ :=
          rawContent?_reflow ha hb hname hrest hcontent (hend hclose)
        rw [hcontent']
        have hraw : body.selfClosing = false ∧ isRaw name = true := by simpa using hraw
        refine ⟨_, _, _, rfl, ⟨rfl, rfl, hattributes, ?_, fun _ => ⟨rfl, hraw.2⟩⟩, hr⟩
        simp only [hreflow.eq_nil_iff]
        split_ifs
        · exact .none
        · exact .some hreflow
    · cases htag
      exact ⟨_, _, _, rfl, ⟨rfl, rfl, hattributes, .none, nofun⟩, hrest⟩

end Raw

end MarkupSync
