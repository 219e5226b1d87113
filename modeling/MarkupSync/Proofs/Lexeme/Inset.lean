import MarkupSync.Proofs.Lexeme.Angle
import MarkupSync.Proofs.Lexeme.Shift

/-!
# Content put further in

What stands at the start of content in JSX is read the same if its lines are put further in and
more text follows it.

* `ContentHead.inset`: what stands at the start of content, further in;
* `ContentHead.Lasts`: what does not change when more text follows. A text has to end before the
  markup does, and must not be a brace that nothing closes;
* `opensNothing_inset`, `angleHead_inset`: open angles;
* **`contentHead_inset`**: the start of content read further in.
-/

namespace MarkupSync

open Text

variable {indent rest : Text}

/-! ## Heads of content -/

/-- What stands at the start of content put further in, with more text behind it. -/
def ContentHead.inset (indent rest : Text) : ContentHead → ContentHead
  | skipped p r => skipped (indented indent p) (Text.inset indent rest r)
  | openTag name p r => openTag name (indented indent p) (Text.inset indent rest r)
  | closeTag name p r => closeTag name (indented indent p) (Text.inset indent rest r)
  | fragmentOpen p r => fragmentOpen (indented indent p) (Text.inset indent rest r)
  | fragmentClose p r => fragmentClose (indented indent p) (Text.inset indent rest r)
  | expression p r => expression (indented indent p) (Text.inset indent rest r)
  | plain p r => plain (indented indent p) (Text.inset indent rest r)

/-- Whether what stands at the start of content stays what it is when more text follows: the name
of a tag has ended, and so has a text; a brace is no text only because nothing closes it. -/
def ContentHead.Lasts : ContentHead → Prop
  | openTag _ _ r => r ≠ []
  | plain p r => p ≠ ['\x7b'] ∧ ∃ c ∈ r, isPlain c = false
  | _ => True

theorem isPlain_of_isIndent {c : Char} (h : isIndent c = true) : isPlain c = true := by
  rcases isIndent_iff.1 h with rfl | rfl <;> decide

theorem isCloseBlank_of_isIndent {c : Char} (h : isIndent c = true) : isCloseBlank c = true := by
  rcases isIndent_iff.1 h with rfl | rfl <;> decide

theorem indented_takeWhile_isNameChar (s : Text) :
    indented indent (s.takeWhile isNameChar) = s.takeWhile isNameChar :=
  indented_of_not_mem fun h =>
    absurd (List.all_eq_true.1 (List.all_takeWhile (p := isNameChar)) _ h) (by decide)

theorem skipTo_inset (hindent : ∀ c ∈ indent, isIndent c = true) {start s : Text} {k : ContentHead}
    (hstart : '\n' ∉ start) (h : skipTo ['>'] start s = .ok k) :
    skipTo ['>'] start (Text.inset indent rest s) = .ok (k.inset indent rest) := by
  rw [skipTo] at h
  split at h
  next p r hcut =>
    cases h
    have hangle : indented indent ['>'] = ['>'] := indented_of_not_mem (by decide)
    rw [skipTo, cut?_inset rest (by decide) (not_mem_of_isIndent hindent (by decide)) hcut]
    simp only [ContentHead.inset, indented_append, indented_of_not_mem hstart, hangle]
  next => cases h

variable (rest) in
theorem closeHead_inset (hindent : ∀ c ∈ indent, isIndent c = true) {s : Text} {k : ContentHead}
    (h : closeHead s = .ok k) : closeHead (Text.inset indent rest s) = .ok (k.inset indent rest) := by
  simp only [closeHead] at h
  split at h
  next r hr =>
    cases h
    have hblank : (s.dropWhile isNameChar).dropWhile isCloseBlank ≠ [] := by
      rw [hr]
      exact List.cons_ne_nil _ _
    have hname : s.dropWhile isNameChar ≠ [] := fun h => hblank (by rw [h]; rfl)
    obtain ⟨htake, hdrop⟩ := takeWhile_inset indent rest (p := isNameChar)
      (fun h => absurd h (by decide)) hname
    obtain ⟨htake', hdrop'⟩ := takeWhile_inset indent rest (p := isCloseBlank)
      (fun _ c hc => isCloseBlank_of_isIndent (hindent c hc)) hblank
    simp only [closeHead, htake, hdrop, htake', hdrop', hr, inset_cons (show '>' ≠ '\n' by decide)]
    have hopen : indented indent ['<', '/'] = ['<', '/'] := indented_of_not_mem (by decide)
    have hangle : indented indent ['>'] = ['>'] := indented_of_not_mem (by decide)
    simp only [ContentHead.inset, indented_append, indented_takeWhile_isNameChar, hopen, hangle]
  next => cases h

/-- An open angle that opens nothing opens nothing further in, unless the text ends right there. -/
theorem opensNothing_inset {s : Text} (h : opensNothing s = true) (hs : ∃ c ∈ s, isPlain c = false) :
    opensNothing (Text.inset indent rest s) = true := by
  obtain ⟨e, he, hplain⟩ := hs
  have hcons {c : Char} {s : Text} (hc : isPlain c = true) (h : e ∈ c :: s) :
      ∃ d u, s = d :: u ∧ e ∈ d :: u := by
    have hm : e ∈ s := (List.mem_cons.1 h).resolve_left fun h => by
      rw [h, hc] at hplain
      cases hplain
    obtain ⟨d, u, rfl⟩ := List.exists_cons_of_ne_nil (List.ne_nil_of_mem hm)
    exact ⟨d, u, rfl, hm⟩
  obtain ⟨c, s, rfl⟩ := List.exists_cons_of_ne_nil (List.ne_nil_of_mem he)
  by_cases hbang : c = '!'
  · subst hbang
    obtain ⟨d, s, rfl, hd⟩ := hcons (by decide) he
    rw [inset_cons (by decide)]
    by_cases hdash : d = '-'
    · subst hdash
      obtain ⟨d, s, rfl, -⟩ := hcons (by decide) hd
      obtain ⟨v, hv⟩ := @exists_inset_cons indent rest d s
      rw [inset_cons (by decide), hv]
      by_cases hd : d = '-'
      · subst hd
        cases h
      · simp [opensNothing, hd]
    · obtain ⟨v, hv⟩ := @exists_inset_cons indent rest d s
      rw [hv]
      simpa [opensNothing, hdash] using h
  by_cases hslash : c = '/'
  · subst hslash
    obtain ⟨d, s, rfl, -⟩ := hcons (by decide) he
    obtain ⟨v, hv⟩ := @exists_inset_cons indent rest d s
    rw [inset_cons (by decide), hv]
    by_cases hd : d = '>'
    · subst hd
      cases h
    · simpa [opensNothing, hd] using h
  · obtain ⟨v, hv⟩ := @exists_inset_cons indent rest c s
    rw [hv]
    by_cases hq : c = '?'
    · subst hq
      cases h
    by_cases hc : c = '>'
    · subst hc
      cases h
    simpa [opensNothing, hbang, hslash, hq, hc] using h

theorem angleHead_inset (hindent : ∀ c ∈ indent, isIndent c = true) {s : Text} {k : ContentHead}
    (h : angleHead s = .ok k) (hk : k.Lasts) :
    angleHead (Text.inset indent rest s) = .ok (k.inset indent rest) := by
  by_cases hplain : ∃ p r, k = .plain p r
  · obtain ⟨p, r, rfl⟩ := hplain
    obtain ⟨ho, rfl, rfl⟩ := opensNothing_of_angleHead h
    rw [angleHead_of_opensNothing (opensNothing_inset ho hk.2), ContentHead.inset,
      indented_of_not_mem (by decide)]
  revert h
  fun_cases angleHead s with
  | case1 s p r hcut =>
    rintro ⟨⟩
    have hcut := cut?_inset rest (by decide) (not_mem_of_isIndent hindent (by decide)) hcut
    have hopen : indented indent ['<', '!', '-', '-'] = ['<', '!', '-', '-'] :=
      indented_of_not_mem (by decide)
    have hclose : indented indent ['-', '-', '>'] = ['-', '-', '>'] :=
      indented_of_not_mem (by decide)
    rw [inset_cons (by decide), inset_cons (by decide), inset_cons (by decide), angleHead, hcut,
      ContentHead.inset, indented_append, indented_append, hopen, hclose]
  | case2 => rintro ⟨⟩
  | case3 c s hne hc =>
    intro h
    have hn : c ≠ '\n' := by
      rintro rfl
      exact absurd hc (by decide)
    have hd : c ≠ '-' := by
      rintro rfl
      exact absurd hc (by decide)
    rw [inset_cons (by decide), inset_cons hn, angleHead, if_pos hc]
    · exact skipTo_inset hindent (by simpa using Ne.symm hn) h
    · exact fun s h => absurd h hd
  | case5 s =>
    intro h
    rw [inset_cons (by decide), angleHead]
    exact skipTo_inset hindent (by decide) h
  | case6 s =>
    rintro ⟨⟩
    rw [inset_cons (by decide), inset_cons (by decide), angleHead, ContentHead.inset,
      indented_of_not_mem (by decide)]
  | case7 c s hne hc =>
    intro h
    have hn : c ≠ '\n' := by
      rintro rfl
      exact absurd hc (by decide)
    have := closeHead_inset rest hindent h
    rw [inset_cons hn] at this
    rw [inset_cons (by decide), inset_cons hn, angleHead, if_pos hc]
    · exact this
    · exact hne
  | case9 s =>
    rintro ⟨⟩
    rw [inset_cons (by decide), angleHead, ContentHead.inset, indented_of_not_mem (by decide)]
  | case10 c s h1 h2 h3 h4 h5 h6 hc =>
    rintro ⟨⟩
    have hn : c ≠ '\n' := by
      rintro rfl
      exact absurd hc (by decide)
    obtain ⟨htake, hdrop⟩ := takeWhile_inset indent rest (p := isNameChar)
      (fun h => absurd h (by decide)) hk
    rw [inset_cons hn, angleHead, if_pos hc, htake, hdrop, ContentHead.inset,
      indented_takeWhile_isNameChar, indented_cons (by decide), indented_cons hn,
      indented_takeWhile_isNameChar]
    -- a letter is none of the signs that open something else
    all_goals
      intros
      subst_vars
      exact absurd hc (by decide)
  | _ =>
    rintro ⟨⟩
    exact absurd ⟨_, _, rfl⟩ hplain

theorem contentHead_expression {s p r : Text} (h : closeBraces? s = some (p, r)) :
    contentHead .jsx ('\x7b' :: s) = .ok (some (.expression ('\x7b' :: p) r)) := by
  rw [contentHead.eq_def]
  simp [h]

theorem contentHead_openBrace {s : Text} (h : closeBraces? s = none) :
    contentHead .jsx ('\x7b' :: s) = .ok (some (.plain ['\x7b'] s)) := by
  rw [contentHead.eq_def]
  simp [h]

theorem contentHead_of_isPlain {flavor : Flavor} {c : Char} (hc : isPlain c = true) (s : Text) :
    contentHead flavor (c :: s) =
      .ok (some (.plain (c :: s.takeWhile isPlain) (s.dropWhile isPlain))) := by
  simp only [isPlain, Bool.and_eq_true, bne_iff_ne] at hc
  rw [contentHead.eq_def]
  split
  next h => cases h
  next h => exact absurd (List.cons.inj h).1 hc.1
  next h =>
    cases h
    rw [if_neg hc.2]

variable (rest) in
/-- What stands at the start of content is read the same further in. -/
theorem contentHead_inset (hindent : ∀ c ∈ indent, isIndent c = true) {s : Text} {k : ContentHead}
    (h : contentHead .jsx s = .ok (some k)) (hk : k.Lasts) :
    contentHead .jsx (Text.inset indent rest s) = .ok (some (k.inset indent rest)) := by
  cases s with
  | nil => cases h
  | cons c s =>
    by_cases hangle : c = '<'
    · subst hangle
      rw [contentHead] at h
      cases ha : angleHead s with
      | error e => rw [ha] at h; cases h
      | ok k' =>
        rw [ha] at h
        cases h
        rw [inset_cons (by decide), contentHead, angleHead_inset hindent ha hk]
        rfl
    by_cases hbrace : c = '\x7b'
    · subst hbrace
      cases hs : closeBraces? s with
      | none =>
        rw [contentHead_openBrace hs] at h
        cases h
        exact absurd rfl hk.1
      | some cut =>
        rw [contentHead_expression hs] at h
        cases h
        rw [inset_cons (by decide), contentHead_expression (closeBraces?_inset rest hindent hs),
          ContentHead.inset, indented_cons (by decide)]
    · have hc : isPlain c = true := by simp [isPlain, hangle, hbrace]
      rw [contentHead_of_isPlain hc] at h
      cases h
      obtain ⟨-, d, hd, -⟩ := hk
      obtain ⟨htake, hdrop⟩ := takeWhile_inset indent rest (p := isPlain)
        (fun _ c hc => isPlain_of_isIndent (hindent c hc)) (List.ne_nil_of_mem hd)
      by_cases hn : c = '\n'
      · subst hn
        have hindent' : ∀ c ∈ indent, isPlain c = true := fun c hc =>
          isPlain_of_isIndent (hindent c hc)
        rw [inset_newline, contentHead_of_isPlain hc, List.takeWhile_append_of_pos hindent',
          List.dropWhile_append_of_pos hindent', htake, hdrop, ContentHead.inset, indented_newline]
      · rw [inset_cons hn, contentHead_of_isPlain hc, htake, hdrop, ContentHead.inset,
          indented_cons hn]

/-- What opens something is no plain character. -/
theorem exists_cons_of_contentHead {flavor : Flavor} {s : Text} {k : ContentHead}
    (h : contentHead flavor s = .ok (some k)) (hk : ∀ p r, k ≠ .plain p r) :
    ∃ c u, s = c :: u ∧ isPlain c = false := by
  cases s with
  | nil => cases h
  | cons c s =>
    refine ⟨c, s, rfl, ?_⟩
    by_contra hc
    rw [contentHead_of_isPlain (by simpa using hc)] at h
    cases h
    exact hk _ _ rfl

/-- A run of text ends where no plain character follows. -/
theorem contentHead_textRun {flavor : Flavor} (s p r : Text) :
    contentHead flavor (textRun flavor s).2 ≠ .ok (some (.plain p r)) := by
  fun_induction textRun flavor s with
  | case1 s piece rest hs ih => exact ih
  | case2 s hs => exact hs p r

/-- The piece of a tag name or of a fragment is nothing but that. -/
def ContentHead.IsExact : ContentHead → Prop
  | openTag name p _ => p = '<' :: name ∧ IsTagName name
  | fragmentOpen p _ => p = ['<', '>']
  | fragmentClose p _ => p = ['<', '/', '>']
  | _ => True

theorem isExact_of_angleHead {s : Text} {k : ContentHead} (h : angleHead s = .ok k) : k.IsExact := by
  revert h
  fun_cases angleHead s with
  | case2 => rintro ⟨⟩
  | case3 | case5 =>
    rw [skipTo]
    split <;> rintro ⟨⟩
    trivial
  | case7 =>
    simp only [closeHead]
    split <;> rintro ⟨⟩
    trivial
  | case10 _ _ _ _ _ _ _ _ hname =>
    rintro ⟨⟩
    exact ⟨rfl, hname, List.all_takeWhile⟩
  | case6 | case9 =>
    rintro ⟨⟩
    rfl
  | _ =>
    rintro ⟨⟩
    trivial

theorem isExact_of_contentHead {flavor : Flavor} {s : Text} {k : ContentHead}
    (h : contentHead flavor s = .ok (some k)) : k.IsExact := by
  revert h
  fun_cases contentHead flavor s
  case case1 => rintro ⟨⟩
  case case2 u =>
    intro h
    cases ha : angleHead u with
    | error e =>
      rw [ha] at h
      cases h
    | ok k' =>
      rw [ha] at h
      cases h
      exact isExact_of_angleHead ha
  all_goals
    rintro ⟨⟩
    trivial

/-- The name of an open tag stands behind its angle. -/
theorem name_of_contentHead {flavor : Flavor} {s name p r : Text}
    (h : contentHead flavor s = .ok (some (.openTag name p r))) : p = '<' :: name ∧ IsTagName name :=
  isExact_of_contentHead h

end MarkupSync
