import MarkupSync.Proofs.Document.Flow
import MarkupSync.Proofs.Lexeme.Inset

/-!
# Lexemes put further in

The lexemes of markup are the same if the markup is put further in, up to the line breaks in them.

* `textRun_inset`: runs of text;
* `OpenTag.IsInset`, `exists_openTag_inset`: open tags and what is read of them further in;
* `Lexeme.IsInset`: a lexeme and the same lexeme further in;
* `Lexeme.LeadsInset`: a lexeme at the start of a text, also further in;
* **`exists_scan_inset`**: the first lexeme of a text, further in.
-/

namespace MarkupSync

open Text

variable {indent rest : Text}

/-! ## Runs of text -/

variable (rest) in
/-- A run of text is read the same further in, if something opens behind it. -/
theorem textRun_inset (hindent : ∀ c ∈ indent, isIndent c = true) {s : Text} {k : ContentHead}
    (hbrace : '\x7b' ∉ (textRun .jsx s).1)
    (hnext : contentHead .jsx (textRun .jsx s).2 = .ok (some k)) (hk : k.Lasts) :
    textRun .jsx (Text.inset indent rest s) =
      (indented indent (textRun .jsx s).1, Text.inset indent rest (textRun .jsx s).2) := by
  obtain ⟨c, u, hu, hc⟩ := exists_cons_of_contentHead hnext fun p r h =>
    contentHead_textRun s p r (h ▸ hnext)
  fun_induction textRun .jsx s with
  | case1 s p r hs ih =>
    simp only [List.mem_append, not_or] at hbrace
    have hlasts : (ContentHead.plain p r).Lasts := by
      refine ⟨fun h => hbrace.1 (h ▸ List.mem_singleton_self _), c, ?_, hc⟩
      rw [← textRun_append .jsx r, hu]
      simp
    rw [textRun_plain (contentHead_inset rest hindent hs hlasts), ih hbrace.2 hnext hu, indented_append]
  | case2 s hs =>
    refine textRun_of_ne_plain fun p r hplain => ?_
    rw [contentHead_inset rest hindent hnext hk] at hplain
    cases k <;> cases hplain
    exact hs _ _ hnext

/-! ## Lexemes -/

/-- An open tag and the same tag further in. -/
structure OpenTag.IsInset (indent : Text) (t t' : OpenTag) : Prop where
  name : t'.name = t.name
  selfClosing : t'.selfClosing = t.selfClosing
  attributes : AreInset indent t.attributes t'.attributes
  raw : t.raw = none
  raw' : t'.raw = none

/-- A lexeme and the same lexeme further in. -/
inductive Lexeme.IsInset (indent : Text) : Lexeme → Lexeme → Prop
  | openTag {t t' : OpenTag} (h : t.IsInset indent t') : IsInset indent (openTag t) (openTag t')
  | closeTag (name : Text) (span span' : Span) :
    IsInset indent (closeTag name span) (closeTag name span')
  | fragmentOpen (span span' : Span) : IsInset indent (fragmentOpen span) (fragmentOpen span')
  | fragmentClose (span span' : Span) : IsInset indent (fragmentClose span) (fragmentClose span')
  | text (content : Text) (span span' : Span) :
    IsInset indent (text content span) (text (indented indent content) span')
  | expression (content : Text) (span span' : Span) :
    IsInset indent (expression content span) (expression (indented indent content) span')

theorem exists_tagBody_of_openTag {n stop : Nat} {name s r : Text} {t : OpenTag}
    (h : openTag .jsx n name s = .ok (t, stop, r)) :
    ∃ b, tagBody .jsx (n + 1 + width name) .nothing s = .ok b ∧ r = b.rest ∧ stop = b.closing.stop ∧
      t = ⟨name, ⟨n, n + 1 + width name⟩, b.attributes, b.closing, b.selfClosing, none⟩ := by
  simp only [openTag] at h
  split at h
  · cases h
  next b hb =>
    rw [if_neg (by simp)] at h
    cases h
    exact ⟨b, hb, rfl, rfl, rfl⟩

variable (rest) in
/-- An open tag is read further in as it is read. -/
theorem exists_openTag_inset (hindent : ∀ c ∈ indent, isIndent c = true) {n stop : Nat}
    {name s r : Text} {t : OpenTag} (h : openTag .jsx n name s = .ok (t, stop, r)) (n' : Nat) :
    ∃ t' stop', openTag .jsx n' name (Text.inset indent rest s) =
      .ok (t', stop', Text.inset indent rest r) ∧ t.IsInset indent t' := by
  obtain ⟨b, hb, rfl, rfl, rfl⟩ := exists_tagBody_of_openTag h
  obtain ⟨b', hb', hattrs, hself, hrest⟩ := exists_tagBody_inset rest hindent hb .nothing
    (n' + 1 + width name)
  refine ⟨⟨name, ⟨n', n' + 1 + width name⟩, b'.attributes, b'.closing, b'.selfClosing, none⟩,
    b'.closing.stop, ?_, ⟨rfl, hself, hattrs, rfl, rfl⟩⟩
  simp only [openTag, hb']
  rw [if_neg (by simp), hrest]

theorem openTag_stop {n stop : Nat} {name s r : Text} {t : OpenTag}
    (h : openTag .jsx n name s = .ok (t, stop, r)) :
    (Lexeme.openTag t).stop = stop ∧ stop + width r = n + 1 + width name + width s := by
  obtain ⟨b, hb, rfl, rfl, rfl⟩ := exists_tagBody_of_openTag h
  exact ⟨rfl, tagBody_stop hb⟩

/-- Where the rest of a text starts, behind what stands at its start. -/
theorem width_of_contentHead {flavor : Flavor} {s : Text} {k : ContentHead}
    (h : contentHead flavor s = .ok (some k)) : width s = width k.piece + width k.rest := by
  rw [← width_append, ← (eq_of_contentHead h).1]

/-- Where there is a lexeme, what stands at the start of a text lasts, unless it is text. -/
theorem exists_lasts_of_lexemes {n : Nat} {s : Text} (h : (scan .jsx n s).lexemes ≠ [])
    (hs : ∀ p r, contentHead .jsx s ≠ .ok (some (.plain p r))) :
    ∃ k, contentHead .jsx s = .ok (some k) ∧ k.Lasts := by
  revert h
  fun_cases scan .jsx n s with
  | case1 | case2 | case4 => exact fun h => absurd rfl h
  | case5 name p r hk t stop u ht =>
    obtain ⟨b, hb, -⟩ := exists_tagBody_of_openTag ht
    exact fun _ => ⟨_, hk, ne_nil_of_tagBody hb⟩
  | case3 p r hk | case6 name p r hk | case7 p r hk | case8 p r hk | case9 p r hk =>
    exact fun _ => ⟨_, hk, trivial⟩
  | case10 p r hk => exact absurd hk (hs p r)

/-- A lexeme at the start of a text, at byte `n`, in front of the rest `r`: further in, the same
lexeme stands in front of the same rest. -/
structure Lexeme.LeadsInset (indent rest : Text) (l : Lexeme) (n : Nat) (s r : Text) : Prop where
  stop : l.stop + width r = n + width s
  inset : ∀ n', ∃ l', (scan .jsx n' (Text.inset indent rest s)).lexemes =
      l' :: (scan .jsx l'.stop (Text.inset indent rest r)).lexemes ∧ l.IsInset indent l' ∧
    l'.stop + width (Text.inset indent rest r) = n' + width (Text.inset indent rest s)

section Scan

variable (hindent : ∀ c ∈ indent, isIndent c = true) {n : Nat} {s p r : Text}
include hindent

variable (rest) in
theorem leadsInset_openTag {name u : Text} {t : OpenTag} {stop : Nat}
    (hs : contentHead .jsx s = .ok (some (.openTag name p r)))
    (ht : openTag .jsx n name r = .ok (t, stop, u)) :
    (Lexeme.openTag t).LeadsInset indent rest n s u := by
  have hlasts : (ContentHead.openTag name p r).Lasts := by
    obtain ⟨b, hb, -⟩ := exists_tagBody_of_openTag ht
    exact ne_nil_of_tagBody hb
  have hs' := contentHead_inset rest hindent hs hlasts
  have hangle : '<'.utf8Size = 1 := rfl
  obtain ⟨hstop, hwidth⟩ := openTag_stop ht
  have hplace := width_of_contentHead hs
  simp only [ContentHead.piece, ContentHead.rest, (name_of_contentHead hs).1, width_cons] at hplace
  refine ⟨by rw [hstop]; omega, fun n' => ?_⟩
  obtain ⟨t', stop', ht', htt⟩ := exists_openTag_inset rest hindent ht n'
  obtain ⟨hstop', hwidth'⟩ := openTag_stop ht'
  have hplace' := width_of_contentHead hs'
  simp only [ContentHead.inset, ContentHead.piece, ContentHead.rest, (name_of_contentHead hs').1,
    width_cons] at hplace'
  refine ⟨.openTag t', ?_, .openTag htt, by rw [hstop']; omega⟩
  rw [scan_openTag hs' ht', hstop']
  rfl

variable (rest) in
/-- A text has to be followed by another lexeme. -/
theorem leadsInset_text (hs : contentHead .jsx s = .ok (some (.plain p r)))
    (hbrace : '\x7b' ∉ p ++ (textRun .jsx r).1)
    (hne : (scan .jsx (n + width (p ++ (textRun .jsx r).1)) (textRun .jsx r).2).lexemes ≠ []) :
    (Lexeme.text (p ++ (textRun .jsx r).1) ⟨n, n + width (p ++ (textRun .jsx r).1)⟩).LeadsInset
      indent rest n s (textRun .jsx r).2 := by
  rw [List.mem_append, not_or] at hbrace
  -- something opens behind the run
  obtain ⟨k, hk, hlasts⟩ := exists_lasts_of_lexemes hne (contentHead_textRun r)
  obtain ⟨c, v, hv, hc⟩ := exists_cons_of_contentHead hk fun p q h => contentHead_textRun r p q (h ▸ hk)
  have hplain : (ContentHead.plain p r).Lasts := by
    refine ⟨fun h => hbrace.1 (h ▸ List.mem_singleton_self _), c, ?_, hc⟩
    rw [← textRun_append .jsx r, hv]
    simp
  have hs' := contentHead_inset rest hindent hs hplain
  have hrun := textRun_inset rest hindent hbrace.2 hk hlasts
  refine ⟨?_, fun n' => ⟨.text (indented indent (p ++ (textRun .jsx r).1))
    ⟨n', n' + width (indented indent (p ++ (textRun .jsx r).1))⟩, ?_, .text .., ?_⟩⟩
  · have := congrArg width (textRun_append .jsx r)
    have hplace := width_of_contentHead hs
    simp only [ContentHead.piece, ContentHead.rest, width_append] at this hplace
    simp only [Lexeme.stop, width_append]
    omega
  · rw [scan_plain hs', hrun, ← indented_append]
    rfl
  · have := congrArg width (textRun_append .jsx (Text.inset indent rest r))
    have hplace := width_of_contentHead hs'
    rw [hrun] at this
    simp only [ContentHead.inset, ContentHead.piece, ContentHead.rest, width_append] at this hplace
    simp only [Lexeme.stop, indented_append, width_append]
    omega

variable (rest) in
/-- **The first lexeme of a text, further in.** A text has to be followed by another lexeme. -/
theorem exists_scan_inset {l : Lexeme} {ls : List Lexeme} (h : (scan .jsx n s).lexemes = l :: ls)
    (hl : ∀ content span, l = .text content span → '\x7b' ∉ content ∧ ls ≠ []) :
    ∃ r, ls = (scan .jsx l.stop r).lexemes ∧ l.LeadsInset indent rest n s r := by
  have place {s : Text} {k : ContentHead} (h : contentHead .jsx s = .ok (some k)) (n : Nat) :
      n + width k.piece + width k.rest = n + width s := by
    rw [width_of_contentHead h, Nat.add_assoc]
  fun_induction scan .jsx n s with
  | case1 | case2 | case4 => cases h
  | case3 n s p r hs ih =>
    have hs' := contentHead_inset rest hindent hs trivial
    obtain ⟨u, hu, hstop, hinset⟩ := ih h
    refine ⟨u, hu, hstop.trans (place hs n), fun n' => ?_⟩
    obtain ⟨l', hl', hll, hstop'⟩ := hinset (n' + width (indented indent p))
    exact ⟨l', by rw [scan_skipped hs']; exact hl', hll, hstop'.trans (place hs' n')⟩
  | case5 n s name p r hs t stop u ht ih =>
    cases h
    exact ⟨u, by rw [(openTag_stop ht).1], leadsInset_openTag rest hindent hs ht⟩
  | case6 n s name p r hs stop ih =>
    cases h
    have hs' := contentHead_inset rest hindent hs trivial
    exact ⟨r, rfl, place hs n, fun n' => ⟨_, congrArg Scan.lexemes (scan_closeTag hs'), .closeTag ..,
      place hs' n'⟩⟩
  | case7 n s p r hs stop ih =>
    cases h
    have hs' := contentHead_inset rest hindent hs trivial
    exact ⟨r, rfl, place hs n, fun n' => ⟨_, congrArg Scan.lexemes (scan_fragmentOpen hs'),
      .fragmentOpen .., place hs' n'⟩⟩
  | case8 n s p r hs stop ih =>
    cases h
    have hs' := contentHead_inset rest hindent hs trivial
    exact ⟨r, rfl, place hs n, fun n' => ⟨_, congrArg Scan.lexemes (scan_fragmentClose hs'),
      .fragmentClose .., place hs' n'⟩⟩
  | case9 n s p r hs stop ih =>
    cases h
    have hs' := contentHead_inset rest hindent hs trivial
    exact ⟨r, rfl, place hs n, fun n' => ⟨_, congrArg Scan.lexemes (scan_expression hs'),
      .expression .., place hs' n'⟩⟩
  | case10 n s p r hs run content stop ih =>
    cases h
    obtain ⟨hbrace, hne⟩ := hl _ _ rfl
    exact ⟨_, rfl, leadsInset_text rest hindent hs hbrace hne⟩

end Scan

end MarkupSync
