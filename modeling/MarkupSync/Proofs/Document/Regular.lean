import MarkupSync.Proofs.Document.Pieces

/-!
# Regular sources

* `IsRegular`: texts whose open tags are made of attributes with different names, each behind blanks
  and with a value behind its equals sign, and that have no fragments;
* `EndsContent`: what ends content: the end of the text or a close tag of the innermost element;
* `NextStarts`: what holds behind the first piece of a text; one lemma for each kind of piece;
* `startsContent_of_reads`: what a reader accepts starts with valid content;
* **`IsRegular.exists_content`**: a regular text with a document is written as valid content.
-/

namespace MarkupSync

open Text

/-- An open tag of the text is made of valid attributes, and nothing is a fragment. -/
def Lexeme.IsRegular (s : Text) : Lexeme → Prop
  | .openTag t => ∃ g : TagSource, g.IsValid ∧ s.at t.span = g.source
  | .fragmentOpen _ | .fragmentClose _ => False
  | .closeTag .. | .text .. | .expression .. => True

/-- The attributes of every open tag have different names, each has blanks in front, every equals
sign has a value behind it, and there are no other slashes or fragments. -/
def IsRegular (s : Text) : Prop := ∀ l ∈ (scanAll .html s).lexemes, l.IsRegular s

/-! ## Pieces of a text -/

/-- An open tag takes the characters up to its end. -/
theorem exists_of_openTag {flavor : Flavor} {n stop : Nat} {name s rest : Text} {t : OpenTag}
    (h : openTag flavor n name s = .ok (t, stop, rest)) :
    ∃ q u, s = q ++ u ∧ t.name = name ∧ t.span = ⟨n, n + width ('<' :: name ++ q)⟩ := by
  have hsize : '<'.utf8Size = 1 := rfl
  simp only [openTag] at h
  split at h
  · cases h
  next b hb =>
    obtain ⟨q, hq, hstop⟩ := exists_of_tagBody hb
    refine ⟨q, b.rest, hq, ?_⟩
    have hspan : b.closing.stop = n + width ('<' :: name ++ q) := by
      rw [hstop]
      simp [hsize]
      omega
    split at h
    · split at h <;> cases h
      exact ⟨rfl, by rw [OpenTag.span, hspan]⟩
    · cases h
      exact ⟨rfl, by rw [OpenTag.span, hspan]⟩

/-- Plain characters open nothing. -/
theorem allPlain_of_contentHead {s p r : Text}
    (h : contentHead .html s = .ok (some (.plain p r))) : AllPlain p r := by
  obtain ⟨t, rfl, ha⟩ | ⟨p, r, heq, hp⟩ := angleHead_or_plain h
  · obtain ⟨ho, rfl, rfl⟩ := opensNothing_of_angleHead ha
    exact ⟨fun _ => ho, trivial⟩
  · cases heq
    exact allPlain_of_not_mem hp _

theorem allPlain_textRun {s : Text} : AllPlain (textRun .html s).1 (textRun .html s).2 := by
  fun_induction textRun .html s with
  | case1 s piece rest hs ih =>
    refine allPlain_append.2 ⟨?_, ih⟩
    rw [textRun_append]
    exact allPlain_of_contentHead hs
  | case2 => trivial

/-- A close tag is read up to its end. -/
theorem exists_of_closeHead {s name p r : Text} {c : Char} (hc : isNameStart c = true)
    (h : closeHead (c :: s) = .ok (.closeTag name p r)) :
    ∃ k : CloseSource, k.name = name ∧ k.source = p ∧ IsTagName k.name ∧
      k.blanks.all isCloseBlank = true := by
  have hname : isNameChar c = true := by
    rw [isNameStart] at hc
    simp [isNameChar, Char.isAlphanum, hc]
  simp only [closeHead] at h
  split at h
  next rest hrest =>
    cases h
    refine ⟨⟨(c :: s).takeWhile isNameChar,
      ((c :: s).dropWhile isNameChar).takeWhile isCloseBlank⟩, rfl, ?_, ?_, List.all_takeWhile⟩
    · simp [CloseSource.source]
    · rw [List.takeWhile_cons_of_pos hname]
      exact ⟨hc, List.all_takeWhile⟩
  next => cases h

theorem exists_of_contentHead {s name p r : Text}
    (h : contentHead .html s = .ok (some (.closeTag name p r))) :
    ∃ k : CloseSource, k.name = name ∧ k.source = p ∧ IsTagName k.name ∧
      k.blanks.all isCloseBlank = true := by
  obtain ⟨t, rfl, ha⟩ | ⟨_, _, heq, -⟩ := angleHead_or_plain h
  · revert ha
    fun_cases angleHead t with
    | case7 c s _ hc => exact exists_of_closeHead hc
    | case3 | case5 =>
      rw [skipTo]
      split <;> intro ha <;> cases ha
    | _ => intro ha; cases ha
  · cases heq

/-- The open angle and the name of a tag. -/
theorem piece_of_contentHead {s name p r : Text}
    (h : contentHead .html s = .ok (some (.openTag name p r))) : p = '<' :: name := by
  obtain ⟨t, rfl, ha⟩ | ⟨_, _, heq, -⟩ := angleHead_or_plain h
  · revert ha
    fun_cases angleHead t with
    | case3 | case5 =>
      rw [skipTo]
      split <;> intro ha <;> cases ha
    | case7 =>
      simp only [closeHead]
      split <;> intro ha <;> cases ha
    | _ => intro ha; cases ha; try rfl
  · cases heq

/-- Behind an open angle stands no expression. -/
theorem angleHead_ne_expression {s p u : Text} : angleHead s ≠ .ok (.expression p u) := by
  fun_cases angleHead s with
  | case3 | case5 =>
    rw [skipTo]
    split <;> rintro ⟨⟩
  | case7 =>
    simp only [closeHead]
    split <;> rintro ⟨⟩
  | _ => rintro ⟨⟩

theorem contentHead_ne_expression {s p u : Text} :
    contentHead .html s ≠ .ok (some (.expression p u)) := by
  intro h
  obtain ⟨t, rfl, ha⟩ | ⟨_, _, heq, -⟩ := angleHead_or_plain h
  · exact angleHead_ne_expression ha
  · cases heq

/-- Where a close tag starts, one is read, if anything is. -/
theorem contentHead_of_startsClose {tag s : Text} (ht : IsTagName tag) (hs : startsClose tag s = true)
    {head : Option ContentHead} (h : contentHead .html s = .ok head) :
    ∃ name p u, head = some (.closeTag name p u) := by
  obtain ⟨c, t, rfl, hc⟩ := exists_of_startsClose ht hs
  have hne : c ≠ '>' := by
    rintro rfl
    exact absurd hc (by decide)
  rw [contentHead, angleHead, if_pos hc] at h
  · simp only [closeHead] at h
    split at h
    · cases h
      exact ⟨_, _, _, rfl⟩
    · cases h
  · exact hne

theorem eq_nil_of_contentHead {s : Text} (h : contentHead .html s = .ok none) : s = [] := by
  cases s with
  | nil => rfl
  | cons c s =>
    by_cases hc : c = '<'
    · subst hc
      rw [contentHead] at h
      cases ha : angleHead s <;> rw [ha] at h <;> cases h
    · rw [contentHead] at h
      · split at h <;> cases h
      · exact fun h => hc h
      · rintro _ _ ⟨⟩

/-! ## Content -/

theorem Written.source_ne_nil (w : Written) : w.source ≠ [] := by
  cases w <;> exact List.cons_ne_nil _ _

namespace Content

/-- The run that content starts with. -/
def first : Content → Text
  | flow s => s
  | cons s _ _ => s

theorem isValid_prepend_first {s : Text} {c : Content} (hc : c.IsValid)
    (h : (stripped? (s ++ c.first)).isSome) : (c.prepend s).IsValid := by
  cases c with
  | flow t => exact h
  | cons t w rest => exact ⟨h, hc.2⟩

theorem isSome_first {c : Content} (hc : c.IsValid) : (stripped? c.first).isSome := by
  cases c with
  | flow t => exact hc
  | cons t w rest => exact hc.1

theorem exists_source_eq_first (c : Content) : ∃ u, c.source = c.first ++ u := by
  cases c with
  | flow t => exact ⟨[], (List.append_nil t).symm⟩
  | cons t w rest => exact ⟨_, rfl⟩

end Content

/-- What ends content: the end of the text, or a close tag of the innermost element. -/
def EndsContent (stack : List (Opened × List (Node × Place))) (rest : Text) : Prop :=
  (rest = [] ∧ stack = []) ∨ ∃ (k : CloseSource) (u : Text) (tag : OpenTag)
    (before : List (Node × Place)) (outer : List (Opened × List (Node × Place))),
    rest = k.source ++ u ∧ stack = (.element tag, before) :: outer ∧ k.Closes tag.name

theorem EndsContent.endsFlow {stack : List (Opened × List (Node × Place))} {rest : Text}
    (h : EndsContent stack rest) : EndsFlow rest := by
  obtain ⟨rfl, -⟩ | ⟨k, u, tag, before, outer, rfl, -, hk⟩ := h
  · exact .inl rfl
  · exact endsFlow_closeSource hk u

/-- A text that starts at byte `n` starts with valid content, and its lexemes go on behind that. -/
def StartsContent (stack : List (Opened × List (Node × Place))) (n : Nat) (s : Text) : Prop :=
  ∃ (c : Content) (rest : Text), s = c.source ++ rest ∧ c.IsValid ∧ EndsContent stack rest ∧
    (scan .html (n + width c.source) rest).lexemes <:+ (scan .html n s).lexemes

namespace StartsContent

variable {stack : List (Opened × List (Node × Place))} {n : Nat}

theorem of_ends {s : Text} (h : EndsContent stack s) : StartsContent stack n s :=
  ⟨.flow [], s, rfl, isGap_nil.isSome, h, List.suffix_refl _⟩

/-- More text in front of content. -/
theorem prepend {p u : Text} (h : StartsContent stack (n + width p) u)
    (hp : ∀ x v, u = x ++ v → (stripped? x).isSome → (stripped? (p ++ x)).isSome)
    (hlex : (scan .html (n + width p) u).lexemes <:+ (scan .html n (p ++ u)).lexemes) :
    StartsContent stack n (p ++ u) := by
  obtain ⟨c, rest, rfl, hc, hrest, hsuffix⟩ := h
  obtain ⟨v, hv⟩ := c.exists_source_eq_first
  refine ⟨c.prepend p, rest, by rw [c.source_prepend, List.append_assoc],
    c.isValid_prepend_first hc (hp c.first (v ++ rest) ?_ (c.isSome_first hc)), hrest, ?_⟩
  · rw [hv, List.append_assoc]
  · rw [c.source_prepend, width_append, ← Nat.add_assoc]
    exact hsuffix.trans hlex

/-- An element in front of content. -/
theorem cons {w : Written} (hw : w.IsValid) {u : Text}
    (h : StartsContent stack (n + width w.source) u)
    (hlex : (scan .html (n + width w.source) u).lexemes <:+ (scan .html n (w.source ++ u)).lexemes) :
    StartsContent stack n (w.source ++ u) := by
  obtain ⟨c, rest, rfl, hc, hrest, hsuffix⟩ := h
  refine ⟨.cons [] w c, rest, by simp [Content.source], ⟨isGap_nil.isSome, hw, hc⟩, hrest, ?_⟩
  have : width (Content.cons [] w c).source = width w.source + width c.source := by
    simp [Content.source]
  rw [this, ← Nat.add_assoc]
  exact hsuffix.trans hlex

end StartsContent

/-! ## What a reader accepts -/

section Reads

variable {r : Reader} {nodes : List (Node × Place)} {n : Nat} {s : Text}

theorem reads_failed (fault : Fault) (position : Nat) :
    r.reads (.failed fault position) ≠ .ok nodes := by
  simp [Reader.reads, Scan.failed, Reader.steps]

theorem contentHead_of_reads (h : r.reads (scan .html n s) = .ok nodes) :
    ∃ c, contentHead .html s = .ok c := by
  cases hc : contentHead .html s with
  | ok c => exact ⟨c, rfl⟩
  | error e =>
    rw [scan] at h
    split at h <;> simp_all
    exact absurd h (reads_failed _ _)

theorem openTag_of_reads {name p u : Text} (h : r.reads (scan .html n s) = .ok nodes)
    (hc : contentHead .html s = .ok (some (.openTag name p u))) :
    ∃ tag stop rest, openTag .html n name u = .ok (tag, stop, rest) := by
  cases ht : openTag .html n name u with
  | ok t => exact ⟨_, _, _, rfl⟩
  | error e =>
    rw [scan] at h
    split at h <;> simp_all
    split at h <;> simp_all
    exact absurd h (reads_failed _ _)

/-- A close tag that a reader accepts ends its innermost element. -/
theorem endsContent_of_reads {name p u : Text} (h : r.reads (scan .html n s) = .ok nodes)
    (hc : contentHead .html s = .ok (some (.closeTag name p u))) :
    ∃ (k : CloseSource) (tag : OpenTag) (before : List (Node × Place))
      (outer : List (Opened × List (Node × Place))), s = k.source ++ u ∧
      r.stack = (.element tag, before) :: outer ∧ k.Closes tag.name := by
  obtain ⟨k, rfl, rfl, hname, hblanks⟩ := exists_of_contentHead hc
  have hs := (eq_of_contentHead hc).1
  simp only [ContentHead.piece, ContentHead.rest] at hs
  rw [scan_closeTag hc, Reader.reads_cons, Reader.step] at h
  · simp only [Reader.stepTag, Reader.stack_flush] at h
    rcases hstack : r.stack with _ | ⟨⟨tag | span, before⟩, outer⟩
    · rw [hstack] at h
      cases h
    · rw [hstack] at h
      simp only at h
      split_ifs at h with hcloses
      exact ⟨k, tag, before, outer, hs, rfl, hname, hblanks, by simpa [Flavor.closes] using hcloses⟩
    · rw [hstack] at h
      cases h
  · intros; contradiction

end Reads

/-- A regular open tag is the tag that is read. -/
theorem exists_tagSource {front s name p u rest : Text} {tag : OpenTag} {stop : Nat}
    (hc : contentHead .html s = .ok (some (.openTag name p u)))
    (ht : openTag .html (width front) name u = .ok (tag, stop, rest))
    (hreg : Lexeme.IsRegular (front ++ s) (.openTag tag)) :
    ∃ (g : TagSource) (v : Text), g.IsValid ∧ s = g.source ++ v := by
  obtain ⟨g, hg, hat⟩ := hreg
  obtain ⟨q, v, rfl, -, hspan⟩ := exists_of_openTag ht
  have hs := (eq_of_contentHead hc).1
  simp only [ContentHead.piece, ContentHead.rest, piece_of_contentHead hc] at hs
  have hslice := slice_append front ('<' :: name ++ q) v
  rw [hspan, Text.at, hs, ← List.append_assoc _ q, ← List.append_assoc front, hslice] at hat
  exact ⟨g, v, hg, by rw [← hat, hs, ← List.append_assoc]⟩

/-- An element whose content is kept is read up to its close tag. -/
theorem exists_of_rawTag {g : TagSource} (hg : g.IsValid) (hself : g.selfClosing = false)
    (hvoid : isVoid g.name = false) (hraw : isRaw g.name = true) {n : Nat} {v : Text} {r : Reader}
    {nodes : List (Node × Place)} (h : r.reads (scan .html n (g.source ++ v)) = .ok nodes) :
    ∃ (content : Text) (k : CloseSource) (u : Text), v = content ++ (k.source ++ u) ∧
      IsRawContent g.name content ∧ k.Closes g.name ∧
      (scan .html (n + width (Written.raw g content k).source) u).lexemes <:+
        (scan .html n (g.source ++ v)).lexemes := by
  have hopen := contentHead_openTag hg v
  cases hcontent : rawContent? g.name v with
  | none =>
    obtain ⟨tag, stop, rest, ht⟩ := openTag_of_reads h hopen
    simp only [openTag, tagBody_body hg, hself, hraw, hcontent] at ht
    simp at ht
  | some c =>
    obtain ⟨content, behind⟩ := c
    obtain ⟨hkept, hstart, -⟩ := isRawContent_of_rawContent? hg.name hcontent
    have hv := eq_of_rawContent? hcontent
    have ht := openTag_rawSource hg hself hraw n hcontent
    have hscan := scan_openTag hopen ht
    rw [hscan, Reader.reads_enter _ hself hvoid] at h
    obtain ⟨head, hclose⟩ := contentHead_of_reads h
    obtain ⟨name, p, u, rfl⟩ := contentHead_of_startsClose hg.name hstart hclose
    obtain ⟨k, tag, before, outer, rfl, hstack, hk⟩ := endsContent_of_reads h hclose
    cases hstack
    refine ⟨content, k, u, hv, hkept, hk, ?_⟩
    rw [hscan, scan_closeTag (contentHead_closeSource hk u), Written.source, width_append, width_append,
      ← Nat.add_assoc, ← Nat.add_assoc]
    exact (List.suffix_cons _ _).trans (List.suffix_cons _ _)

/-- Behind each piece at the start of a text, what a reader accepts starts with valid content. -/
def NextStarts (front s : Text) (nodes : List (Node × Place)) : Prop :=
  ∀ ⦃p u : Text⦄, p ≠ [] → s = p ++ u → ∀ r : Reader,
    (scan .html (width front + width p) u).lexemes <:+ (scan .html (width front) s).lexemes →
    r.reads (scan .html (width front + width p) u) = .ok nodes →
    StartsContent r.stack (width front + width p) u

section Starts

variable {front s : Text} {r : Reader} {nodes : List (Node × Place)} (hnext : NextStarts front s nodes)
  (h : r.reads (scan .html (width front) s) = .ok nodes)
include hnext h

/-- An element is the first of the content. -/
theorem NextStarts.written {w : Written} (hw : w.IsValid) {u : Text} (hs : s = w.source ++ u)
    (hlex : (scan .html (width front + width w.source) u).lexemes <:+
      (scan .html (width front) s).lexemes) : StartsContent r.stack (width front) s := by
  subst hs
  have hstarts := hnext w.source_ne_nil rfl _ hlex ((reads_written hw r _ u).symm.trans h)
  rw [Reader.push, Reader.stack_flush] at hstarts
  exact hstarts.cons hw hlex

/-- A comment belongs to the gap in front of the content. -/
theorem NextStarts.skipped {p u : Text}
    (hc : contentHead .html s = .ok (some (.skipped p u))) :
    StartsContent r.stack (width front) s := by
  obtain ⟨hs, hne⟩ := eq_of_contentHead hc
  simp only [ContentHead.piece, ContentHead.rest] at hs hne
  subst hs
  have hscan : scan .html (width front) (p ++ u) = scan .html (width front + width p) u :=
    scan_skipped hc
  have hlex : (scan .html (width front + width p) u).lexemes <:+
      (scan .html (width front) (p ++ u)).lexemes := hscan ▸ List.suffix_refl _
  rw [hscan] at h
  refine (hnext hne rfl r hlex h).prepend (fun x v _ hx => ?_) hlex
  obtain ⟨t, ht, ha⟩ | ⟨_, _, heq, -⟩ := angleHead_or_plain hc
  · obtain ⟨q, rfl, -, hq⟩ := angleHead_skipped ha
    rwa [List.cons_append, stripped?_skipped (hq x)]
  · cases heq

/-- So does a run of text. -/
theorem NextStarts.plain {p u : Text} (hc : contentHead .html s = .ok (some (.plain p u))) :
    StartsContent r.stack (width front) s := by
  obtain ⟨hs, hne⟩ := eq_of_contentHead hc
  simp only [ContentHead.piece, ContentHead.rest] at hs hne
  have hplain : AllPlain (p ++ (textRun .html u).1) (textRun .html u).2 := by
    refine allPlain_append.2 ⟨?_, allPlain_textRun⟩
    rw [textRun_append]
    exact allPlain_of_contentHead hc
  have hs : s = p ++ (textRun .html u).1 ++ (textRun .html u).2 := by
    rw [List.append_assoc, textRun_append, ← hs]
  rw [scan_plain hc, Reader.reads_text] at h
  have hlex : (scan .html (width front + width (p ++ (textRun .html u).1))
      (textRun .html u).2).lexemes <:+ (scan .html (width front) s).lexemes := by
    rw [scan_plain hc]
    exact List.suffix_cons _ _
  have hstarts := hnext (List.append_ne_nil_of_left_ne_nil hne _) hs _ hlex h
  rw [hs] at hlex ⊢
  refine hstarts.prepend (fun x v hx hsome => ?_) hlex
  rw [hx] at hplain
  rw [hplain.of_append.stripped?, Option.isSome_map]
  exact hsome

/-- A regular open tag starts an element. -/
theorem NextStarts.openTag {name p u : Text} (hc : contentHead .html s = .ok (some (.openTag name p u)))
    (hreg : ∀ l ∈ (scan .html (width front) s).lexemes, l.IsRegular (front ++ s)) :
    StartsContent r.stack (width front) s := by
  obtain ⟨tag, stop, rest, ht⟩ := openTag_of_reads h hc
  obtain ⟨g, v, hg, rfl⟩ := exists_tagSource hc ht
    (hreg _ (by rw [scan_openTag hc ht]; exact List.mem_cons_self))
  have hgne : g.source ≠ [] := List.cons_ne_nil _ _
  have hopen := contentHead_openTag hg v
  by_cases hleaf : g.selfClosing = true ∨ isVoid g.name = true
  · refine hnext.written h (w := .leaf g) ⟨hg, hleaf⟩ rfl ?_
    rw [scan_openTag hopen (openTag_source hg (hleaf.imp_right isRaw_of_isVoid) _ v)]
    exact List.suffix_cons _ _
  simp only [not_or, Bool.not_eq_true] at hleaf
  by_cases hraw : isRaw g.name = true
  · obtain ⟨content, k, u, rfl, hcontent, hk, hlex⟩ := exists_of_rawTag hg hleaf.1 hleaf.2 hraw h
    exact hnext.written h (w := .raw g content k) ⟨hg, hleaf.1, hleaf.2, hraw, hcontent, hk⟩
      (by simp [Written.source]) hlex
  -- the content up to the close tag, and what follows that
  simp only [Bool.not_eq_true] at hraw
  have hscan := scan_openTag hopen (openTag_source hg (.inr hraw) (width front) v)
  have hlex := List.suffix_cons (Lexeme.openTag (g.openTag (width front) none))
    (scan .html (width front + width g.source) v).lexemes
  have hopened := h
  rw [hscan, Reader.reads_enter _ hleaf.1 hleaf.2] at hopened
  obtain ⟨c, rest, rfl, hcontent, hrest, hlex'⟩ :=
    hnext hgne rfl _ (by rw [hscan]; exact hlex) hopened
  obtain ⟨-, hnil⟩ | ⟨k, u, tag, before, outer, rfl, hstack, hk⟩ := hrest
  · cases hnil
  cases hstack
  refine hnext.written h (w := .full g c k) (u := u) ⟨hg, hleaf.1, hleaf.2, hraw, hcontent, hk⟩
    (by simp [Written.source]) ?_
  rw [scan_closeTag (contentHead_closeSource hk u)] at hlex'
  rw [hscan, Written.source, width_append, width_append, ← Nat.add_assoc, ← Nat.add_assoc]
  exact ((List.suffix_cons _ _).trans hlex').trans hlex

end Starts

/-- What a reader accepts starts with valid content, if it is regular. -/
theorem startsContent_of_reads {front s : Text} {r : Reader} {nodes : List (Node × Place)}
    (hreg : ∀ l ∈ (scan .html (width front) s).lexemes, l.IsRegular (front ++ s))
    (h : r.reads (scan .html (width front) s) = .ok nodes) :
    StartsContent r.stack (width front) s := by
  induction hk : s.length using Nat.strongRecOn generalizing front s r with
  | _ k ih =>
    subst hk
    have hnext : NextStarts front s nodes := by
      intro p u hp hs r' hlex h'
      rw [← width_append] at hlex h' ⊢
      subst hs
      have := List.length_pos_iff.2 hp
      refine ih u.length (by simp; omega) (fun l hl => ?_) h' rfl
      rw [List.append_assoc]
      exact hreg l (hlex.subset hl)
    obtain ⟨head, hc⟩ := contentHead_of_reads h
    cases head with
    | none =>
      cases eq_nil_of_contentHead hc
      refine .of_ends (.inl ⟨rfl, ?_⟩)
      rw [scan_nil, Reader.reads] at h
      simp only [Reader.steps, Reader.finish] at h
      split at h
      · cases h
      · assumption
    | some head =>
      cases head with
      | skipped p u => exact hnext.skipped h hc
      | plain p u => exact hnext.plain h hc
      | openTag name p u => exact hnext.openTag h hc hreg
      | closeTag name p u =>
        obtain ⟨k, tag, before, outer, rfl, hstack, hk⟩ := endsContent_of_reads h hc
        exact .of_ends (.inr ⟨k, u, tag, before, outer, rfl, hstack, hk⟩)
      | fragmentOpen p u =>
        have hm : .fragmentOpen ⟨width front, width front + width p⟩ ∈
            (scan .html (width front) s).lexemes := by
          rw [scan_fragmentOpen hc]
          exact List.mem_cons_self
        exact (hreg _ hm).elim
      | fragmentClose p u =>
        have hm : .fragmentClose ⟨width front, width front + width p⟩ ∈
            (scan .html (width front) s).lexemes := by
          rw [scan_fragmentClose hc]
          exact List.mem_cons_self
        exact (hreg _ hm).elim
      | expression p u => exact absurd hc contentHead_ne_expression

/-- **A regular text that has a document is written as valid content.** -/
theorem IsRegular.exists_content {s : Text} (hs : IsRegular s) {d : Document}
    (h : Document.read .html s = .ok d) : ∃ c : Content, c.IsValid ∧ c.source = s := by
  rw [Document.read, Document.readAt, Scan.nodes_eq_reads] at h
  cases hnodes : Reader.start.reads (scan .html 0 s) with
  | error e => rw [hnodes] at h; cases h
  | ok nodes =>
    have hstart : StartsContent Reader.start.stack (width []) s := startsContent_of_reads hs hnodes
    obtain ⟨c, rest, rfl, hc, hrest, -⟩ := hstart
    obtain ⟨rfl, -⟩ | ⟨_, _, _, _, _, _, hnil, -⟩ := hrest
    · exact ⟨c, hc, (List.append_nil _).symm⟩
    · cases hnil

end MarkupSync
