import MarkupSync.Lexeme.Tag
import MarkupSync.Proofs.Lexeme.Tag
import MarkupSync.Proofs.Text.Indent

/-!
# What closes braces and elements

* **`closeBraces?_congr`**: the brace that closes an open one closes it whatever follows;
* `tagHead?_braces`: code in braces as a value;
* `IsBalanced`: code that closes the strings and the braces it opens;
* `IsQuoted`: what is in a string;
* `IsBalanced.closeBraces?`: a brace behind such code closes the one in front of it;
* `CloseSource`: a close tag with its blanks (`angleHead_closeSource`);
* `IsRawContent`: content that no close tag of its element ends;
* **`rawContent?_append`**: such content is read up to the close tag;
* `isRawContent_of_rawContent?`: what is read as content that is kept is such content.
-/

namespace MarkupSync

open Text

/-- The brace that closes an expression closes it whatever follows. -/
theorem closeFrom_congr {q : Option Char} {depth : Nat} {s p r : Text}
    (h : closeFrom q depth s = some (p, r)) (v : Text) : closeFrom q depth (p ++ v) = some (p, v) := by
  fun_induction closeFrom q depth s generalizing p with
  | case1 | case2 => cases h
  | case3 q depth d s ih =>
    obtain ⟨p, h', rfl⟩ := extend_eq_some.1 h
    simp only [List.cons_append, List.nil_append, closeFrom, ih h']
    rfl
  | case4 q depth c s hend hpair ih =>
    obtain ⟨p, h', rfl⟩ := extend_eq_some.1 h
    have hc : c ≠ '\\' := by
      cases s with
      | nil => exact fun h => hend h rfl
      | cons d s => exact fun h => hpair d s h rfl
    rw [List.append_assoc, List.singleton_append, closeFrom_quoted hc, ih h']
    rfl
  | case5 depth s ih =>
    obtain ⟨p, h', rfl⟩ := extend_eq_some.1 h
    rw [List.append_assoc, List.singleton_append, closeFrom_code (by decide)]
    exact congrArg (extend _) (ih h')
  | case6 =>
    cases h
    rw [closeFrom.eq_def]
    rfl
  | case7 s depth hne ih =>
    obtain ⟨p, h', rfl⟩ := extend_eq_some.1 h
    rw [List.append_assoc, List.singleton_append, closeFrom_close, ih h']
    rfl
  | case8 depth c s hopen hclose hquote ih =>
    obtain ⟨p, h', rfl⟩ := extend_eq_some.1 h
    rw [List.append_assoc, List.singleton_append, closeFrom_code hclose, if_pos hquote, if_neg hopen,
      ih h']
    rfl
  | case9 depth c s hopen hclose hquote ih =>
    obtain ⟨p, h', rfl⟩ := extend_eq_some.1 h
    rw [List.append_assoc, List.singleton_append, closeFrom_code hclose, if_neg hquote, if_neg hopen,
      ih h']
    rfl

theorem closeBraces?_congr {s p r : Text} (h : closeBraces? s = some (p, r)) (v : Text) :
    closeBraces? (p ++ v) = some (p, v) := closeFrom_congr h v

/-- Code in braces is a value, whatever follows it. -/
theorem tagHead?_braces {s : Text} (h : closeBraces? s = some (s, [])) (next : Text) :
    tagHead? .jsx ('\x7b' :: (s ++ next)) =
      some (.value .braces s.dropLast ('\x7b' :: s) next) := by
  have := closeBraces?_congr h next
  simp [tagHead?, this, isBlank]

/-! ## Balanced code -/

/-- A text that closes the strings and the braces it opens: what closes the braces around it is
looked for behind it. -/
def IsBalanced (s : Text) : Prop :=
  ∀ depth t, closeFrom none depth (s ++ t) = extend s (closeFrom none depth t)

theorem extend_nil (cut : Option (Text × Text)) : extend [] cut = cut := by
  cases cut <;> simp [extend]

theorem extend_extend (p q : Text) (cut : Option (Text × Text)) :
    extend p (extend q cut) = extend (p ++ q) cut := by
  cases cut <;> simp [extend]

theorem isBalanced_nil : IsBalanced [] := fun depth t => (extend_nil (closeFrom none depth t)).symm

theorem IsBalanced.append {s t : Text} (hs : IsBalanced s) (ht : IsBalanced t) :
    IsBalanced (s ++ t) := fun depth u => by
  rw [List.append_assoc, hs, ht, extend_extend]

/-- A character that opens and closes nothing in code. -/
def isCodeChar (c : Char) : Bool := !(isStringQuote c || c == '\x7b' || c == '\x7d')

theorem isBalanced_of_all {s : Text} (hs : s.all isCodeChar = true) : IsBalanced s := by
  induction s with
  | nil => exact isBalanced_nil
  | cons c s ih =>
    simp only [List.all_cons, isCodeChar, Bool.and_eq_true, Bool.not_eq_true',
      Bool.or_eq_false_iff, beq_eq_false_iff_ne] at hs
    obtain ⟨⟨⟨hquote, hopen⟩, hclose⟩, hs⟩ := hs
    have hrest := ih (by simpa [isCodeChar] using hs)
    intro depth t
    rw [List.cons_append, closeFrom_code hclose, hquote, if_neg hopen, if_neg Bool.false_ne_true,
      hrest, extend_extend]
    rfl

/-- What is in a string with the quote `q`: no quote of its own, but a backslash hides the character
behind it. -/
inductive IsQuoted (q : Char) : Text → Prop
  | nil : IsQuoted q []
  | char {c : Char} {s : Text} (hquote : c ≠ q) (hescape : c ≠ '\\') (h : IsQuoted q s) :
    IsQuoted q (c :: s)
  | escape {c : Char} {s : Text} (h : IsQuoted q s) : IsQuoted q ('\\' :: c :: s)

theorem IsQuoted.append {q : Char} {s t : Text} (hs : IsQuoted q s) (ht : IsQuoted q t) :
    IsQuoted q (s ++ t) := by
  induction hs with
  | nil => exact ht
  | char hquote hescape _ ih => exact .char hquote hescape ih
  | escape _ ih => exact .escape ih

theorem isQuoted_of_not_mem {q : Char} {s : Text} (hq : q ∉ s) (hs : '\\' ∉ s) : IsQuoted q s := by
  induction s with
  | nil => exact .nil
  | cons c s ih =>
    simp only [List.mem_cons, not_or] at hq hs
    exact .char (Ne.symm hq.1) (Ne.symm hs.1) (ih hq.2 hs.2)

/-- A string ends at the first quote that is not escaped. -/
theorem IsQuoted.closeFrom {q : Char} {s : Text} (hs : IsQuoted q s) (hne : q ≠ '\\') (depth : Nat)
    (t : Text) : closeFrom (some q) depth (s ++ q :: t) =
      extend (s ++ [q]) (closeFrom none depth t) := by
  induction hs with
  | nil => rw [List.nil_append, closeFrom_quoted hne, if_pos rfl, List.nil_append]
  | char hquote hescape _ ih =>
    rw [List.cons_append, closeFrom_quoted hescape, if_neg hquote, ih, extend_extend]
    rfl
  | escape _ ih =>
    rw [List.cons_append, List.cons_append, MarkupSync.closeFrom, ih, extend_extend]
    rfl

theorem IsQuoted.isBalanced {q : Char} (hquote : isStringQuote q = true) {s : Text}
    (hs : IsQuoted q s) : IsBalanced (q :: (s ++ [q])) := by
  have hne {c : Char} (hc : isStringQuote c = false) : q ≠ c := by
    rintro rfl
    rw [hc] at hquote
    cases hquote
  intro depth t
  have hstring := hs.closeFrom (hne rfl) depth t
  rw [List.cons_append, List.append_assoc, List.singleton_append, closeFrom_code (hne rfl), hquote,
    if_pos rfl, if_neg (hne rfl), hstring, extend_extend]
  rfl

theorem isBalanced_string {q : Char} (hquote : isStringQuote q = true) {s : Text} (hq : q ∉ s)
    (hs : '\\' ∉ s) : IsBalanced (q :: (s ++ [q])) :=
  (isQuoted_of_not_mem hq hs).isBalanced hquote

theorem IsBalanced.braces {s : Text} (h : IsBalanced s) :
    IsBalanced ('\x7b' :: (s ++ ['\x7d'])) := by
  intro depth t
  have hopen : closeFrom none depth ('\x7b' :: (s ++ '\x7d' :: t)) =
      extend ['\x7b'] (closeFrom none (depth + 1) (s ++ '\x7d' :: t)) :=
    closeFrom_code (by decide) ..
  rw [List.cons_append, List.append_assoc, List.singleton_append, hopen, h, closeFrom_close,
    extend_extend, extend_extend]
  rfl

/-- A brace behind balanced code closes the one in front of it. -/
theorem IsBalanced.closeBraces? {s : Text} (h : IsBalanced s) (t : Text) :
    closeBraces? (s ++ '\x7d' :: t) = some (s ++ ['\x7d'], t) := by
  have hclose : closeFrom none 0 ('\x7d' :: t) = some (['\x7d'], t) := by
    rw [closeFrom.eq_def]
    rfl
  rw [MarkupSync.closeBraces?, h, hclose]
  rfl

/-! ## Close tags -/

/-- A close tag. -/
structure CloseSource where
  name : Text
  blanks : Text

namespace CloseSource

/-- The text of a close tag. -/
def source (k : CloseSource) : Text := '<' :: '/' :: k.name ++ (k.blanks ++ ['>'])

/-- The tag can be read and ends the elements named `tag`. -/
structure Closes (k : CloseSource) (tag : Text) : Prop where
  name : IsTagName k.name
  blanks : k.blanks.all isCloseBlank = true
  lower : lower tag = lower k.name

end CloseSource

theorem isBlank_of_isCloseBlank {c : Char} (h : isCloseBlank c = true) : isBlank c = true := by
  simp only [isCloseBlank, Bool.or_eq_true, beq_iff_eq] at h
  rcases h with ((rfl | rfl) | rfl) | rfl <;> rfl

/-- A name, blanks and an angle are read behind the start of a close tag. -/
theorem closeHead_append {name blanks : Text} (hname : name.all isNameChar = true)
    (hblanks : blanks.all isCloseBlank = true) (rest : Text) :
    closeHead (name ++ (blanks ++ '>' :: rest)) =
      .ok (.closeTag name ('<' :: '/' :: name ++ (blanks ++ ['>'])) rest) := by
  have hfront : ∀ c ∈ (blanks ++ '>' :: rest).head?, isNameChar c = false := by
    intro c hc
    cases blanks with
    | nil =>
      cases hc
      decide
    | cons d b =>
      cases hc
      have hd := List.all_eq_true.1 hblanks c List.mem_cons_self
      simp only [isCloseBlank, Bool.or_eq_true, beq_iff_eq] at hd
      rcases hd with ((rfl | rfl) | rfl) | rfl <;> decide
  have hstop : ∀ d ∈ ('>' :: rest).head?, isCloseBlank d = false := by
    rintro d ⟨⟩
    rfl
  simp only [closeHead, takeWhile_append_of_stop hname hfront, dropWhile_append_of_stop hname hfront,
    takeWhile_append_of_stop hblanks hstop, dropWhile_append_of_stop hblanks hstop]
  simp

/-- A close tag is read as it was written. -/
theorem angleHead_closeSource {k : CloseSource} {tag : Text} (hk : k.Closes tag) (rest : Text) :
    angleHead ('/' :: k.name ++ (k.blanks ++ '>' :: rest)) = .ok (.closeTag k.name k.source rest) := by
  have hname := hk.name
  have hclose := closeHead_append (List.all_eq_true.2 hname.isNameChar) hk.blanks rest
  rw [CloseSource.source]
  cases hn : k.name with
  | nil => exact absurd hn hname.ne_nil
  | cons c s =>
    rw [hn] at hname hclose
    have hne : c ≠ '>' := by
      rintro rfl
      exact absurd hname.1 (by decide)
    rw [List.cons_append, List.cons_append, angleHead, if_pos hname.1]
    · exact hclose
    · exact hne

theorem opensNothing_closeSource {k : CloseSource} {tag : Text} (hk : k.Closes tag) (rest : Text) :
    opensNothing ('/' :: k.name ++ (k.blanks ++ '>' :: rest)) = false := by
  by_contra h
  have := angleHead_of_opensNothing (Bool.not_eq_false _ ▸ h)
  rw [angleHead_closeSource hk] at this
  cases this

theorem startsClose_closeSource {k : CloseSource} {tag : Text} (hk : k.Closes tag) (rest : Text) :
    startsClose tag (k.source ++ rest) = true := by
  have hl : lower (k.source ++ rest) =
      ('<' :: '/' :: lower tag) ++ lower (k.blanks ++ '>' :: rest) := by
    rw [hk.lower]
    simp [CloseSource.source, lower]
  rw [startsClose, hl, afterWord?_append]
  cases hb : k.blanks with
  | nil => rfl
  | cons c b =>
    have hc : isBlank c = true := by
      have := hk.blanks
      rw [hb] at this
      simp only [List.all_cons, Bool.and_eq_true] at this
      exact isBlank_of_isCloseBlank this.1
    simp [lower, isBlank_toLower, hc]

/-! ## Content that is kept as it is written -/

/-- No close tag of the element starts in the content. -/
def IsRawContent (tag content : Text) : Prop :=
  ∀ q, q ≠ [] → q <:+ content → startsClose tag q = false

theorem afterWord?_eq_none {p q s t : Text} {c d : Char} (hl : p.length = s.length) (hcd : c ≠ d) :
    afterWord? (p ++ c :: q) (s ++ d :: t) = none := by
  induction p generalizing s with
  | nil =>
    cases s with
    | nil => simp [afterWord?, hcd]
    | cons e s => simp at hl
  | cons b p ih =>
    cases s with
    | nil => simp at hl
    | cons e s =>
      simp only [List.cons_append, afterWord?]
      split
      · exact ih (by simpa using hl)
      · rfl

/-- An open angle behind a text does not complete a close tag. -/
theorem startsClose_append_angle {tag : Text} (ht : IsTagName tag) {q : Text} (hq : q ≠ [])
    (u : Text) : startsClose tag (q ++ '<' :: u) = startsClose tag q := by
  have hlower : lower (q ++ '<' :: u) = lower q ++ '<' :: lower u := by
    simp [lower]
  rw [startsClose, startsClose, hlower]
  by_cases hlen : ('<' :: '/' :: lower tag).length ≤ (lower q).length
  · rw [afterWord?_append_of_le hlen]
    cases afterWord? ('<' :: '/' :: lower tag) (lower q) with
    | none => rfl
    | some r => cases r <;> rfl
  · have hshort : afterWord? ('<' :: '/' :: lower tag) (lower q) = none := by
      cases h : afterWord? ('<' :: '/' :: lower tag) (lower q) with
      | none => rfl
      | some r =>
        have := congrArg List.length (eq_of_afterWord? h)
        rw [List.length_append] at this
        omega
    have hnone : afterWord? ('<' :: '/' :: lower tag) (lower q ++ '<' :: lower u) = none := by
      -- the close tag has no angle where this one is
      obtain ⟨c, q, rfl⟩ := List.exists_cons_of_ne_nil hq
      obtain ⟨p, d, r, hp, hpl⟩ : ∃ p d r, '/' :: lower tag = p ++ d :: r ∧
          p.length = (lower q).length := by
        refine ⟨('/' :: lower tag).take (lower q).length, _, _,
          (List.take_append_drop (lower q).length _).symm.trans
            (congrArg _ (List.drop_eq_getElem_cons ?_)), ?_⟩
        · simp [lower] at hlen ⊢
          omega
        · simp [lower] at hlen ⊢
          omega
      have hd : d ≠ '<' := by
        have : '<' ∉ '/' :: lower tag := by
          simpa using not_mem_lower (by decide) (ht.not_mem (c := '<') (by decide))
        rw [hp] at this
        rintro rfl
        exact this (by simp)
      have := afterWord?_eq_none (p := '<' :: p) (s := lower (c :: q)) (q := r) (t := lower u)
        (by simpa [lower] using hpl) hd
      rw [hp]
      simpa using this
    rw [hshort, hnone]

/-- Content that is kept is read up to the close tag. -/
theorem rawContent?_append {tag content close : Text} (ht : IsTagName tag)
    (hc : IsRawContent tag content) (hclose : startsClose tag ('<' :: close) = true) :
    rawContent? tag (content ++ '<' :: close) = some (content, '<' :: close) := by
  induction content with
  | nil => rw [List.nil_append, rawContent?, if_pos hclose]
  | cons c s ih =>
    have hs : IsRawContent tag s := fun q hq hsuf => hc q hq (hsuf.trans (List.suffix_cons c s))
    have h : startsClose tag (c :: (s ++ '<' :: close)) = false := by
      rw [← List.cons_append, startsClose_append_angle ht (List.cons_ne_nil c s)]
      exact hc _ (List.cons_ne_nil c s) (List.suffix_refl _)
    rw [List.cons_append, rawContent?, h, ih hs]
    rfl

/-- A text ends where the name of a close tag of the element ends. -/
def EndsInClose (tag t : Text) : Prop := ('<' :: '/' :: lower tag) <:+ lower t

instance (tag t : Text) : Decidable (EndsInClose tag t) :=
  inferInstanceAs (Decidable (_ <:+ _))

theorem not_startsClose_of_blank {tag s : Text} {c : Char} (hc : isBlank c = true) :
    startsClose tag (c :: s) = false := by
  have : '<' ≠ c.toLower := by
    rintro h
    rw [← isBlank_toLower, ← h] at hc
    cases hc
  rw [startsClose]
  simp [lower, afterWord?, this]

theorem not_isBlank_of_mem_close {tag : Text} (ht : IsTagName tag) {c : Char}
    (hc : c ∈ '<' :: '/' :: lower tag) : isBlank c = false := by
  simp only [List.mem_cons, lower, List.mem_map] at hc
  rcases hc with rfl | rfl | ⟨d, hd, rfl⟩
  · rfl
  · rfl
  · rw [isBlank_toLower]
    exact not_isBlank_of_isNameChar (ht.isNameChar d hd)

/-- Blanks do not complete a close tag that is not started in front of them. -/
theorem startsClose_of_append_blank {tag t b : Text} (ht : IsTagName tag) (hb : IsBlankText b)
    (hend : ¬ EndsInClose tag t) (h : startsClose tag (t ++ b) = true) : startsClose tag t = true := by
  rw [startsClose] at h ⊢
  split at h
  next c r hafter =>
    have hlower : lower (t ++ b) = lower t ++ lower b := List.map_append
    rw [hlower] at hafter
    by_cases hlen : ('<' :: '/' :: lower tag).length ≤ (lower t).length
    · rw [afterWord?_append_of_le hlen] at hafter
      obtain ⟨u, hu, heq⟩ := Option.map_eq_some_iff.1 hafter
      cases u with
      | nil =>
        have := eq_of_afterWord? hu
        rw [List.append_nil] at this
        exact absurd (show _ <:+ lower t from this ▸ List.suffix_refl _) hend
      | cons d u =>
        cases heq
        rw [hu]
        exact h
    · -- the rest of the close tag would stand in the blanks
      obtain ⟨u, hu, hub⟩ | ⟨u, hu, -⟩ := List.append_eq_append_iff.1 (eq_of_afterWord? hafter)
      · have hne : u ≠ [] := by
          rintro rfl
          exact hlen (Nat.le_of_eq (by rw [hu, List.append_nil]))
        obtain ⟨d, u, rfl⟩ := List.exists_cons_of_ne_nil hne
        have h1 := not_isBlank_of_mem_close ht (c := d) (by rw [hu]; simp)
        obtain ⟨e, he, rfl⟩ := List.mem_map.1 (show d ∈ lower b by rw [hub]; simp)
        rw [isBlank_toLower, hb e he] at h1
        cases h1
      · exact absurd (by rw [hu, List.length_append]; omega) hlen
  next => cases h

theorem IsRawContent.cons {tag s : Text} {c : Char} (hc : startsClose tag (c :: s) = false)
    (hs : IsRawContent tag s) : IsRawContent tag (c :: s) := fun q hq hsuf =>
  (List.suffix_cons_iff.1 hsuf).elim (fun h => h ▸ hc) (hs q hq)

/-- Blanks in front of content do not start a close tag. -/
theorem IsRawContent.blank_append {tag a s : Text} (ha : IsBlankText a) (hs : IsRawContent tag s) :
    IsRawContent tag (a ++ s) := by
  induction a with
  | nil => exact hs
  | cons c a ih =>
    obtain ⟨hc, ha⟩ := isBlankText_cons.1 ha
    exact .cons (not_startsClose_of_blank hc) (ih ha)

/-- Blanks around content do not complete a close tag that its end has not started. -/
theorem IsRawContent.between {tag a t b : Text} (ht : IsTagName tag) (h : IsRawContent tag t)
    (hend : ¬ EndsInClose tag t) (ha : IsBlankText a) (hb : IsBlankText b) :
    IsRawContent tag (a ++ (t ++ b)) := by
  refine .blank_append ha ?_
  induction t with
  | nil =>
    have := IsRawContent.blank_append hb h
    rwa [List.append_nil] at this
  | cons c t ih =>
    refine .cons ?_ (ih (fun q hq hsuf => h q hq (hsuf.trans (List.suffix_cons c t)))
      fun he => hend (he.trans (List.suffix_cons _ _)))
    by_contra hs
    have := startsClose_of_append_blank ht hb hend (Bool.not_eq_false _ ▸ hs)
    rw [h _ (List.cons_ne_nil c t) (List.suffix_refl _)] at this
    cases this

/-- A close tag starts with an open angle, a slash and a letter. -/
theorem exists_of_startsClose {tag s : Text} (ht : IsTagName tag) (h : startsClose tag s = true) :
    ∃ c t, s = '<' :: '/' :: c :: t ∧ isNameStart c = true := by
  obtain ⟨d, tag, rfl⟩ := List.exists_cons_of_ne_nil ht.ne_nil
  rw [startsClose] at h
  split at h
  next c r hafter =>
    have heq := eq_of_afterWord? hafter
    match s, heq with
    | [], heq => cases heq
    | [_], heq => simp [lower] at heq
    | [_, _], heq => simp [lower] at heq
    | a :: b :: c :: t, heq =>
      simp only [lower, List.map_cons, List.cons_append, List.cons.injEq] at heq
      obtain ⟨ha, hb, hc, -⟩ := heq
      cases eq_of_toLower_eq (by decide) ha
      cases eq_of_toLower_eq (by decide) hb
      exact ⟨c, t, rfl, isAlpha_of_toLower_eq ht.1 hc⟩
  next => cases h

/-- What is read as content that is kept ends in front of a close tag, and none starts in it. -/
theorem isRawContent_of_rawContent? {tag s content rest : Text} (ht : IsTagName tag)
    (h : rawContent? tag s = some (content, rest)) :
    IsRawContent tag content ∧ startsClose tag rest = true ∧ rest.head? = some '<' := by
  have head {s : Text} (hs : startsClose tag s = true) : s.head? = some '<' := by
    cases s with
    | nil => simp [startsClose, lower, afterWord?] at hs
    | cons c s =>
      rw [startsClose] at hs
      simp only [lower, List.map_cons] at hs
      by_cases hc : '<' = c.toLower
      · rw [eq_of_toLower_eq (by decide) hc.symm]
        rfl
      · simp [afterWord?, hc] at hs
  induction s generalizing content with
  | nil => cases h
  | cons c s ih =>
    rw [rawContent?] at h
    split at h
    next hs =>
      cases h
      refine ⟨fun q hq hsuf => absurd (List.suffix_nil.1 hsuf) hq, hs, head hs⟩
    next hs =>
      obtain ⟨p, hp, rfl⟩ := extend_eq_some.1 h
      obtain ⟨hraw, hstart, hhead⟩ := ih hp
      refine ⟨fun q hq hsuf => ?_, hstart, hhead⟩
      rcases List.suffix_cons_iff.1 hsuf with rfl | hsuf
      · obtain ⟨u, rfl⟩ : ∃ u, rest = '<' :: u := by
          cases rest with
          | nil => cases hhead
          | cons d u =>
            cases hhead
            exact ⟨u, rfl⟩
        rw [← startsClose_append_angle ht hq u]
        rw [eq_of_rawContent? hp] at hs
        simpa using hs
      · exact hraw q hq hsuf

end MarkupSync
