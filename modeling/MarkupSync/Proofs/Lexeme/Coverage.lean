import MarkupSync.Proofs.Lexeme.Tokenizer

/-!
# Tokens cover the text

Every byte of a part of a text belongs to a token or to a gap between two tokens. In a tag the gaps
hold blanks, equals signs and slashes, elsewhere comments, declarations and instructions.

* `IsSkipped`, `Token.IsGap`: what may stand between two tokens;
* `Token.Claims`: the bytes of a token hold what it says;
* `TokensCover`: tokens and gaps stand one behind the other, without anything between them;
* `covers_of_tagBody`, `covers_openTag`: the attributes of a tag and its tokens;
* `covers_scan`: the tokens of a scan, up to its end or its fault;
* **`Tokenizer.emits_cover`**: reading the tokens of a part ends, and they cover the part.
-/

namespace MarkupSync

open Text

/-! ## Gaps -/

/-- A comment, up to the first end mark behind its start. -/
def IsComment (s : Text) : Prop :=
  ∃ b, s = ['<', '!', '-', '-'] ++ b ++ ['-', '-', '>'] ∧
    ∀ a c, b ++ ['-', '-', '>'] = a ++ ['-', '-', '>'] ++ c → c = []

/-- A declaration. -/
def IsDeclaration (s : Text) : Prop :=
  ∃ c b, s = '<' :: '!' :: c :: b ++ ['>'] ∧ (c.isAlpha = true ∨ c = '[') ∧ '>' ∉ b

/-- A processing instruction. -/
def IsInstruction (s : Text) : Prop := ∃ b, s = '<' :: '?' :: b ++ ['>'] ∧ '>' ∉ b

/-- Comments, declarations and instructions one behind the other. -/
inductive IsSkipped : Text → Prop
  | nil : IsSkipped []
  | cons {p s : Text} (hp : IsComment p ∨ IsDeclaration p ∨ IsInstruction p) (hs : IsSkipped s) :
      IsSkipped (p ++ s)

/-- Blanks, equals signs and slashes. -/
def IsTagGap (s : Text) : Prop := ∀ c ∈ s, isBlank c = true ∨ c = '=' ∨ c = '/'

namespace Token

/-- Tokens that stand in a tag behind its name. -/
def isInTag : Token → Bool
  | attr _ | tagEnd _ => true
  | _ => false

/-- Tokens that leave their tag open. -/
def leavesOpen : Token → Bool
  | openTag _ | attr _ => true
  | _ => false

def isText : Token → Bool
  | text _ => true
  | _ => false

def isRawText : Token → Bool
  | raw _ => true
  | _ => false

/-- What may stand between two tokens, or at an end of the text: in a tag, between the end of a tag
and raw text, and elsewhere. -/
def IsGap (before after : Option Token) (gap : Text) : Prop :=
  if before.any leavesOpen then after.any isInTag = true ∧ IsTagGap gap
  else if after.any isRawText then before = some (.tagEnd false) ∧ gap = []
  else after.any isInTag = false ∧ IsSkipped gap ∧
    (before.any isText = true → after.any isText = true → gap ≠ [])

end Token

/-! ## Tokens -/

/-- The bytes of an attribute hold its name and its value with their quotes. -/
structure RawAttribute.Claims (source : Text) (a : RawAttribute) : Prop where
  name : source.Holds a.nameSpan a.name
  name_ne : a.name ≠ []
  value : ∀ v ∈ a.value, source.Holds v.span (v.quoting.wrap v.text) ∧
    ∃ gap, source.Holds ⟨a.nameSpan.stop, v.span.start⟩ gap ∧ IsTagGap gap

/-- The bytes of a token hold what it says. -/
def Token.Claims (source : Text) (span : Span) : Token → Prop
  | openTag name => source.Holds span ('<' :: name)
  | attr a => a.span = span ∧ a.Claims source
  | tagEnd selfClosing => source.Holds span (tagClose selfClosing)
  | closeTag name => ∃ blanks, (∀ c ∈ blanks, isCloseBlank c = true) ∧
    source.Holds span (['<', '/'] ++ name ++ blanks ++ ['>'])
  | fragmentOpen => source.Holds span ['<', '>']
  | fragmentClose => source.Holds span ['<', '/', '>']
  | text content | raw content | expression content => source.Holds span content

/-- From byte `n`, behind the token `before`, to byte `k` there are the tokens and gaps between
them, and nothing else. -/
def TokensCover (source : Text) : Option Token → Nat → List (Token × Span) → Nat → Prop
  | before, n, [], k => ∃ gap, source.Holds ⟨n, k⟩ gap ∧ Token.IsGap before none gap
  | before, n, (token, span) :: rest, k =>
    (∃ gap, source.Holds ⟨n, span.start⟩ gap ∧ Token.IsGap before (some token) gap) ∧
      span.start < span.stop ∧ token.Claims source span ∧
      TokensCover source (some token) span.stop rest k

variable {flavor : Flavor} {source : Text}

/-- Tokens that cover a range stand in it, one behind the other. -/
theorem TokensCover.inOrder {before : Option Token} {n k : Nat} {tokens : List (Token × Span)}
    (h : TokensCover source before n tokens k) : InOrder n k (tokens.map Prod.snd) := by
  induction tokens generalizing before n with
  | nil =>
    obtain ⟨gap, hgap, -⟩ := h
    exact hgap.le
  | cons x tokens ih =>
    obtain ⟨⟨gap, hgap, -⟩, hspan, -, hrest⟩ := h
    exact ⟨hgap.le, Nat.le_of_lt hspan, ih hrest⟩

theorem TokensCover.forall_mem {before : Option Token} {n k : Nat} {tokens : List (Token × Span)}
    (h : TokensCover source before n tokens k) :
    ∀ x ∈ tokens, x.2.start < x.2.stop ∧ x.1.Claims source x.2 := by
  induction tokens generalizing before n with
  | nil => exact nofun
  | cons x tokens ih =>
    obtain ⟨-, hspan, hclaims, hrest⟩ := h
    exact List.forall_mem_cons.2 ⟨⟨hspan, hclaims⟩, ih hrest⟩

/-! ## Pieces that are skipped -/

/-- A word is cut out where it occurs first. -/
theorem length_le_of_cut? {w s p r : Text} (h : cut? w s = some (p, r)) {a c : Text}
    (hs : s = a ++ w ++ c) : p.length ≤ a.length := by
  induction s generalizing p a with
  | nil =>
    rw [cut?] at h
    split at h <;> cases h
    exact Nat.zero_le _
  | cons d s ih =>
    rw [cut?] at h
    split at h
    · cases h
      exact Nat.zero_le _
    · rename_i hnone
      obtain ⟨p, h', rfl⟩ := extend_eq_some.1 h
      cases a with
      | nil =>
        rw [hs, List.nil_append, afterWord?_append] at hnone
        cases hnone
      | cons e a =>
        obtain ⟨rfl, rfl⟩ := List.cons.inj hs
        exact Nat.succ_le_succ (ih h' rfl)

/-- What is skipped is a comment, a declaration or an instruction, and a close tag is its name and
blanks behind it. -/
def ContentHead.IsWritten : ContentHead → Prop
  | skipped p _ => IsComment p ∨ IsDeclaration p ∨ IsInstruction p
  | closeTag name p _ => ∃ blanks, (∀ c ∈ blanks, isCloseBlank c = true) ∧
    p = ['<', '/'] ++ name ++ blanks ++ ['>']
  | _ => True

theorem isWritten_of_angleHead {s : Text} {k : ContentHead} (h : angleHead s = .ok k) :
    k.IsWritten := by
  revert h
  fun_cases angleHead s with
  | case1 s b r hcut =>
    rintro ⟨⟩
    refine .inl ⟨b, rfl, fun a c hac => ?_⟩
    have hs := eq_of_cut?_eq_some hcut
    have hle := length_le_of_cut? hcut (a := a) (c := c ++ r) (by rw [hs, hac, List.append_assoc])
    have hlength := congrArg List.length hac
    simp only [List.length_append] at hlength
    exact List.length_eq_zero_iff.1 (by omega)
  | case3 c s _ hc =>
    rw [skipTo]
    split
    next b r hcut =>
      rintro ⟨⟩
      exact .inr (.inl ⟨c, b, rfl, by simpa using hc, not_mem_of_cut?_eq_some hcut⟩)
    next => rintro ⟨⟩
  | case5 s =>
    rw [skipTo]
    split
    next b r hcut =>
      rintro ⟨⟩
      exact .inr (.inr ⟨b, rfl, not_mem_of_cut?_eq_some hcut⟩)
    next => rintro ⟨⟩
  | case7 c s =>
    simp only [closeHead]
    split
    · rintro ⟨⟩
      exact ⟨_, fun d hd => List.mem_takeWhile_imp hd, rfl⟩
    · rintro ⟨⟩
  | case2 => rintro ⟨⟩
  | _ =>
    rintro ⟨⟩
    trivial

theorem isWritten_of_contentHead {s : Text} {k : ContentHead}
    (h : contentHead flavor s = .ok (some k)) : k.IsWritten := by
  revert h
  fun_cases contentHead flavor s
  case case1 => rintro ⟨⟩
  case case2 u =>
    intro h
    cases ha : angleHead u with
    | error e =>
      rw [ha] at h
      cases h
    | ok k' =>
      rw [ha] at h
      cases h
      exact isWritten_of_angleHead ha
  all_goals
    rintro ⟨⟩
    trivial

/-- Only at the end of a text nothing stands. -/
theorem nil_of_contentHead {s : Text} (h : contentHead flavor s = .ok none) : s = [] := by
  revert h
  fun_cases contentHead flavor s
  case case1 => exact fun _ => rfl
  case case2 u =>
    intro h
    cases ha : angleHead u <;> rw [ha] at h <;> cases h
  all_goals rintro ⟨⟩

/-! ## Tags -/

theorem isTagGap_nil : IsTagGap [] := by rintro c ⟨⟩

theorem IsTagGap.append {s t : Text} (hs : IsTagGap s) (ht : IsTagGap t) : IsTagGap (s ++ t) :=
  fun c hc => (List.mem_append.1 hc).elim (hs c) (ht c)

theorem isTagGap_singleton {c : Char} (hc : isBlank c = true ∨ c = '=' ∨ c = '/') :
    IsTagGap [c] := by
  rintro d hd
  rwa [List.mem_singleton.1 hd]

/-- In front of a text that stands somewhere stands the empty text. -/
theorem Text.Holds.nil {s : Text} {n k : Nat} (h : source.Holds ⟨n, k⟩ s) :
    source.Holds ⟨n, n⟩ [] := Holds.left (t := []) h

/-- A text that is not empty takes bytes. -/
theorem Text.Holds.lt {s : Text} {r : Span} (h : source.Holds r s) (hs : s ≠ []) :
    r.start < r.stop := by
  rw [h.stop_eq]
  exact Nat.lt_add_of_pos_right (Nat.pos_of_ne_zero (mt width_eq_zero.1 hs))

/-- An attribute starts with its name. -/
theorem RawAttribute.start_span (a : RawAttribute) : a.span.start = a.nameSpan.start := by
  rw [RawAttribute.span]
  cases a.value <;> rfl

theorem RawAttribute.Claims.lt {a : RawAttribute} (h : a.Claims source) :
    a.span.start < a.span.stop := by
  have hname := h.name.lt h.name_ne
  have hvalue := h.value
  rw [RawAttribute.span]
  cases hv : a.value with
  | none => exact hname
  | some v =>
    obtain ⟨htext, gap, hgap, -⟩ := hvalue v hv
    exact Nat.lt_of_lt_of_le hname (Nat.le_trans hgap.le htext.le)

/-- Tokens start and stop between two characters. -/
theorem Token.Claims.isRange {token : Token} {span region : Span} (h : token.Claims source span)
    (hspan : span.start ≤ span.stop) (hregion : span.Within region) :
    source.IsRange region span := by
  cases token with
  | attr a =>
    obtain ⟨rfl, hname, -, hvalue⟩ := h
    refine ⟨hregion, hspan, a.start_span ▸ hname.boundary_start, ?_⟩
    rw [RawAttribute.span]
    cases hv : a.value with
    | none => exact hname.boundary_stop
    | some v => exact (hvalue v hv).1.boundary_stop
  | closeTag name =>
    obtain ⟨blanks, -, h⟩ := h
    exact h.isRange hregion
  | _ => exact Text.Holds.isRange h hregion

/-- From byte `n` to byte `k` there are the attributes and the gaps of a tag between them. -/
def AttrsCover (source : Text) : Nat → List RawAttribute → Nat → Prop
  | n, [], k => ∃ gap, source.Holds ⟨n, k⟩ gap ∧ IsTagGap gap
  | n, a :: as, k =>
    (∃ gap, source.Holds ⟨n, a.span.start⟩ gap ∧ IsTagGap gap) ∧ a.Claims source ∧
      AttrsCover source a.span.stop as k

/-- What waits in front of byte `n` is a name that stands there, with a gap behind it. -/
def Waiting.Claims (source : Text) (n : Nat) : Waiting → Prop
  | nothing => True
  | value name span | valueAfterEquals name span =>
    name ≠ [] ∧ source.Holds span name ∧ ∃ gap, source.Holds ⟨span.stop, n⟩ gap ∧ IsTagGap gap

section Tags

variable {s p r content : Text} {quoting : Quoting} {n m k : Nat} {w w' : Waiting}
  {as bs done : List RawAttribute}

theorem AttrsCover.append (h : AttrsCover source n as m) (h' : AttrsCover source m bs k) :
    AttrsCover source n (as ++ bs) k := by
  induction as generalizing n with
  | nil =>
    obtain ⟨gap, hgap, hchars⟩ := h
    cases bs with
    | nil =>
      obtain ⟨gap', hgap', hchars'⟩ := h'
      exact ⟨gap ++ gap', hgap.append hgap', hchars.append hchars'⟩
    | cons b bs =>
      obtain ⟨⟨gap', hgap', hchars'⟩, hrest⟩ := h'
      exact ⟨⟨gap ++ gap', hgap.append hgap', hchars.append hchars'⟩, hrest⟩
  | cons a as ih => exact ⟨h.1, h.2.1, ih h.2.2⟩

/-- An attribute that stands where its name starts. -/
theorem AttrsCover.single {a : RawAttribute} (hclaims : a.Claims source) (hstart : a.span.start = n)
    (hstop : ∃ gap, source.Holds ⟨a.span.stop, k⟩ gap ∧ IsTagGap gap) :
    AttrsCover source n [a] k := by
  refine ⟨⟨[], ?_, isTagGap_nil⟩, hclaims, hstop⟩
  rw [← hstart, a.start_span]
  exact Text.Holds.nil (k := a.nameSpan.stop) hclaims.name

/-- An attribute without a value stands where its name stands. -/
theorem covers_valueless (hw : w.Claims source n) (hs : source.Holds ⟨n, k⟩ s) :
    AttrsCover source (w.start n) w.valueless n := by
  cases w with
  | nothing => exact ⟨[], hs.nil, isTagGap_nil⟩
  | value name span | valueAfterEquals name span =>
    obtain ⟨hne, hname, hgap⟩ := hw
    exact .single ⟨hname, hne, by rintro v ⟨⟩⟩ rfl hgap

/-- A piece of a tag that is no part of an attribute, nor the end of the tag, is a gap. -/
theorem isTagGap_of_tagHead? {h : TagHead} (hs : tagHead? flavor s = some h) :
    match h with
    | .blank p _ | .equals p _ | .slash p _ => IsTagGap p
    | _ => True := by
  have hwritten := isWritten_of_tagHead? hs
  cases h with
  | blank p =>
    obtain ⟨c, hc, rfl⟩ := hwritten
    exact isTagGap_singleton (.inl hc)
  | equals p =>
    obtain rfl : p = ['='] := hwritten
    exact isTagGap_singleton (by decide)
  | slash p =>
    obtain rfl : p = ['/'] := hwritten
    exact isTagGap_singleton (by decide)
  | _ => trivial

/-- What a value completes covers the tag up to what waits behind it. -/
theorem covers_take (hw : w.Claims source n) (hs : source.Holds ⟨n, k⟩ s)
    (hhead : tagHead? flavor s = some (.value quoting content p r))
    (ht : w.take quoting content p n = .ok (done, w')) :
    AttrsCover source (w.start n) done (w'.start (n + width p)) ∧
      w'.Claims source (n + width p) := by
  obtain ⟨hwrap, -⟩ : p = quoting.wrap content ∧ _ := isWritten_of_tagHead? hhead
  have hne : p ≠ [] := (eq_of_tagHead? hhead).2
  obtain rfl : s = p ++ r := (eq_of_tagHead? hhead).1
  have hp : source.Holds ⟨n, n + width p⟩ p := hs.left
  have hbehind : ∃ gap, source.Holds ⟨n + width p, n + width p⟩ gap ∧ IsTagGap gap :=
    ⟨[], hs.right.nil, isTagGap_nil⟩
  cases w with
  | valueAfterEquals name span =>
    cases ht
    obtain ⟨hname_ne, hname, hgap⟩ := hw
    refine ⟨.single ⟨hname, hname_ne, ?_⟩ rfl hbehind, trivial⟩
    rintro v ⟨⟩
    exact ⟨hwrap ▸ hp, hgap⟩
  | nothing | value =>
    have hvalueless := covers_valueless hw hs
    cases quoting with
    | double | single => cases ht
    | bare =>
      cases ht
      exact ⟨hvalueless, hne, hp, hbehind⟩
    | braces =>
      cases ht
      exact ⟨hvalueless.append (.single ⟨hp, hne, by rintro v ⟨⟩⟩ rfl hbehind), trivial⟩

/-- A gap does not end the waiting. -/
theorem Waiting.Claims.skip (hw : w.Claims source n) (hs : source.Holds ⟨n, m⟩ p)
    (hp : IsTagGap p) : w.Claims source m := by
  cases w with
  | nothing => trivial
  | value | valueAfterEquals =>
    obtain ⟨hne, hname, gap, hgap, hchars⟩ := hw
    exact ⟨hne, hname, gap ++ p, hgap.append hs, hchars.append hp⟩

/-- A gap belongs to what waits in front of it, or to the tag. -/
theorem AttrsCover.skip (h : AttrsCover source (w.start m) as k) (hs : source.Holds ⟨n, m⟩ p)
    (hp : IsTagGap p) : AttrsCover source (w.start n) as k := by
  cases w with
  | nothing =>
    have hgap : AttrsCover source n [] m := ⟨p, hs, hp⟩
    exact hgap.append h
  | value | valueAfterEquals => exact h

/-- **The attributes of a tag cover it** up to its end. -/
theorem covers_of_tagBody {b : TagBody} (h : tagBody flavor n w s = .ok b)
    (hs : source.Holds ⟨n, k⟩ s) (hw : w.Claims source n) :
    AttrsCover source (w.start n) b.attributes b.closing.start ∧
      source.Holds b.closing (tagClose b.selfClosing) := by
  fun_induction tagBody flavor n w s generalizing b with
  | case1 | case6 | case7 => cases h
  | case2 n w s piece r ht ih | case3 n w s piece r ht ih =>
    obtain ⟨hpiece, hr⟩ := holds_of_tagHead? hs ht
    have hgap : IsTagGap piece := isTagGap_of_tagHead? ht
    obtain ⟨hcover, hclosing⟩ := ih h hr (hw.skip hpiece hgap)
    exact ⟨hcover.skip hpiece hgap, hclosing⟩
  | case4 n w s selfClosing piece r ht =>
    cases h
    obtain rfl : piece = tagClose selfClosing := isWritten_of_tagHead? ht
    exact ⟨covers_valueless hw hs, (holds_of_tagHead? hs ht).1⟩
  | case5 n s piece r ht name span ih =>
    obtain ⟨hpiece, hr⟩ := holds_of_tagHead? hs ht
    have hgap : IsTagGap piece := isTagGap_of_tagHead? ht
    exact ih h hr (Waiting.Claims.skip (w := .value name span) hw hpiece hgap)
  | case8 n w s quoting content piece r ht done w' hw' ih =>
    cases hb : tagBody flavor (n + width piece) w' r with
    | error e => rw [hb] at h; cases h
    | ok b =>
      rw [hb] at h
      cases h
      obtain ⟨hdone, hwaiting⟩ := covers_take hw hs ht hw'
      obtain ⟨hcover, hclosing⟩ := ih hb (holds_of_tagHead? hs ht).2 hwaiting
      exact ⟨hdone.append hcover, hclosing⟩

/-- The tokens of attributes cover what the attributes cover. -/
theorem AttrsCover.covers (before : Token) {rest : List (Token × Span)} {closing : Span}
    {selfClosing : Bool} (h : AttrsCover source n as closing.start)
    (hbefore : before.leavesOpen = true) (hclosing : source.Holds closing (tagClose selfClosing))
    (hrest : TokensCover source (some (.tagEnd selfClosing)) closing.stop rest k) :
    TokensCover source (some before) n
      (as.map (fun a => (.attr a, a.span)) ++ (.tagEnd selfClosing, closing) :: rest) k := by
  induction as generalizing n before with
  | nil =>
    obtain ⟨gap, hgap, hchars⟩ := h
    refine ⟨⟨gap, hgap, ?_⟩, hclosing.lt ?_, hclosing, hrest⟩
    · rw [Token.IsGap, Option.any_some, if_pos hbefore]
      exact ⟨rfl, hchars⟩
    · cases selfClosing <;> decide
  | cons a as ih =>
    obtain ⟨⟨gap, hgap, hchars⟩, hclaims, has⟩ := h
    refine ⟨⟨gap, hgap, ?_⟩, hclaims.lt, ⟨rfl, hclaims⟩, ih _ has rfl⟩
    rw [Token.IsGap, Option.any_some, if_pos hbefore]
    exact ⟨rfl, hchars⟩

/-- **The tokens of an open tag cover it.** -/
theorem covers_openTag {name : Text} {t : OpenTag} {stop : Nat} {rest : List (Token × Span)}
    (h : openTag flavor n name s = .ok (t, stop, r)) (hs : source.Holds ⟨n, k⟩ ('<' :: name ++ s))
    (hrest : ∀ before : Token, before.leavesOpen = false → before.isText = false →
      TokensCover source (some before) stop rest m) :
    TokensCover source (some (.openTag name)) (n + width ('<' :: name)) (t.tokens.tail ++ rest)
      m := by
  have hname := hs.right
  rw [width_cons, show '<'.utf8Size = 1 from rfl, ← Nat.add_assoc] at hname ⊢
  simp only [openTag] at h
  split at h
  · cases h
  next b hb =>
    obtain ⟨hattrs, hclosing⟩ := covers_of_tagBody hb hname trivial
    obtain ⟨-, -, -, hbehind⟩ := stands_of_tagBody hb hname trivial
    have hattrs : AttrsCover source (n + 1 + width name) b.attributes b.closing.start := hattrs
    split at h
    next hself =>
      obtain ⟨⟨hself, -⟩, -⟩ : (b.selfClosing = false ∧ _) ∧ _ := by simpa using hself
      rw [hself] at hclosing
      split at h
      · cases h
      next content u hraw =>
        cases h
        rw [eq_of_rawContent? hraw] at hbehind
        have hcontent := hbehind.left
        by_cases hempty : content = []
        · rw [hempty, width_nil, Nat.add_zero] at hrest
          simpa [OpenTag.tokens, hempty] using
            hattrs.covers (.openTag name) rfl hclosing (hrest (.tagEnd false) rfl rfl)
        · have hraw : TokensCover source (some (.tagEnd false)) b.closing.stop
              ((.raw content, ⟨b.closing.stop, b.closing.stop + width content⟩) :: rest) m :=
            ⟨⟨[], hcontent.nil, rfl, rfl⟩, hcontent.lt hempty, hcontent,
              hrest (.raw content) rfl rfl⟩
          simpa [OpenTag.tokens, hempty] using hattrs.covers (.openTag name) rfl hclosing hraw
    · cases h
      simpa [OpenTag.tokens] using
        hattrs.covers (.openTag name) rfl hclosing (hrest (.tagEnd b.selfClosing) rfl rfl)

end Tags

/-! ## Scans -/

/-- The byte up to which a text that ends at byte `k` has been read. -/
def reached (fault : Option ParseError) (k : Nat) : Nat :=
  match fault with
  | none => k
  | some e => e.position

theorem IsSkipped.concat {s p : Text} (hs : IsSkipped s)
    (hp : IsComment p ∨ IsDeclaration p ∨ IsInstruction p) : IsSkipped (s ++ p) := by
  induction hs with
  | nil => simpa using IsSkipped.cons hp .nil
  | cons hq _ ih =>
    rw [List.append_assoc]
    exact .cons hq ih

section Scan

variable {before : Option Token} {gap s : Text} {n m k : Nat}

/-- Between two tokens outside of tags. -/
theorem isGap_outside {after : Option Token} (hbefore : before.any Token.leavesOpen = false)
    (hafter : after.any (fun t => t.isInTag || t.isRawText) = false) (hgap : IsSkipped gap)
    (htext : before.any Token.isText = true → after.any Token.isText = true → gap ≠ []) :
    Token.IsGap before after gap := by
  rw [Token.IsGap, if_neg (by simp [hbefore]), if_neg]
  · refine ⟨?_, hgap, htext⟩
    cases after <;> simp_all
  · cases after <;> simp_all

/-- **The tokens of a scan cover its text**, up to its end or its fault. -/
theorem covers_scan (hs : source.Holds ⟨n, k⟩ s) (hbefore : before.any Token.leavesOpen = false)
    (hgap : source.Holds ⟨m, n⟩ gap) (hskip : IsSkipped gap)
    (htext : before.any Token.isText = true → gap = [] →
      ∀ p r, contentHead flavor s ≠ .ok (some (.plain p r))) :
    TokensCover source before m (scan flavor n s).tokens (reached (scan flavor n s).fault k) := by
  -- one token in front of the others
  have single (token : Token) {before : Option Token} {gap : Text} {n m stop : Nat} {l : Lexeme}
      {r : Scan} (hbefore : before.any Token.leavesOpen = false)
      (hgap : source.Holds ⟨m, n⟩ gap) (hskip : IsSkipped gap)
      (hl : l.tokens = [(token, ⟨n, stop⟩)]) (hlt : n < stop)
      (hclaims : token.Claims source ⟨n, stop⟩)
      (htoken : (token.isInTag || token.isRawText) = false)
      (htext : before.any Token.isText = true → token.isText = true → gap ≠ [])
      (hr : TokensCover source (some token) stop r.tokens (reached r.fault k)) :
      TokensCover source before m (r.cons l).tokens (reached (r.cons l).fault k) := by
    have htokens : (r.cons l).tokens = (token, ⟨n, stop⟩) :: r.tokens := by
      rw [Scan.tokens, Scan.cons, List.flatMap_cons, hl]
      rfl
    rw [htokens]
    exact ⟨⟨gap, hgap, isGap_outside hbefore htoken hskip htext⟩, hlt, hclaims, hr⟩
  fun_induction scan flavor n s generalizing before m gap with
  | case1 n s fault hc | case4 n s name p r hc fault ht =>
    exact ⟨gap, hgap, isGap_outside hbefore rfl hskip (by rintro - ⟨⟩)⟩
  | case2 n s hc =>
    rw [nil_of_contentHead hc] at hs
    exact ⟨gap, List.append_nil gap ▸ hgap.append hs, isGap_outside hbefore rfl hskip
      (by rintro - ⟨⟩)⟩
  | case3 n s p r hc ih =>
    obtain ⟨hp, hr⟩ := holds_of_contentHead hs hc
    have hpiece : gap ++ p ≠ [] := List.append_ne_nil_of_right_ne_nil _ (eq_of_contentHead hc).2
    exact ih hr hbefore (hgap.append hp) (hskip.concat (isWritten_of_contentHead hc))
      (fun _ h => absurd h hpiece)
  | case5 n s name p r hc t stop rest ht ih =>
    obtain ⟨rfl, -⟩ := name_of_contentHead hc
    rw [(eq_of_contentHead hc).1] at hs
    have hname : source.Holds ⟨n, n + width ('<' :: name)⟩ ('<' :: name) := hs.left
    have hrest := (stands_of_openTag ht hs).2.2.2
    have htokens : (Scan.cons (.openTag t) (scan flavor stop rest)).tokens =
        (.openTag name, ⟨n, n + width ('<' :: name)⟩) ::
          (t.tokens.tail ++ (scan flavor stop rest).tokens) := by
      rw [← List.cons_append, ← Tokenizer.tokens_of_openTag ht]
      rfl
    rw [htokens]
    refine ⟨⟨gap, hgap, isGap_outside hbefore rfl hskip (by rintro - ⟨⟩)⟩,
      hname.lt (List.cons_ne_nil _ _), hname, covers_openTag ht hs fun token hopen hplain => ?_⟩
    exact ih hrest (by simpa using hopen) hrest.nil .nil (by simp [hplain])
  | case6 n s name p r hc =>
    rename_i stop ih
    obtain ⟨hp, hr⟩ := holds_of_contentHead hs hc
    have hne : p ≠ [] := (eq_of_contentHead hc).2
    have hblanks : ∃ blanks, (∀ c ∈ blanks, isCloseBlank c = true) ∧
        p = ['<', '/'] ++ name ++ blanks ++ ['>'] := isWritten_of_contentHead hc
    obtain ⟨blanks, hblanks, hname⟩ := hblanks
    exact single (.closeTag name) hbefore hgap hskip rfl (hp.lt hne)
      ⟨blanks, hblanks, hname ▸ hp⟩ rfl (by rintro - ⟨⟩)
      (ih hr rfl hr.nil .nil (by rintro ⟨⟩))
  | case7 n s p r hc =>
    rename_i stop ih
    obtain ⟨hp, hr⟩ := holds_of_contentHead hs hc
    have hexact : p = ['<', '>'] := isExact_of_contentHead hc
    have hclaims : source.Holds ⟨n, stop⟩ ['<', '>'] := by
      rw [← hexact]
      exact hp
    exact single .fragmentOpen hbefore hgap hskip rfl (hp.lt (eq_of_contentHead hc).2)
      hclaims rfl (by rintro - ⟨⟩) (ih hr rfl hr.nil .nil (by rintro ⟨⟩))
  | case8 n s p r hc =>
    rename_i stop ih
    obtain ⟨hp, hr⟩ := holds_of_contentHead hs hc
    have hexact : p = ['<', '/', '>'] := isExact_of_contentHead hc
    have hclaims : source.Holds ⟨n, stop⟩ ['<', '/', '>'] := by
      rw [← hexact]
      exact hp
    exact single .fragmentClose hbefore hgap hskip rfl (hp.lt (eq_of_contentHead hc).2)
      hclaims rfl (by rintro - ⟨⟩) (ih hr rfl hr.nil .nil (by rintro ⟨⟩))
  | case9 n s p r hc =>
    rename_i stop ih
    obtain ⟨hp, hr⟩ := holds_of_contentHead hs hc
    exact single (.expression p) hbefore hgap hskip rfl (hp.lt (eq_of_contentHead hc).2)
      hp rfl (by rintro - ⟨⟩) (ih hr rfl hr.nil .nil (by rintro ⟨⟩))
  | case10 n s p r hc =>
    rename_i run content stop ih
    have hne : content ≠ [] := List.append_ne_nil_of_left_ne_nil (eq_of_contentHead hc).2 _
    have hs' := hs
    rw [eq_append_textRun hc] at hs'
    exact single (.text content) hbefore hgap hskip rfl (hs'.left.lt hne) hs'.left rfl
      (fun hbefore _ hempty => htext hbefore hempty p r hc)
      (ih hs'.right rfl hs'.right.nil .nil fun _ _ => contentHead_textRun r)

/-- A fault lies in the text. -/
theorem reached_le (hs : source.Holds ⟨n, k⟩ s) : reached (scan flavor n s).fault k ≤ k := by
  fun_induction scan flavor n s with
  | case1 | case4 => exact hs.le
  | case2 => exact Nat.le_refl k
  | case3 n s p r hc ih => exact ih (holds_of_contentHead hs hc).2
  | case5 n s name p r hc t stop u ht ih =>
    obtain ⟨rfl, -⟩ := name_of_contentHead hc
    rw [(eq_of_contentHead hc).1] at hs
    exact ih (stands_of_openTag ht hs).2.2.2
  | case6 n s _ p r hc stop ih | case7 n s p r hc stop ih | case8 n s p r hc stop ih
  | case9 n s p r hc stop ih => exact ih (holds_of_contentHead hs hc).2
  | case10 n s p r hc run content stop ih =>
    rw [eq_append_textRun hc] at hs
    exact ih hs.right

end Scan

/-- **Reading the tokens of a part of a text ends, and they cover the part**: they hold what they
say, stand in it one behind the other, and between them there are only gaps, up to the end of the
part or to a fault. -/
theorem Tokenizer.emits_cover (flavor : Flavor) (p m q : Text) :
    let source := p ++ m ++ q
    let region : Span := ⟨width p, width p + width m⟩
    ∃ tokens fault, (bounded flavor region source).Emits tokens fault ∧
      (∀ x ∈ tokens, x.2.start < x.2.stop ∧ source.IsRange region x.2 ∧ x.1.Claims source x.2) ∧
      tokens.Pairwise (fun x y => x.2.stop ≤ y.2.start) ∧
      TokensCover source none region.start tokens (reached fault region.stop) := by
  intro source region
  have hholds : source.Holds region m := ⟨p, q, rfl, rfl⟩
  have hemits := emits_scan flavor hholds
  have hcovers : TokensCover source none region.start (scan flavor (width p) m).tokens
      (reached (scan flavor (width p) m).fault region.stop) :=
    covers_scan hholds rfl hholds.nil .nil (by rintro ⟨⟩)
  have horder := hcovers.inOrder
  refine ⟨_, _, ?_, fun x hx => ?_, ?_, hcovers⟩
  · rw [bounded, Nat.min_eq_left hholds.stop_le]
    exact hemits
  · obtain ⟨hlt, hclaims⟩ := hcovers.forall_mem x hx
    obtain ⟨hstart, hle, hstop⟩ := horder.of_mem (List.mem_map_of_mem hx)
    exact ⟨hlt, hclaims.isRange hle ⟨hstart, Nat.le_trans hstop (reached_le hholds)⟩, hclaims⟩
  · exact List.pairwise_map.1 horder.pairwise

end MarkupSync
