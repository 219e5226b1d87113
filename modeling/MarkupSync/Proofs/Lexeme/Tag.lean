import Mathlib.Data.List.Basic
import MarkupSync.Lexeme.Scan
import MarkupSync.Proofs.Lexeme.Angle
import MarkupSync.Proofs.Text.Trim

/-!
# Open tags as they are written

* `TagSource`, `AttrSource`, `ValueSource`: an open tag with its blanks and quotes;
* `TagSource.IsValid`: tags whose attributes have different names and blanks in front;
* `tagBody_source`: the attributes of a tag are read one after another;
* **`openTag_source`**, `openTag_rawSource`: a valid tag is read as it was written.
-/

namespace MarkupSync

open Text

/-! ## Values, attributes, tags -/

/-- A value as it is written, with its quotes. -/
def Quoting.wrap : Quoting → Text → Text
  | double, s => '"' :: s ++ ['"']
  | single, s => '\'' :: s ++ ['\'']
  | bare, s => s
  | braces, s => '\x7b' :: s ++ ['\x7d']

/-- What can stand in a value as it is written. -/
def Quoting.Admits : Quoting → Text → Prop
  | double, s => '"' ∉ s
  | single, s => '\'' ∉ s
  | bare, s => s ≠ [] ∧ s.all isWordChar
  | braces, _ => False

/-- An attribute value with the blanks on both sides of its equals sign. -/
structure ValueSource where
  front : Text
  back : Text
  quoting : Quoting
  text : Text

namespace ValueSource

/-- The value with its quotes. -/
def quoted (v : ValueSource) : Text := v.quoting.wrap v.text

/-- The equals sign and the value. -/
def source (v : ValueSource) : Text := v.front ++ '=' :: v.back ++ v.quoted

/-- The blanks are blank and the value can be read as it is written. -/
structure IsValid (v : ValueSource) : Prop where
  front : IsBlankText v.front
  back : IsBlankText v.back
  text : v.quoting.Admits v.text

end ValueSource

/-- An attribute with the blanks in front of it. -/
structure AttrSource where
  blanks : Text
  name : Text
  value : Option ValueSource

namespace AttrSource

/-- The text of an attribute. -/
def source (a : AttrSource) : Text :=
  a.blanks ++ a.name ++
    match a.value with
    | none => []
    | some v => v.source

/-- There are blanks in front, the name is a word and the value is valid. -/
structure IsValid (a : AttrSource) : Prop where
  blanks_ne : a.blanks ≠ []
  blanks : IsBlankText a.blanks
  name_ne : a.name ≠ []
  name : a.name.all isWordChar = true
  value : ∀ v ∈ a.value, v.IsValid

/-- Whether the last characters of an attribute are a word, which must not go on behind it. -/
def endsInWord (a : AttrSource) : Bool :=
  match a.value with
  | none => true
  | some v => v.quoting == .bare

/-- The attribute that is read, if its blanks start at byte `n`. -/
def raw (n : Nat) (a : AttrSource) : RawAttribute :=
  let start := n + width a.blanks
  let stop := start + width a.name
  ⟨a.name, ⟨start, stop⟩, a.value.map fun v =>
    let start := stop + width v.front + 1 + width v.back
    ⟨v.text, ⟨start, start + width v.quoted⟩, v.quoting⟩⟩

/-- The attributes that are read, if they start at byte `n`. -/
def raws (n : Nat) : List AttrSource → List RawAttribute
  | [] => []
  | a :: as => a.raw n :: raws (n + width a.source) as

end AttrSource

/-- An open tag. -/
structure TagSource where
  name : Text
  attributes : List AttrSource
  blanks : Text
  selfClosing : Bool

/-- A name of a tag: a letter and name characters. -/
def IsTagName : Text → Prop
  | [] => False
  | c :: s => isNameStart c = true ∧ s.all isNameChar = true

/-- The end of an open tag. -/
def tagClose (selfClosing : Bool) : Text := if selfClosing then ['/', '>'] else ['>']

namespace TagSource

/-- The tag behind its name. -/
def body (g : TagSource) : Text :=
  g.attributes.flatMap AttrSource.source ++ (g.blanks ++ tagClose g.selfClosing)

/-- The text of a tag. -/
def source (g : TagSource) : Text := '<' :: g.name ++ g.body

/-- The attributes are valid and have different names. -/
structure IsValid (g : TagSource) : Prop where
  name : IsTagName g.name
  attributes : ∀ a ∈ g.attributes, a.IsValid
  nodup : (g.attributes.map AttrSource.name).Nodup
  blanks : IsBlankText g.blanks

/-- The tag that is read, if it starts at byte `n`. -/
def openTag (g : TagSource) (n : Nat) (raw : Option (Text × Span)) : OpenTag :=
  let stop := n + 1 + width g.name
  let close := stop + width (g.attributes.flatMap AttrSource.source) + width g.blanks
  ⟨g.name, ⟨n, stop⟩, AttrSource.raws stop g.attributes, ⟨close, close + width (tagClose g.selfClosing)⟩,
    g.selfClosing, raw⟩

theorem openTag_closing_stop (g : TagSource) (n : Nat) (raw : Option (Text × Span)) :
    (g.openTag n raw).closing.stop = n + width g.source := by
  have : '<'.utf8Size = 1 := rfl
  simp [openTag, source, body, this]
  omega

end TagSource

/-! ## Pieces of tags -/

/-- Blanks and slashes, which mean nothing between the attributes of a tag. -/
def IsFiller (s : Text) : Prop := ∀ c ∈ s, isBlank c = true ∨ c = '/'

theorem Text.IsBlankText.isFiller {s : Text} (h : IsBlankText s) : IsFiller s := fun c hc =>
  .inl (h c hc)

section TagHead

variable {flavor : Flavor} {c : Char} {s w : Text}

theorem tagHead?_blank (hc : isBlank c = true) : tagHead? flavor (c :: s) = some (.blank [c] s) := by
  simp only [isBlank, Bool.or_eq_true, beq_iff_eq] at hc
  rcases hc with (((rfl | rfl) | rfl) | rfl) | rfl <;> rfl

theorem tagHead?_slash (hs : s.head? ≠ some '>') :
    tagHead? flavor ('/' :: s) = some (.slash ['/'] s) := by
  rw [tagHead?]
  rintro u rfl
  exact hs rfl

/-- A character that is not part of a word. -/
theorem isWordChar_of_isBlank (hc : isBlank c = true) : isWordChar c = false := by
  simp [isWordChar, hc]

theorem IsFiller.isWordChar {f : Text} (h : IsFiller f) : ∀ c ∈ f, isWordChar c = false := by
  intro c hc
  obtain hc | rfl := h c hc
  · exact isWordChar_of_isBlank hc
  · decide

theorem not_isBlank_of_isWordChar (h : isWordChar c = true) : isBlank c = false := by
  by_contra hb
  rw [isWordChar_of_isBlank (Bool.not_eq_false _ ▸ hb)] at h
  cases h

theorem endsInk_of_isWordChar (h : s.all isWordChar = true) : EndsInk s :=
  fun c hc => not_isBlank_of_isWordChar (List.all_eq_true.1 h c (List.mem_of_getLast? hc))

theorem tagHead?_word (hn : w ≠ []) (hw : w.all isWordChar = true)
    (hs : ∀ c ∈ s.head?, isWordChar c = false) :
    tagHead? flavor (w ++ s) = some (.value .bare w w s) := by
  cases w with
  | nil => exact absurd rfl hn
  | cons c w =>
    simp only [List.all_cons, Bool.and_eq_true] at hw
    have hc := hw.1
    simp only [isWordChar, Bool.not_eq_true', Bool.or_eq_false_iff, beq_eq_false_iff_ne] at hc
    obtain ⟨⟨⟨⟨⟨⟨⟨⟨⟨hblank, h1⟩, h2⟩, h3⟩, h4⟩, h5⟩, h6⟩, h7⟩, h8⟩, h9⟩ := hc
    have htake := takeWhile_append_of_stop hw.2 hs
    have hdrop := dropWhile_append_of_stop hw.2 hs
    simp [tagHead?, hblank, h6, h7, htake, hdrop, hw.1]

theorem tagHead?_quoted {q : Quoting} {t : Text} (hq : q = .double ∨ q = .single)
    (ht : q.Admits t) (s : Text) :
    tagHead? flavor (q.wrap t ++ s) = some (.value q t (q.wrap t) s) := by
  rcases hq with rfl | rfl
  · have := cut?_singleton_append ht s
    simp [Quoting.wrap, tagHead?, quotedHead?, this]
  · have := cut?_singleton_append ht s
    simp [Quoting.wrap, tagHead?, quotedHead?, this]

end TagHead

/-! ## Attributes one after another -/

section TagBody

variable {flavor : Flavor} {n : Nat} {w : Waiting} {s p r : Text}

theorem tagBody_blank (h : tagHead? flavor s = some (.blank p r)) :
    tagBody flavor n w s = tagBody flavor (n + width p) w r := by
  rw [tagBody]
  split <;> simp_all

theorem tagBody_slash (h : tagHead? flavor s = some (.slash p r)) :
    tagBody flavor n w s = tagBody flavor (n + width p) w r := by
  rw [tagBody]
  split <;> simp_all

theorem tagBody_close {selfClosing : Bool} (h : tagHead? flavor s = some (.close selfClosing p r)) :
    tagBody flavor n w s = .ok ⟨w.valueless, ⟨n, n + width p⟩, selfClosing, r⟩ := by
  rw [tagBody]
  split <;> simp_all

theorem tagBody_equals {name : Text} {span : Span} (h : tagHead? flavor s = some (.equals p r)) :
    tagBody flavor n (.value name span) s =
      tagBody flavor (n + width p) (.valueAfterEquals name span) r := by
  rw [tagBody]
  split <;> simp_all

theorem tagBody_value {q : Quoting} {content : Text} {done : List RawAttribute} {w' : Waiting}
    (h : tagHead? flavor s = some (.value q content p r)) (hw : w.take q content p n = .ok (done, w')) :
    tagBody flavor n w s = (tagBody flavor (n + width p) w' r).map (·.withFirst done) := by
  rw [tagBody]
  split <;> simp_all

/-- Filler in a tag is skipped, unless a slash at its end is the start of the end of the tag. -/
theorem tagBody_filler {f : Text} (hf : IsFiller f)
    (hs : f.getLast? = some '/' → s.head? ≠ some '>') (n : Nat) (w : Waiting) :
    tagBody flavor n w (f ++ s) = tagBody flavor (n + width f) w s := by
  induction f generalizing n with
  | nil => rfl
  | cons c f ih =>
    obtain ⟨hc, hrest⟩ := List.forall_mem_cons.1 hf
    have hlast : f.getLast? = some '/' → s.head? ≠ some '>' := by
      intro h
      refine hs ?_
      rw [List.getLast?_cons, h]
      rfl
    rw [width_cons, ← Nat.add_assoc, ← ih hrest hlast]
    obtain hc | rfl := hc
    · exact tagBody_blank (tagHead?_blank hc)
    · refine tagBody_slash (tagHead?_slash ?_)
      cases f with
      | nil => exact hs rfl
      | cons d f =>
        rintro ⟨⟩
        exact absurd (hrest '>' List.mem_cons_self) (by decide)

/-- Blanks in a tag are skipped. -/
theorem tagBody_blanks {b : Text} (hb : IsBlankText b) (n : Nat) (w : Waiting) (s : Text) :
    tagBody flavor n w (b ++ s) = tagBody flavor (n + width b) w s := by
  refine tagBody_filler hb.isFiller (fun h => ?_) n w
  exact absurd (hb '/' (List.mem_of_getLast? h)) (by decide)

/-- A tag takes the characters up to its end. -/
theorem exists_of_tagBody {flavor : Flavor} {start : Nat} {w : Waiting} {s : Text} {t : TagBody}
    (h : tagBody flavor start w s = .ok t) :
    ∃ q, s = q ++ t.rest ∧ t.closing.stop = start + width q := by
  fun_induction tagBody flavor start w s generalizing t with
  | case1 | case6 | case7 => cases h
  | case2 start w s piece rest hs ih | case3 start w s piece rest hs ih
  | case5 start s piece rest hs name span ih =>
    obtain ⟨q, hq, hstop⟩ := ih h
    have := (eq_of_tagHead? hs).1
    simp only [TagHead.piece, TagHead.rest] at this
    exact ⟨piece ++ q, by rw [this, List.append_assoc, ← hq], by rw [hstop, width_append, Nat.add_assoc]⟩
  | case4 start w s selfClosing piece rest hs =>
    cases h
    exact ⟨piece, (eq_of_tagHead? hs).1, rfl⟩
  | case8 start w s quoting content piece rest hs done w' hw ih =>
    cases ht : tagBody flavor (start + width piece) w' rest with
    | error e => rw [ht] at h; cases h
    | ok u =>
      rw [ht] at h
      cases h
      obtain ⟨q, hq, hstop⟩ := ih ht
      have := (eq_of_tagHead? hs).1
      simp only [TagHead.piece, TagHead.rest] at this
      exact ⟨piece ++ q, by rw [this, List.append_assoc]; exact congrArg _ hq,
        by rw [width_append, ← Nat.add_assoc]; exact hstop⟩

end TagBody

/-- What can follow the name of an attribute in a tag. -/
theorem head_of_tagRest {as : List AttrSource} (has : ∀ a ∈ as, a.IsValid) {b : Text}
    (hb : IsBlankText b) (sc : Bool) (rest : Text) :
    ∀ c ∈ (as.flatMap AttrSource.source ++ (b ++ (tagClose sc ++ rest))).head?,
      isWordChar c = false := by
  have blank {b s : Text} (hn : b ≠ []) (hb : IsBlankText b) :
      ∀ c ∈ (b ++ s).head?, isBlank c = true := by
    cases b with
    | nil => exact absurd rfl hn
    | cons d b =>
      intro c hc
      cases hc
      exact (isBlankText_cons.1 hb).1
  intro c hc
  cases as with
  | nil =>
    rw [List.flatMap_nil, List.nil_append] at hc
    by_cases hn : b = []
    · subst hn
      cases sc <;> cases hc <;> rfl
    · exact isWordChar_of_isBlank (blank hn hb c hc)
  | cons a as =>
    have ha := has a List.mem_cons_self
    rw [List.flatMap_cons, AttrSource.source, List.append_assoc, List.append_assoc,
      List.append_assoc] at hc
    exact isWordChar_of_isBlank (blank ha.blanks_ne ha.blanks c hc)

/-- A value is read as it is written, in front of an attribute or the end of the tag. -/
structure ValueSource.IsRead (flavor : Flavor) (v : ValueSource) : Prop where
  front : IsBlankText v.front
  back : IsBlankText v.back
  head : ∀ s : Text, (∀ c ∈ s.head?, isWordChar c = false) →
    tagHead? flavor (v.quoted ++ s) = some (.value v.quoting v.text v.quoted s)

/-- An attribute whose name and value are read as they are written. -/
structure AttrSource.IsRead (flavor : Flavor) (a : AttrSource) : Prop where
  blanks : IsBlankText a.blanks
  name_ne : a.name ≠ []
  name : a.name.all isWordChar = true
  value : ∀ v ∈ a.value, v.IsRead flavor

/-- In front of `next`, an attribute is read as it is written. -/
structure AttrSource.IsReadBefore (flavor : Flavor) (next : Text) (a : AttrSource) : Prop where
  blanks : IsFiller a.blanks
  name_ne : a.name ≠ []
  name : a.name.all isWordChar = true
  value : ∀ v ∈ a.value, IsFiller v.front ∧ IsFiller v.back ∧
    tagHead? flavor (v.quoted ++ next) = some (.value v.quoting v.text v.quoted next)
  valueless : a.value = none → ∀ c ∈ next.head?, isWordChar c = false

theorem AttrSource.IsRead.before {flavor : Flavor} {a : AttrSource} (ha : a.IsRead flavor)
    {next : Text} (hnext : ∀ c ∈ next.head?, isWordChar c = false) : a.IsReadBefore flavor next :=
  ⟨ha.blanks.isFiller, ha.name_ne, ha.name, fun v hv => ⟨(ha.value v hv).front.isFiller,
    (ha.value v hv).back.isFiller, (ha.value v hv).head next hnext⟩, fun _ => hnext⟩

/-- What can stand in a value is read as the value. -/
theorem tagHead?_wrap {flavor : Flavor} {q : Quoting} {t : Text} (ht : q.Admits t) {s : Text}
    (hs : q = .bare → ∀ c ∈ s.head?, isWordChar c = false) :
    tagHead? flavor (q.wrap t ++ s) = some (.value q t (q.wrap t) s) := by
  cases q with
  | double => exact tagHead?_quoted (.inl rfl) ht s
  | single => exact tagHead?_quoted (.inr rfl) ht s
  | bare => exact tagHead?_word ht.1 ht.2 (hs rfl)
  | braces => exact ht.elim

theorem ValueSource.IsValid.isRead {v : ValueSource} (hv : v.IsValid) (flavor : Flavor) :
    v.IsRead flavor := ⟨hv.front, hv.back, fun _ hs => tagHead?_wrap hv.text fun _ => hs⟩

theorem AttrSource.IsValid.isRead {a : AttrSource} (ha : a.IsValid) (flavor : Flavor) :
    a.IsRead flavor := ⟨ha.blanks, ha.name_ne, ha.name, fun v hv => (ha.value v hv).isRead flavor⟩

/-- In front of what is no end of the tag, filler may end with a slash. -/
theorem head?_ne_angle {flavor : Flavor} {s : Text} {q : Quoting} {t p r : Text}
    (h : tagHead? flavor s = some (.value q t p r)) : s.head? ≠ some '>' := by
  intro hs
  obtain ⟨u, rfl⟩ := List.head?_eq_some_iff.1 hs
  cases h

/-- What a value that is written behind an equals sign completes. -/
theorem take_valueAfterEquals {name : Text} {span : Span} (v : ValueSource) (n : Nat) :
    (Waiting.valueAfterEquals name span).take v.quoting v.text v.quoted n =
      .ok ([⟨name, span, some ⟨v.text, ⟨n, n + width v.quoted⟩, v.quoting⟩⟩], .nothing) := by
  rfl

/-- An attribute completes what was read before it, and is complete itself once the next one or the
end of the tag follows. -/
theorem tagBody_attr {flavor : Flavor} {a : AttrSource} {next : Text}
    (ha : a.IsReadBefore flavor next) (n : Nat) {w : Waiting}
    (hw : ∀ name span, w ≠ .valueAfterEquals name span) :
    ∃ done w', (∀ name span, w' ≠ .valueAfterEquals name span) ∧
      done ++ w'.valueless = [a.raw n] ∧ (a.value = none → ∃ span, w' = .value a.name span) ∧
      tagBody flavor n w (a.source ++ next) =
        (tagBody flavor (n + width a.source) w' next).map (·.withFirst (w.valueless ++ done)) := by
  have hname {s : Text} (hs : ∀ c ∈ s.head?, isWordChar c = false) :
      tagBody flavor n w (a.blanks ++ (a.name ++ s)) =
        (tagBody flavor (n + width a.blanks + width a.name) (.value a.name ⟨n + width a.blanks,
          n + width a.blanks + width a.name⟩) s).map (·.withFirst w.valueless) := by
    have hhead : tagHead? flavor (a.name ++ s) = some (.value .bare a.name a.name s) :=
      tagHead?_word ha.name_ne ha.name hs
    rw [tagBody_filler ha.blanks fun _ => head?_ne_angle hhead]
    refine tagBody_value hhead ?_
    cases w with
    | valueAfterEquals name span => exact absurd rfl (hw name span)
    | _ => rfl
  cases hv : a.value with
  | none =>
    have hnext := ha.valueless hv
    refine ⟨[], .value a.name ⟨n + width a.blanks, n + width a.blanks + width a.name⟩, nofun, ?_,
      fun _ => ⟨_, rfl⟩, ?_⟩
    · simp [Waiting.valueless, AttrSource.raw, hv]
    · have := hname hnext
      simpa [AttrSource.source, hv, Nat.add_assoc] using this
  | some v =>
    obtain ⟨hvfront, hvback, hvalue⟩ := ha.value v (by rw [hv]; rfl)
    refine ⟨[a.raw n], .nothing, nofun, by simp [Waiting.valueless], nofun, ?_⟩
    have hfront : ∀ c ∈ (v.source ++ next).head?, isWordChar c = false := by
      intro c hc
      rw [ValueSource.source] at hc
      cases hf : v.front with
      | nil =>
        rw [hf] at hc
        cases hc
        rfl
      | cons d f =>
        rw [hf] at hc
        cases hc
        exact hvfront.isWordChar _ (by rw [hf]; exact List.mem_cons_self)
    have hequals {s : Text} : tagHead? flavor ('=' :: s) = some (.equals ['='] s) := rfl
    have hsource : a.source ++ next =
        a.blanks ++ (a.name ++ (v.front ++ ('=' :: (v.back ++ (v.quoted ++ next))))) := by
      simp [AttrSource.source, hv, ValueSource.source]
    have hsign : ('=' :: (v.back ++ (v.quoted ++ next))).head? ≠ some '>' :=
      fun h => absurd (Option.some.inj h) (by decide)
    rw [hsource, hname (by simpa [ValueSource.source] using hfront),
      tagBody_filler hvfront fun _ => hsign, tagBody_equals hequals,
      tagBody_filler hvback fun _ => head?_ne_angle hvalue,
      tagBody_value hvalue (take_valueAfterEquals v _)]
    have h1 : '='.utf8Size = 1 := rfl
    have hwidth : n + width a.blanks + width a.name + width v.front + width ['='] + width v.back +
        width v.quoted = n + width a.source := by
      simp [AttrSource.source, hv, ValueSource.source]
      omega
    rw [hwidth]
    cases tagBody flavor (n + width a.source) .nothing next with
    | error e => rfl
    | ok t =>
      simp only [Except.map, TagBody.withFirst, AttrSource.raw, hv, Option.map_some, ← hwidth]
      simp [h1]

/-- The attributes of a tag are read one after another. -/
theorem tagBody_source {as : List AttrSource} (has : ∀ a ∈ as, a.IsValid) {b : Text}
    (hb : IsBlankText b) (sc : Bool) (rest : Text) (n : Nat) {w : Waiting}
    (hw : ∀ name span, w ≠ .valueAfterEquals name span) :
    tagBody .html n w (as.flatMap AttrSource.source ++ (b ++ (tagClose sc ++ rest))) =
      .ok ⟨w.valueless ++ AttrSource.raws n as,
        ⟨n + width (as.flatMap AttrSource.source) + width b,
          n + width (as.flatMap AttrSource.source) + width b + width (tagClose sc)⟩, sc, rest⟩ := by
  induction as generalizing n w with
  | nil =>
    rw [List.flatMap_nil, List.nil_append, tagBody_blanks hb, AttrSource.raws, List.append_nil,
      width_nil, Nat.add_zero]
    cases sc <;> exact tagBody_close rfl
  | cons a as ih =>
    have has' := fun a' ha' => has a' (List.mem_cons_of_mem a ha')
    obtain ⟨done, w', hw', hdone, -, htag⟩ := tagBody_attr
      (((has a List.mem_cons_self).isRead .html).before (head_of_tagRest has' hb sc rest)) n hw
    rw [List.flatMap_cons, List.append_assoc, htag, ih has' _ hw', AttrSource.raws, width_append]
    simp only [Except.map, TagBody.withFirst]
    have : w.valueless ++ done ++ (w'.valueless ++ AttrSource.raws (n + width a.source) as) =
        w.valueless ++ a.raw n :: AttrSource.raws (n + width a.source) as := by
      rw [List.append_assoc, ← List.append_assoc done, hdone]
      rfl
    simp only [this, Nat.add_assoc]

/-! ## Whole tags -/

theorem IsTagName.ne_nil {t : Text} (h : IsTagName t) : t ≠ [] := by
  rintro rfl
  exact h

/-- The name of a tag consists of name characters. -/
theorem IsTagName.isNameChar {t : Text} (h : IsTagName t) : ∀ c ∈ t, isNameChar c = true := by
  cases t with
  | nil => exact nofun
  | cons d t =>
    refine List.forall_mem_cons.2 ⟨?_, List.all_eq_true.1 h.2⟩
    have := h.1
    rw [isNameStart] at this
    simp [MarkupSync.isNameChar, Char.isAlphanum, this]

theorem IsTagName.not_mem {t : Text} (h : IsTagName t) {c : Char} (hc : MarkupSync.isNameChar c = false) :
    c ∉ t := fun hm => by rw [h.isNameChar c hm] at hc; cases hc

theorem not_isBlank_of_isNameChar {c : Char} (h : isNameChar c = true) : isBlank c = false := by
  by_contra hb
  simp only [Bool.not_eq_false, isBlank, Bool.or_eq_true, beq_iff_eq] at hb
  rcases hb with (((rfl | rfl) | rfl) | rfl) | rfl <;> exact absurd h (by decide)

/-- What stands behind the name of a tag is no part of it. -/
theorem TagSource.IsValid.head_body {g : TagSource} (hg : g.IsValid) (rest : Text) :
    ∀ c ∈ (g.body ++ rest).head?, isNameChar c = false := by
  intro c hc
  have hw : isBlank c = true ∨ c = '/' ∨ c = '>' := by
    cases hattrs : g.attributes with
    | nil =>
      cases hb : g.blanks with
      | nil =>
        rw [body, hattrs, hb] at hc
        cases hs : g.selfClosing <;> rw [hs] at hc <;> cases hc
        · exact .inr (.inr rfl)
        · exact .inr (.inl rfl)
      | cons d b =>
        rw [body, hattrs, hb] at hc
        cases hc
        exact .inl (hg.blanks _ (by rw [hb]; exact List.mem_cons_self))
    | cons a as =>
      have ha := hg.attributes a (by rw [hattrs]; exact List.mem_cons_self)
      cases hb : a.blanks with
      | nil => exact absurd hb ha.blanks_ne
      | cons d b =>
        rw [body, hattrs, List.flatMap_cons, AttrSource.source, hb] at hc
        cases hc
        exact .inl (ha.blanks _ (by rw [hb]; exact List.mem_cons_self))
  simp only [isBlank, Bool.or_eq_true, beq_iff_eq] at hw
  rcases hw with ((((rfl | rfl) | rfl) | rfl) | rfl) | rfl | rfl <;> decide

/-- The name of a tag ends where its characters end. -/
theorem angleHead_name {name : Text} (hname : IsTagName name) {s : Text}
    (hs : ∀ c ∈ s.head?, isNameChar c = false) :
    angleHead (name ++ s) = .ok (.openTag name ('<' :: name) s) := by
  cases name with
  | nil => exact absurd rfl hname.ne_nil
  | cons c name =>
    have htake := takeWhile_append_of_stop hname.2 hs
    have hdrop := dropWhile_append_of_stop hname.2 hs
    have hc : c ≠ '!' ∧ c ≠ '?' ∧ c ≠ '/' ∧ c ≠ '>' := by
      refine ⟨?_, ?_, ?_, ?_⟩ <;> rintro rfl <;> exact absurd hname.1 (by decide)
    simp [angleHead, hname.1, htake, hdrop, hc]

/-- The name of a tag is read as it was written. -/
theorem angleHead_openTag {g : TagSource} (hg : g.IsValid) (rest : Text) :
    angleHead (g.name ++ (g.body ++ rest)) = .ok (.openTag g.name ('<' :: g.name) (g.body ++ rest)) :=
  angleHead_name hg.name (hg.head_body rest)

/-- A tag opens something. -/
theorem opensNothing_openTag {g : TagSource} (hg : g.IsValid) (rest : Text) :
    opensNothing (g.name ++ (g.body ++ rest)) = false := by
  by_contra h
  have := angleHead_of_opensNothing (Bool.not_eq_false _ ▸ h)
  rw [angleHead_openTag hg] at this
  cases this

theorem tagBody_body {g : TagSource} (hg : g.IsValid) (n : Nat) (rest : Text) :
    tagBody .html (n + 1 + width g.name) .nothing (g.body ++ rest) =
      .ok ⟨(g.openTag n none).attributes, (g.openTag n none).closing, g.selfClosing, rest⟩ := by
  rw [TagSource.body, List.append_assoc, List.append_assoc,
    tagBody_source hg.attributes hg.blanks g.selfClosing rest _ fun _ _ h => by cases h]
  rfl

/-- **A valid tag is read as it was written.** -/
theorem openTag_source {g : TagSource} (hg : g.IsValid)
    (hraw : g.selfClosing = true ∨ isRaw g.name = false) (n : Nat) (rest : Text) :
    openTag .html n g.name (g.body ++ rest) = .ok (g.openTag n none, n + width g.source, rest) := by
  have hstop := g.openTag_closing_stop n none
  simp only [openTag, tagBody_body hg]
  rcases hraw with hr | hr
  · simp [hr, hstop]
    simp [TagSource.openTag, hr]
  · simp [hr, hstop]
    rfl

/-- A valid tag whose content is kept as it is written is read with that content. -/
theorem openTag_rawSource {g : TagSource} (hg : g.IsValid) (hself : g.selfClosing = false)
    (hraw : isRaw g.name = true) (n : Nat) {rest content behind : Text}
    (hcontent : rawContent? g.name rest = some (content, behind)) :
    openTag .html n g.name (g.body ++ rest) =
      .ok (g.openTag n (if content = [] then none
        else some (content, ⟨n + width g.source, n + width g.source + width content⟩)),
        n + width g.source + width content, behind) := by
  have hstop := g.openTag_closing_stop n none
  simp only [openTag, tagBody_body hg, hself, hraw, hcontent, hstop]
  simp [TagSource.openTag, hself]

end MarkupSync
