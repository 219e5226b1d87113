import MarkupSync.Proofs.Lexeme.Tag
import MarkupSync.Proofs.Text.Indent

/-!
# Tags further on and further in

The byte at which a text starts moves its lexemes and its fault, and changes nothing else. A tag is
read the same if its lines are put further in and more text follows it; only the texts of its
attributes that have several lines are put further in as well.

* `Lexeme.shift`, `Scan.shift`: lexemes with their bytes moved;
* `tagBody_shift`, `openTag_shift`: open tags;
* **`scan_shift`**: the lexemes of a text that starts `k` bytes further on;
* `TagHead.inset`, `tagHead?_inset`: the pieces of a tag;
* `RawAttribute.indented`, `RawAttribute.written`: attributes further in, and without their bytes;
* `tagBody_stop`: where a tag ends;
* **`exists_tagBody_inset`**: a tag read further in.
-/

namespace MarkupSync

/-! ## Moving bytes -/

/-- A value moved by `k` bytes. -/
def RawValue.shift (k : Nat) (v : RawValue) : RawValue := { v with span := v.span.shift k }

/-- An attribute moved by `k` bytes. -/
def RawAttribute.shift (k : Nat) (a : RawAttribute) : RawAttribute :=
  ⟨a.name, a.nameSpan.shift k, a.value.map (RawValue.shift k)⟩

/-- A name that waits for its value, moved by `k` bytes. -/
def Waiting.shift (k : Nat) : Waiting → Waiting
  | nothing => nothing
  | value name span => value name (span.shift k)
  | valueAfterEquals name span => valueAfterEquals name (span.shift k)

/-- A tag behind its name, moved by `k` bytes. -/
def TagBody.shift (k : Nat) (t : TagBody) : TagBody :=
  { t with attributes := t.attributes.map (RawAttribute.shift k), closing := t.closing.shift k }

/-- An open tag moved by `k` bytes. -/
def OpenTag.shift (k : Nat) (t : OpenTag) : OpenTag where
  name := t.name
  nameSpan := t.nameSpan.shift k
  attributes := t.attributes.map (RawAttribute.shift k)
  closing := t.closing.shift k
  selfClosing := t.selfClosing
  raw := t.raw.map fun (content, span) => (content, span.shift k)

/-- A lexeme moved by `k` bytes. -/
def Lexeme.shift (k : Nat) : Lexeme → Lexeme
  | openTag tag => openTag (tag.shift k)
  | closeTag name span => closeTag name (span.shift k)
  | fragmentOpen span => fragmentOpen (span.shift k)
  | fragmentClose span => fragmentClose (span.shift k)
  | text content span => text content (span.shift k)
  | expression content span => expression content (span.shift k)

/-- A scan moved by `k` bytes. -/
def Scan.shift (k : Nat) (r : Scan) : Scan :=
  ⟨r.lexemes.map (Lexeme.shift k), r.fault.map (ParseError.shift k)⟩

variable {flavor : Flavor} (k n : Nat)

@[simp] theorem Span.shift_mk (a b : Nat) : Span.shift k ⟨a, b⟩ = ⟨a + k, b + k⟩ := rfl

@[simp] theorem RawAttribute.span_shift (a : RawAttribute) :
    (a.shift k).span = a.span.shift k := by
  cases a with
  | mk name nameSpan value => cases value <;> rfl

@[simp] theorem Scan.shift_cons (l : Lexeme) (r : Scan) :
    (r.cons l).shift k = (r.shift k).cons (l.shift k) := rfl

@[simp] theorem Scan.shift_failed (fault : Fault) :
    (Scan.failed fault n).shift k = .failed fault (n + k) := rfl

/-! ## Open tags -/

@[simp] theorem Waiting.valueless_shift (w : Waiting) :
    (w.shift k).valueless = w.valueless.map (RawAttribute.shift k) := by
  cases w <;> rfl

theorem Waiting.take_shift (quoting : Quoting) (content piece : Text) (w : Waiting) :
    (w.shift k).take quoting content piece (n + k) =
      (w.take quoting content piece n).map fun (done, w) =>
        (done.map (RawAttribute.shift k), w.shift k) := by
  have h : n + k + width piece = n + width piece + k := Nat.add_right_comm ..
  cases w <;> cases quoting <;>
    simp [Waiting.shift, Waiting.take, Waiting.valueless, RawAttribute.shift, RawValue.shift, h,
      Except.map]

theorem tagBody_shift (w : Waiting) (s : Text) :
    tagBody flavor (n + k) (w.shift k) s = (tagBody flavor n w s).map (TagBody.shift k) := by
  have next (n : Nat) (p : Text) : n + k + width p = n + width p + k := Nat.add_right_comm ..
  fun_induction tagBody flavor n w s with
  | case1 n w s hs =>
    rw [tagBody]
    split <;> simp_all [Except.map]
  | case2 n w s p r hs ih | case3 n w s p r hs ih =>
    rw [tagBody]
    split <;> simp_all
  | case4 n w s selfClosing p r hs =>
    rw [tagBody_close hs, next]
    simp [Except.map, TagBody.shift]
  | case5 n s p r hs name span ih =>
    rw [Waiting.shift, tagBody_equals hs, next]
    exact ih
  | case6 n w s p r hs hw =>
    rw [tagBody]
    cases w <;> split <;> simp_all [Waiting.shift, Except.map]
  | case7 n w s quoting content p r hs e hw =>
    have htake := w.take_shift k n quoting content p
    rw [hw] at htake
    rw [tagBody]
    split <;> simp_all [Except.map]
  | case8 n w s quoting content p r hs done w' hw ih =>
    have htake := w.take_shift k n quoting content p
    rw [hw] at htake
    rw [tagBody_value hs htake, next, ih]
    cases tagBody flavor (n + width p) w' r with
    | error e => rfl
    | ok t => simp [Except.map, TagBody.shift, TagBody.withFirst]

theorem openTag_shift (name s : Text) :
    openTag flavor (n + k) name s =
      (openTag flavor n name s).map fun (tag, stop, rest) => (tag.shift k, stop + k, rest) := by
  have hbody : tagBody flavor (n + k + 1 + width name) .nothing s =
      (tagBody flavor (n + 1 + width name) .nothing s).map (TagBody.shift k) := by
    rw [← tagBody_shift]
    congr 1
    omega
  simp only [openTag, hbody]
  cases tagBody flavor (n + 1 + width name) .nothing s with
  | error e => rfl
  | ok t =>
    simp only [Except.map, TagBody.shift]
    split
    · cases rawContent? name t.rest with
      | none => rfl
      | some cut =>
        have hstop : t.closing.stop + k + width cut.1 = t.closing.stop + width cut.1 + k := by omega
        by_cases hc : cut.1 = [] <;> simp [OpenTag.shift, Span.shift, hc, hstop] <;> omega
    · simp [OpenTag.shift, Span.shift]
      omega

/-! ## Scans -/

/-- **The lexemes of a text that starts `k` bytes further on.** -/
theorem scan_shift (s : Text) : scan flavor (n + k) s = (scan flavor n s).shift k := by
  have next (n : Nat) (p : Text) : n + k + width p = n + width p + k := Nat.add_right_comm ..
  fun_induction scan flavor n s with
  | case1 n s fault hs =>
    rw [scan, Scan.shift_failed]
    split <;> simp_all
  | case2 n s hs =>
    rw [scan]
    split <;> simp_all [Scan.shift]
  | case3 n s p r hs ih =>
    rw [scan]
    split <;> simp_all
  | case4 n s name p r hs fault ht | case5 n s name p r hs tag stop rest ht ih =>
    have hshift := @openTag_shift flavor k n name r
    rw [ht] at hshift
    rw [scan]
    split <;> simp_all [Except.map]
    split <;> simp_all [Lexeme.shift]
  | case6 n s _ p r hs stop ih | case7 n s p r hs stop ih | case8 n s p r hs stop ih
  | case9 n s p r hs stop ih | case10 n s p r hs run content stop ih =>
    -- one lexeme that takes the bytes of its text
    rw [scan]
    split <;> simp_all +zetaDelta [Lexeme.shift, -width_append]

open Text

variable {flavor : Flavor} {indent rest : Text}

/-! ## Pieces of tags -/

/-- A piece of a tag put further in, with more text behind it. -/
def TagHead.inset (indent rest : Text) : TagHead → TagHead
  | blank p r => blank (indented indent p) (Text.inset indent rest r)
  | close selfClosing p r => close selfClosing (indented indent p) (Text.inset indent rest r)
  | equals p r => equals (indented indent p) (Text.inset indent rest r)
  | slash p r => slash (indented indent p) (Text.inset indent rest r)
  | value quoting content p r =>
    value quoting (indented indent content) (indented indent p) (Text.inset indent rest r)

theorem exists_of_tagHead?_blank {s p r : Text} (h : tagHead? flavor s = some (.blank p r)) :
    ∃ c, isBlank c = true ∧ p = [c] ∧ s = c :: r := by
  revert h
  fun_cases tagHead? flavor s
  case case8 c s _ _ _ _ _ _ hc =>
    intro h
    cases h
    exact ⟨c, hc, rfl, rfl⟩
  case case6 | case7 | case10 =>
    intro h
    obtain ⟨_, _, h⟩ := Option.map_eq_some_iff.1 h
    cases h
  all_goals rintro ⟨⟩

/-- A closed expression ends with the brace that closes it. -/
theorem exists_of_closeFrom {q : Option Char} {depth : Nat} {s p r : Text}
    (h : closeFrom q depth s = some (p, r)) : ∃ u, p = u ++ ['\x7d'] := by
  have next {a p r : Text} {cut : Option (Text × Text)} (h : extend a cut = some (p, r))
      (ih : ∀ {p : Text}, cut = some (p, r) → ∃ u, p = u ++ ['\x7d']) : ∃ u, p = u ++ ['\x7d'] := by
    obtain ⟨p, h', rfl⟩ := extend_eq_some.1 h
    obtain ⟨u, rfl⟩ := ih h'
    exact ⟨_, (List.append_assoc ..).symm⟩
  fun_induction closeFrom q depth s generalizing p with
  | case1 | case2 => cases h
  | case6 =>
    cases h
    exact ⟨[], rfl⟩
  | case3 _ _ _ _ ih | case4 _ _ _ _ _ _ ih | case5 _ _ ih | case7 _ _ _ ih | case8 _ _ _ _ _ _ ih
  | case9 _ _ _ _ _ _ ih => exact next h ih

theorem quotedHead?_inset (hindent : ∀ c ∈ indent, isIndent c = true) {quoting : Quoting}
    {q : Char} (hq : q = '"' ∨ q = '\'') {s : Text} {k : TagHead}
    (h : quotedHead? quoting q s = some k) :
    quotedHead? quoting q (Text.inset indent rest s) = some (k.inset indent rest) := by
  have hn : '\n' ≠ q ∧ isIndent q = false := by rcases hq with rfl | rfl <;> decide
  obtain ⟨⟨p, r⟩, hcut, rfl⟩ := Option.map_eq_some_iff.1 h
  have hcut := cut?_inset rest (by simpa using hn.1) (not_mem_of_isIndent hindent hn.2) hcut
  have hpiece : indented indent (q :: p ++ [q]) = q :: indented indent p ++ [q] := by
    rw [List.cons_append, indented_cons hn.1.symm, indented_append, indented_cons hn.1.symm]
    rfl
  rw [quotedHead?, hcut, TagHead.inset, hpiece]
  rfl

variable (rest) in
/-- A piece of a tag is read the same further in, unless it is a line break: indentation comes
behind that. -/
theorem tagHead?_inset (hindent : ∀ c ∈ indent, isIndent c = true) {s : Text} {k : TagHead}
    (h : tagHead? flavor s = some k) (hs : s.head? ≠ some '\n')
    (hk : k.rest ≠ [] ∨ ∃ selfClosing p r, k = .close selfClosing p r) :
    tagHead? flavor (Text.inset indent rest s) = some (k.inset indent rest) := by
  revert h
  fun_cases tagHead? flavor s with
  | case1 | case9 | case12 => rintro ⟨⟩
  | case2 | case5 =>
    rintro ⟨⟩
    rw [inset_cons (by decide), tagHead?]
    rfl
  | case3 =>
    rintro ⟨⟩
    rw [inset_cons (by decide), inset_cons (by decide), tagHead?]
    rfl
  | case4 _ s hne =>
    rintro ⟨⟩
    -- what follows the slash is no angle, further in as before
    obtain ⟨c, u, rfl⟩ : ∃ c u, s = c :: u := by
      refine List.exists_cons_of_ne_nil (hk.resolve_right ?_)
      rintro ⟨_, _, _, ⟨⟩⟩
    obtain ⟨v, hv⟩ := @exists_inset_cons indent rest c u
    rw [inset_cons (by decide), TagHead.inset, hv, tagHead?]
    · rfl
    · intro s hs
      exact hne u (congrArg (· :: u) (List.cons.inj hs).1)
  | case6 | case7 =>
    intro h
    rw [inset_cons (by decide)]
    exact quotedHead?_inset hindent (by simp) h
  | case8 _ c s _ _ _ _ _ _ hc =>
    rintro ⟨⟩
    have hn : c ≠ '\n' := fun h => hs (h ▸ rfl)
    rw [inset_cons hn, tagHead?_blank hc, TagHead.inset, indented_cons hn, indented_nil]
  | case10 s _ _ _ _ _ _ hc =>
    intro h
    obtain ⟨⟨p, r⟩, hclose, rfl⟩ := Option.map_eq_some_iff.1 h
    obtain ⟨u, rfl⟩ := exists_of_closeFrom hclose
    have hclose := closeBraces?_inset rest hindent hclose
    have hbrace : indented indent ['\x7d'] = ['\x7d'] := indented_of_not_mem (by decide)
    rw [inset_cons (by decide), tagHead?, if_neg hc, if_pos rfl]
    · simp only [hclose, indented_append, hbrace]
      simp [TagHead.inset, indented_cons, hbrace]
    all_goals (intros; contradiction)
  | case11 _ c s _ _ _ _ _ _ _ _ hword =>
    rintro ⟨⟩
    have hall : (c :: s.takeWhile isWordChar).all isWordChar = true := by
      rw [List.all_cons, hword, List.all_takeWhile]
      rfl
    have hnewline : '\n' ∉ c :: s.takeWhile isWordChar := fun h =>
      absurd (List.all_eq_true.1 hall _ h) (by decide)
    have hsplit : c :: s = c :: s.takeWhile isWordChar ++ s.dropWhile isWordChar :=
      congrArg (c :: ·) List.takeWhile_append_dropWhile.symm
    have hdrop : s.dropWhile isWordChar ≠ [] := hk.resolve_right (by rintro ⟨_, _, _, ⟨⟩⟩)
    rw [hsplit, inset_append, TagHead.inset, indented_of_not_mem hnewline]
    refine tagHead?_word (List.cons_ne_nil _ _) hall ?_
    rw [head?_inset hdrop]
    exact head?_dropWhile isWordChar s

/-! ## Attributes -/

/-- An attribute with its texts put further in. -/
def RawAttribute.indented (indent : Text) (a : RawAttribute) : RawAttribute :=
  { a with
    name := Text.indented indent a.name
    value := a.value.map fun v => { v with text := Text.indented indent v.text } }

/-- The texts of an attribute, without their bytes. -/
def RawAttribute.written (a : RawAttribute) : Text × Option (Text × Quoting) :=
  (a.name, a.value.map fun v => (v.text, v.quoting))

/-- The attributes `bs` are the attributes `as` further in, wherever they stand. -/
def AreInset (indent : Text) (as bs : List RawAttribute) : Prop :=
  bs.map RawAttribute.written = (as.map (RawAttribute.indented indent)).map RawAttribute.written

theorem AreInset.append {as bs cs ds : List RawAttribute} (h : AreInset indent as bs)
    (h' : AreInset indent cs ds) : AreInset indent (as ++ cs) (bs ++ ds) := by
  rw [AreInset, List.map_append, List.map_append, List.map_append, h, h']

/-- What is waiting further in. -/
inductive Waiting.IsInset (indent : Text) : Waiting → Waiting → Prop
  | nothing : IsInset indent nothing nothing
  | value (name : Text) (span span' : Span) :
    IsInset indent (value name span) (value (Text.indented indent name) span')
  | valueAfterEquals (name : Text) (span span' : Span) :
    IsInset indent (valueAfterEquals name span) (valueAfterEquals (Text.indented indent name) span')

theorem Waiting.IsInset.valueless {w w' : Waiting} (h : w.IsInset indent w') :
    AreInset indent w.valueless w'.valueless := by
  cases h <;> rfl

/-- A value is taken further in as it is taken. -/
theorem Waiting.IsInset.exists_take {w w' v : Waiting} (h : w.IsInset indent w')
    {quoting : Quoting} {content piece : Text} {n : Nat} {as : List RawAttribute}
    (ht : w.take quoting content piece n = .ok (as, v)) (n' : Nat) :
    ∃ bs v', w'.take quoting (Text.indented indent content) (Text.indented indent piece) n' =
      .ok (bs, v') ∧ AreInset indent as bs ∧ v.IsInset indent v' := by
  cases h with
  | valueAfterEquals name span span' =>
    cases ht
    exact ⟨_, _, rfl, rfl, .nothing⟩
  | nothing =>
    cases quoting <;> cases ht
    · exact ⟨_, _, rfl, rfl, .value ..⟩
    · exact ⟨_, _, rfl, rfl, .nothing⟩
  | value name span span' =>
    cases quoting <;> cases ht
    · exact ⟨_, _, rfl, rfl, .value ..⟩
    · exact ⟨_, _, rfl, rfl, .nothing⟩

/-! ## Tags -/

theorem ne_nil_of_tagBody {n : Nat} {w : Waiting} {s : Text} {b : TagBody}
    (h : tagBody flavor n w s = .ok b) : s ≠ [] := by
  rintro rfl
  rw [tagBody] at h
  cases h

/-- A tag ends where the rest of the text starts. -/
theorem tagBody_stop {n : Nat} {w : Waiting} {s : Text} {b : TagBody}
    (h : tagBody flavor n w s = .ok b) : b.closing.stop + width b.rest = n + width s := by
  obtain ⟨q, hq, hstop⟩ := exists_of_tagBody h
  rw [hstop, hq, width_append, Nat.add_assoc]

variable (rest) in
/-- **A tag is read further in as it is read.** -/
theorem exists_tagBody_inset (hindent : ∀ c ∈ indent, isIndent c = true) {n : Nat} {w w' : Waiting}
    {s : Text} {b : TagBody} (h : tagBody flavor n w s = .ok b) (hw : w.IsInset indent w')
    (n' : Nat) :
    ∃ b', tagBody flavor n' w' (Text.inset indent rest s) = .ok b' ∧
      AreInset indent b.attributes b'.attributes ∧ b'.selfClosing = b.selfClosing ∧
      b'.rest = Text.inset indent rest b.rest := by
  have hblank : IsBlankText indent := fun c hc => isBlank_of_isIndent (hindent c hc)
  -- a piece that is no blank does not start with a line break
  have hhead {s : Text} {k : TagHead} (hs : tagHead? flavor s = some k)
      (hk : ∀ p r, k ≠ .blank p r) : s.head? ≠ some '\n' := by
    cases s with
    | nil => exact (Option.some_ne_none _).symm
    | cons c s =>
      intro hc
      cases hc
      rw [tagHead?_blank (by decide)] at hs
      cases hs
      exact hk _ _ rfl
  fun_induction tagBody flavor n w s generalizing b w' n' with
  | case1 | case6 | case7 => cases h
  | case2 n w s p r hs ih =>
    obtain ⟨c, hc, rfl, rfl⟩ := exists_of_tagHead?_blank hs
    by_cases hn : c = '\n'
    · subst hn
      rw [inset_newline, tagBody_blank (tagHead?_blank hc), tagBody_blanks hblank]
      exact ih h hw _
    · rw [inset_cons hn, tagBody_blank (tagHead?_blank hc)]
      exact ih h hw _
  | case3 n w s p r hs ih =>
    have := tagHead?_inset rest hindent hs (hhead hs (by rintro _ _ ⟨⟩))
      (.inl (ne_nil_of_tagBody h))
    rw [tagBody_slash this]
    exact ih h hw _
  | case4 n w s selfClosing p r hs =>
    cases h
    have := tagHead?_inset rest hindent hs (hhead hs (by rintro _ _ ⟨⟩))
      (.inr ⟨_, _, _, rfl⟩)
    rw [tagBody_close this]
    exact ⟨_, rfl, hw.valueless, rfl, rfl⟩
  | case5 n s p r hs name span ih =>
    cases hw with
    | value _ _ span' =>
      have := tagHead?_inset rest hindent hs (hhead hs (by rintro _ _ ⟨⟩))
        (.inl (ne_nil_of_tagBody h))
      rw [tagBody_equals this]
      exact ih h (.valueAfterEquals ..) _
  | case8 n w s quoting content p r hs as v hv ih =>
    cases hb : tagBody flavor (n + width p) v r with
    | error e => rw [hb] at h; cases h
    | ok b =>
      rw [hb] at h
      cases h
      have := tagHead?_inset rest hindent hs (hhead hs (by rintro _ _ ⟨⟩))
        (.inl (ne_nil_of_tagBody hb))
      obtain ⟨bs, v', hv', has, hvv⟩ := hw.exists_take hv n'
      obtain ⟨b', hb', hattrs, hself, hrest⟩ := ih hb hvv (n' + width (Text.indented indent p))
      rw [tagBody_value this hv', hb']
      exact ⟨_, rfl, has.append hattrs, hself, hrest⟩

end MarkupSync
