import MarkupSync.Proofs.Lexeme.Loose
import MarkupSync.Proofs.Lexeme.Tokenizer

/-!
# What is read as a value

Between a name and its value there are one equals sign and filler. Filler may have slashes in it,
and an unquoted value ends in front of a slash, so the value is not always all that was written.

* `unquoted`, `authored`: what is written as a value behind an equals sign;
* `EndsWord`: what an unquoted value ends in front of;
* `ValueSource.Follows`: how a value is written behind a name;
* `Waiting.Follows`, `follows_of_tagBody`, `follows_scan`: so are all values of a tag and of a text;
* `ValueSource.authored_iff`: whether a value is what was written;
* **`Tokenizer.value_authored_iff`**: it is unless there are slashes around it, or an unquoted value
  goes on with a slash or an expression.
-/

namespace MarkupSync

open Text

/-! ## What is written -/

/-- The start of a text up to a blank or the end of a tag. -/
def unquoted : Text → Text
  | [] => []
  | '/' :: '>' :: _ => []
  | c :: s => if isBlank c || c == '>' then [] else c :: unquoted s

/-- The value that is written behind an equals sign: what is in quotes or braces with these, or else
what stands there up to a blank or the end of the tag. -/
def authored (flavor : Flavor) (s : Text) : Text :=
  match tagHead? flavor (s.dropWhile isBlank) with
  | some (.value quoting _ piece _) =>
    if quoting = .bare then unquoted (s.dropWhile isBlank) else piece
  | _ => unquoted (s.dropWhile isBlank)

/-- What an unquoted value ends in front of. -/
def EndsWord (flavor : Flavor) (s : Text) : Prop :=
  ∃ c ∈ s.head?, isBlank c = true ∨ c = '>' ∨ c = '/' ∨ flavor = .jsx ∧ c = '\x7b'

/-- Behind a name that ends at byte `n`, the value `raw` is written as `v` in front of the text
`behind`. -/
structure ValueSource.Follows (flavor : Flavor) (n : Nat) (raw : RawValue) (behind : Text)
    (v : ValueSource) : Prop where
  front : IsFiller v.front
  back : IsFiller v.back
  head : tagHead? flavor (v.quoted ++ behind) = some (.value v.quoting v.text v.quoted behind)
  ends : v.quoting = .bare → EndsWord flavor behind
  raw : raw = ⟨v.text, ⟨n + width v.front + 1 + width v.back, n + width v.source⟩, v.quoting⟩

/-- If an attribute has a value, it is written behind the name, in a text that ends at byte `k`. -/
def RawAttribute.Follows (flavor : Flavor) (source : Text) (k : Nat) (a : RawAttribute) : Prop :=
  ∀ raw ∈ a.value, ∃ (v : ValueSource) (behind : Text),
    source.Holds ⟨a.nameSpan.stop, k⟩ (v.source ++ behind) ∧
      v.Follows flavor a.nameSpan.stop raw behind

/-- What waits for a value at byte `n` has filler behind it, with an equals sign in it if there has
been one. -/
def Waiting.Follows (source : Text) (n : Nat) : Waiting → Prop
  | nothing => True
  | value _ span => ∃ front, source.Holds ⟨span.stop, n⟩ front ∧ IsFiller front
  | valueAfterEquals _ span => ∃ front back, source.Holds ⟨span.stop, n⟩ (front ++ '=' :: back) ∧
    IsFiller front ∧ IsFiller back

variable {flavor : Flavor} {source s p r content behind : Text} {n m k : Nat} {quoting : Quoting}
  {w w' : Waiting} {done : List RawAttribute}

/-! ## Tags -/

/-- What the pieces of a tag start with that are no equals sign, no word and nothing in quotes. -/
theorem endsWord_of_tagHead? {h : TagHead} (hs : tagHead? flavor s = some h)
    (hequals : ∀ p r, h ≠ .equals p r)
    (hvalue : ∀ quoting content p r, h = .value quoting content p r → quoting = .braces) :
    EndsWord flavor s := by
  revert hs
  fun_cases tagHead? flavor s with
  | case1 | case9 | case12 => rintro ⟨⟩
  | case2 => exact fun _ => ⟨'>', rfl, by simp⟩
  | case3 | case4 => exact fun _ => ⟨'/', rfl, by simp⟩
  | case5 =>
    rintro ⟨⟩
    exact absurd rfl (hequals _ _)
  | case6 | case7 =>
    intro hs
    obtain ⟨_, _, rfl⟩ := Option.map_eq_some_iff.1 hs
    cases hvalue _ _ _ _ rfl
  | case8 _ c _ _ _ _ _ _ _ hc => exact fun _ => ⟨c, rfl, .inl hc⟩
  | case10 => exact fun _ => ⟨'\x7b', rfl, by simp⟩
  | case11 =>
    rintro ⟨⟩
    cases hvalue _ _ _ _ rfl

/-- An unquoted value ends in front of a blank, an angle, a slash or an expression. -/
theorem endsWord_of_tagBody {b : TagBody} (h : tagBody flavor n .nothing s = .ok b)
    (hs : ∀ c ∈ s.head?, isWordChar c = false) : EndsWord flavor s := by
  generalize hw : Waiting.nothing = w at h
  revert h
  fun_cases tagBody flavor n w s with
  | case1 | case6 | case7 => rintro ⟨⟩
  | case2 _ _ _ hhead | case3 _ _ _ hhead | case4 _ _ _ _ hhead =>
    exact fun _ => endsWord_of_tagHead? hhead nofun nofun
  | case5 => cases hw
  | case8 _ quoting content piece rest hhead done w' hdone =>
    intro _
    subst hw
    cases quoting with
    | double | single => cases hdone
    | bare =>
      -- a word would have been part of what is in front
      obtain ⟨⟨hne, hword⟩, -⟩ := isWord_of_tagHead? hhead
      obtain ⟨c, u, rfl⟩ := List.exists_cons_of_ne_nil hne
      have hc : isWordChar c = true := List.all_eq_true.1 hword c List.mem_cons_self
      rw [(eq_of_tagHead? hhead).1] at hs
      rw [hs c rfl] at hc
      cases hc
    | braces => exact endsWord_of_tagHead? hhead nofun (by rintro _ _ _ _ ⟨⟩; rfl)

theorem Waiting.Follows.skip (hw : w.Follows source n) (hs : source.Holds ⟨n, m⟩ p)
    (hp : IsFiller p) : w.Follows source m := by
  cases w with
  | nothing => trivial
  | value name span =>
    obtain ⟨front, hholds, hfront⟩ := hw
    exact ⟨front ++ p, hholds.append hs, IsFiller.append hfront hp⟩
  | valueAfterEquals name span =>
    obtain ⟨front, back, hholds, hfront, hback⟩ := hw
    refine ⟨front, back ++ p, ?_, hfront, IsFiller.append hback hp⟩
    have := hholds.append hs
    rwa [List.append_assoc, List.cons_append] at this

/-- What is complete without a value has none. -/
theorem follows_valueless (w : Waiting) :
    ∀ a ∈ w.valueless, a.Follows flavor source k := by
  cases w with
  | nothing => exact nofun
  | value | valueAfterEquals => exact List.forall_mem_singleton.2 nofun

/-- **A value that a tag reads is written behind its name.** -/
theorem follows_take (hw : w.Follows source n) (hs : source.Holds ⟨n, k⟩ s)
    (hhead : tagHead? flavor s = some (.value quoting content p r))
    (ht : w.take quoting content p n = .ok (done, w'))
    (hends : w' = .nothing → quoting = .bare → EndsWord flavor r) :
    (∀ a ∈ done, a.Follows flavor source k) ∧ w'.Follows source (n + width p) := by
  obtain ⟨hwrap, -⟩ : p = quoting.wrap content ∧ _ := isWritten_of_tagHead? hhead
  obtain rfl : s = p ++ r := (eq_of_tagHead? hhead).1
  have hnil : source.Holds ⟨n + width p, n + width p⟩ [] := Holds.left (t := []) hs.right
  cases w with
  | valueAfterEquals name span =>
    cases ht
    obtain ⟨front, back, hholds, hfront, hback⟩ := hw
    refine ⟨List.forall_mem_singleton.2 ?_, trivial⟩
    rintro raw ⟨⟩
    let v : ValueSource := ⟨front, back, quoting, content⟩
    have hquoted : v.quoted = p := hwrap.symm
    have hsource : v.source = front ++ '=' :: back ++ p := by
      rw [← hquoted]
      rfl
    have hn : n = span.stop + width front + 1 + width back := by
      have hstop := hholds.stop_eq
      simp only [width_append, width_cons, show '='.utf8Size = 1 from rfl] at hstop
      omega
    have hstop : n + width p = span.stop + width v.source := by
      simp only [hsource, width_append, width_cons, show '='.utf8Size = 1 from rfl]
      omega
    refine ⟨v, r, ?_, hfront, hback, by rwa [hquoted], hends rfl, by rw [hstop, hn]⟩
    have := hholds.append hs
    rwa [← List.append_assoc, ← hsource] at this
  | nothing | value =>
    have hvalueless (w : Waiting) : ∀ a ∈ w.valueless, a.Follows flavor source k :=
      follows_valueless w
    cases quoting with
    | double | single => cases ht
    | bare =>
      cases ht
      exact ⟨hvalueless _, [], hnil, isFiller_nil⟩
    | braces =>
      cases ht
      refine ⟨List.forall_mem_append.2 ⟨hvalueless _, List.forall_mem_singleton.2 nofun⟩, trivial⟩

/-- **The values of a tag are written behind their names.** -/
theorem follows_of_tagBody {b : TagBody} (h : tagBody flavor n w s = .ok b)
    (hs : source.Holds ⟨n, k⟩ s) (hw : w.Follows source n) :
    ∀ a ∈ b.attributes, a.Follows flavor source k := by
  fun_induction tagBody flavor n w s generalizing b with
  | case1 | case6 | case7 => cases h
  | case2 n w s piece r ht ih =>
    obtain ⟨hpiece, hr⟩ := holds_of_tagHead? hs ht
    obtain ⟨c, hc, rfl⟩ : ∃ c, isBlank c = true ∧ piece = [c] := isWritten_of_tagHead? ht
    exact ih h hr (hw.skip hpiece (List.forall_mem_singleton.2 (.inl hc)))
  | case3 n w s piece r ht ih =>
    obtain ⟨hpiece, hr⟩ := holds_of_tagHead? hs ht
    obtain rfl : piece = ['/'] := isWritten_of_tagHead? ht
    exact ih h hr (hw.skip hpiece (List.forall_mem_singleton.2 (.inr rfl)))
  | case4 n w s selfClosing piece r ht =>
    cases h
    exact follows_valueless w
  | case5 n s piece r ht name span ih =>
    obtain ⟨hpiece, hr⟩ := holds_of_tagHead? hs ht
    obtain rfl : piece = ['='] := isWritten_of_tagHead? ht
    obtain ⟨front, hholds, hfront⟩ := hw
    exact ih h hr ⟨front, [], hholds.append hpiece, hfront, isFiller_nil⟩
  | case8 n w s quoting content piece r ht done w' hw' ih =>
    cases hb : tagBody flavor (n + width piece) w' r with
    | error e => rw [hb] at h; cases h
    | ok b =>
      rw [hb] at h
      cases h
      have hends : w' = .nothing → quoting = .bare → EndsWord flavor r := by
        rintro rfl rfl
        exact endsWord_of_tagBody hb (stopsAt_rest ht)
      obtain ⟨hdone, hwaiting⟩ := follows_take hw hs ht hw' hends
      exact List.forall_mem_append.2 ⟨hdone, ih hb (holds_of_tagHead? hs ht).2 hwaiting⟩

/-! ## Texts -/

/-- The attributes of an open tag are those that are read behind its name. -/
theorem exists_attributes_of_openTag {name : Text} {t : OpenTag} {stop : Nat}
    (h : openTag flavor n name s = .ok (t, stop, r)) :
    ∃ b, tagBody flavor (n + 1 + width name) .nothing s = .ok b ∧ t.attributes = b.attributes := by
  simp only [openTag] at h
  split at h
  · cases h
  next b hb =>
    refine ⟨b, hb, ?_⟩
    split at h
    · split at h <;> cases h
      rfl
    · cases h
      rfl

theorem mem_attributes_of_mem_tokens {t : OpenTag} {a : RawAttribute} {span : Span}
    (h : (.attr a, span) ∈ t.tokens) : a ∈ t.attributes := by
  rw [OpenTag.tokens, List.mem_append, List.mem_cons, List.mem_map, List.mem_cons] at h
  obtain (⟨⟨⟩⟩ | ⟨b, hb, ⟨⟩⟩) | ⟨⟨⟩⟩ | h := h
  · exact hb
  · split at h
    · cases h
    · cases List.mem_singleton.1 h

/-- **The values of a text are written behind their names.** -/
theorem follows_scan (hs : source.Holds ⟨n, k⟩ s) {a : RawAttribute} {span : Span}
    (ha : (.attr a, span) ∈ (scan flavor n s).tokens) : a.Follows flavor source k := by
  -- a lexeme without attributes in front
  have behind {l : Lexeme} {r : Scan} (hl : ∀ x ∈ l.tokens, ∀ a, x.1 ≠ .attr a)
      (h : (Token.attr a, span) ∈ (r.cons l).tokens) : (Token.attr a, span) ∈ r.tokens := by
    rw [Scan.tokens, Scan.cons, List.flatMap_cons] at h
    exact (List.mem_append.1 h).resolve_left fun h => hl _ h a rfl
  fun_induction scan flavor n s with
  | case1 | case2 | case4 => cases ha
  | case3 n s p r hc ih => exact ih (holds_of_contentHead hs hc).2 ha
  | case5 n s name p r hc t stop rest ht ih =>
    obtain ⟨rfl, -⟩ := name_of_contentHead hc
    rw [(eq_of_contentHead hc).1] at hs
    rw [Scan.tokens, Scan.cons, List.flatMap_cons, List.mem_append] at ha
    obtain ha | ha := ha
    · obtain ⟨b, hb, hattributes⟩ := exists_attributes_of_openTag ht
      have hbody : source.Holds ⟨n + 1 + width name, k⟩ r := by
        have := Holds.right (t := '<' :: name) hs
        rwa [width_cons, show '<'.utf8Size = 1 from rfl, ← Nat.add_assoc] at this
      have hmem : a ∈ b.attributes := hattributes ▸ mem_attributes_of_mem_tokens ha
      exact follows_of_tagBody hb hbody trivial a hmem
    · exact ih (stands_of_openTag ht hs).2.2.2 ha
  | case6 n s name p r hc stop ih | case7 n s p r hc stop ih | case8 n s p r hc stop ih
  | case9 n s p r hc stop ih =>
    refine ih (holds_of_contentHead hs hc).2 (behind (List.forall_mem_singleton.2 ?_) ha)
    rintro a ⟨⟩
  | case10 n s p r hc run content stop ih =>
    rw [eq_append_textRun hc] at hs
    refine ih hs.right (behind (List.forall_mem_singleton.2 ?_) ha)
    rintro a ⟨⟩

/-! ## Values and what is written -/

theorem IsFiller.isBlankText_iff (hs : IsFiller s) : IsBlankText s ↔ '/' ∉ s := by
  constructor
  · intro h hmem
    have := h '/' hmem
    revert this
    decide
  · exact fun h c hc => (hs c hc).resolve_right (by rintro rfl; exact h hc)

/-- A value starts with no blank and no slash. -/
theorem head_of_tagHead? (h : tagHead? flavor s = some (.value quoting content p r)) :
    ∃ c u, s = c :: u ∧ isBlank c = false ∧ c ≠ '/' := by
  cases s with
  | nil => cases h
  | cons c u =>
    refine ⟨c, u, rfl, ?_, ?_⟩
    · by_contra hc
      rw [tagHead?_blank (by simpa using hc)] at h
      cases h
    · rintro rfl
      by_cases hu : u.head? = some '>'
      · obtain ⟨u, rfl⟩ := List.head?_eq_some_iff.1 hu
        cases h
      · rw [tagHead?_slash hu] at h
        cases h

theorem unquoted_cons {c : Char} (hc : c = '/' → s.head? ≠ some '>') :
    unquoted (c :: s) = if isBlank c || c == '>' then [] else c :: unquoted s := by
  rw [unquoted]
  rintro u rfl rfl
  exact hc rfl rfl

/-- A word is part of what is written. -/
theorem unquoted_append {word : Text} (hword : word.all isWordChar = true) (s : Text) :
    unquoted (word ++ s) = word ++ unquoted s := by
  induction word with
  | nil => rfl
  | cons c word ih =>
    rw [List.all_cons, Bool.and_eq_true] at hword
    have hc := hword.1
    have hblank := not_isBlank_of_isWordChar hc
    have hslash : c ≠ '/' := by
      rintro rfl
      cases hc
    have hangle : (c == '>') = false := by
      refine beq_eq_false_iff_ne.2 ?_
      rintro rfl
      cases hc
    rw [List.cons_append, unquoted_cons fun h => absurd h hslash, hblank, hangle, ih hword.2]
    rfl

theorem unquoted_eq_nil_iff (hs : s ≠ []) :
    unquoted s = [] ↔ (∃ c ∈ s.head?, isBlank c = true ∨ c = '>') ∨ ['/', '>'] <+: s := by
  obtain ⟨c, s, rfl⟩ := List.exists_cons_of_ne_nil hs
  by_cases hclose : c = '/' ∧ s.head? = some '>'
  · obtain ⟨rfl, hangle⟩ := hclose
    obtain ⟨u, rfl⟩ := List.head?_eq_some_iff.1 hangle
    exact iff_of_true rfl (.inr ⟨u, rfl⟩)
  · have hstart : ¬ ['/', '>'] <+: c :: s := by
      rintro ⟨u, hu⟩
      cases hu
      exact hclose ⟨rfl, rfl⟩
    rw [unquoted_cons fun h h' => hclose ⟨h, h'⟩]
    simp [hstart, or_iff_not_imp_left]

/-- The first slash in filler is in front of what is left of it without the blanks at its start. -/
theorem IsFiller.exists_dropWhile (hs : IsFiller s) (hslash : '/' ∈ s) (t : Text) :
    ∃ u, (s ++ t).dropWhile isBlank = '/' :: u := by
  induction s with
  | nil => cases hslash
  | cons c s ih =>
    rw [List.cons_append, List.dropWhile_cons]
    by_cases hc : isBlank c = true
    · have hne : '/' ≠ c := by
        rintro rfl
        cases hc
      rw [if_pos hc]
      exact ih (fun d hd => hs d (List.mem_cons_of_mem c hd)) (List.mem_of_ne_of_mem hne hslash)
    · obtain rfl : c = '/' := (hs c List.mem_cons_self).resolve_left hc
      exact ⟨s ++ t, if_neg hc⟩

/-- A slash is the first of what is written, unless it ends the tag. -/
theorem head_authored_of_slash {u : Text} (hs : s.dropWhile isBlank = '/' :: u) :
    ∀ c ∈ (authored flavor s).head?, c = '/' := by
  rw [authored, hs]
  by_cases hu : u.head? = some '>'
  · obtain ⟨u, rfl⟩ := List.head?_eq_some_iff.1 hu
    rintro c ⟨⟩
  · rw [tagHead?_slash hu]
    simp only [unquoted_cons fun _ => hu]
    rintro c ⟨⟩
    rfl

/-- **Whether a value is what was written**: there are no slashes around it, and if it is unquoted
there is a blank or the end of the tag behind it. -/
theorem ValueSource.Follows.authored_iff {v : ValueSource} {raw : RawValue}
    (h : v.Follows flavor n raw behind) :
    (IsBlankText v.front ∧ authored flavor (v.back ++ v.quoted ++ behind) = v.quoted) ↔
      ('/' ∉ v.front ∧ '/' ∉ v.back) ∧ (v.quoting = .bare →
        (∃ c ∈ behind.head?, isBlank c = true ∨ c = '>') ∨ ['/', '>'] <+: behind) := by
  rw [h.front.isBlankText_iff, and_assoc]
  refine and_congr_right fun _ => ?_
  obtain ⟨c, u, hc, hblank, hslash⟩ := head_of_tagHead? h.head
  rw [List.append_assoc]
  by_cases hback : '/' ∈ v.back
  · refine iff_of_false (fun hauthored => ?_) fun h => h.1 hback
    obtain ⟨t, ht⟩ := h.back.exists_dropWhile hback (v.quoted ++ behind)
    have hfirst : (authored flavor (v.back ++ (v.quoted ++ behind))).head? = some c := by
      obtain ⟨d, w, hquoted⟩ := List.exists_cons_of_ne_nil (eq_of_tagHead? h.head).2
      have hquoted : v.quoted = d :: w := hquoted
      rw [hauthored, hquoted]
      rw [hquoted] at hc
      exact congrArg List.head? (congrArg (List.take 1) hc)
    exact hslash (head_authored_of_slash ht c hfirst)
  · have hdrop : (v.back ++ (v.quoted ++ behind)).dropWhile isBlank = v.quoted ++ behind := by
      refine dropWhile_append_of_stop (List.all_eq_true.2 (h.back.isBlankText_iff.2 hback)) ?_
      rw [hc]
      rintro d ⟨⟩
      exact hblank
    rw [authored, hdrop, h.head]
    simp only [hback, not_false_eq_true, true_and]
    split_ifs with hbare
    · have hword : v.quoted.all isWordChar = true :=
        (isWord_of_tagHead? (hbare ▸ h.head)).1.2
      obtain ⟨d, hd, -⟩ := h.ends hbare
      have hbehind : behind ≠ [] := by
        rintro rfl
        cases hd
      rw [unquoted_append hword, List.append_right_eq_self, unquoted_eq_nil_iff hbehind]
      exact ⟨fun h _ => h, fun h => h hbare⟩
    · exact iff_of_true rfl fun h => absurd h hbare

/-- **The value of an attribute is written behind its name, an equals sign and filler around it.**
It is all that was written exactly if there is no slash in the filler and an unquoted value does not
go on with a slash or an expression. -/
theorem Tokenizer.value_authored_iff (flavor : Flavor) (p m q : Text)
    {tokens : List (Token × Span)} {fault : Option ParseError}
    (h : (bounded flavor ⟨width p, width p + width m⟩ (p ++ m ++ q)).Emits tokens fault)
    {a : RawAttribute} {raw : RawValue} {span : Span} (ha : (.attr a, span) ∈ tokens)
    (hraw : raw ∈ a.value) :
    ∃ (v : ValueSource) (behind : Text),
      (p ++ m ++ q).Holds ⟨a.nameSpan.stop, width p + width m⟩ (v.source ++ behind) ∧
      v.Follows flavor a.nameSpan.stop raw behind ∧
      ((IsBlankText v.front ∧ authored flavor (v.back ++ v.quoted ++ behind) = v.quoted) ↔
        ('/' ∉ v.front ∧ '/' ∉ v.back) ∧ (v.quoting = .bare →
          (∃ c ∈ behind.head?, isBlank c = true ∨ c = '>') ∨ ['/', '>'] <+: behind)) := by
  have hholds : (p ++ m ++ q).Holds ⟨width p, width p + width m⟩ m := ⟨p, q, rfl, rfl⟩
  have hemits := emits_scan flavor hholds
  rw [bounded, Nat.min_eq_left hholds.stop_le] at h
  obtain ⟨rfl, -⟩ := h.unique hemits
  obtain ⟨v, behind, hv, hfollows⟩ := follows_scan hholds ha raw hraw
  exact ⟨v, behind, hv, hfollows, hfollows.authored_iff⟩

/-- The address of a link, without quotes. -/
theorem Tokenizer.value_authored_iff_link :
    ∃ (tokens : List (Token × Span)) (a : RawAttribute) (raw : RawValue) (span : Span),
      (bounded .html ⟨0, 13⟩ "<a href=docs>".toList).Emits tokens none ∧
      (.attr a, span) ∈ tokens ∧ raw ∈ a.value ∧ raw.text = "docs".toList ∧
      ∃ (v : ValueSource) (behind : Text), v.Follows .html a.nameSpan.stop raw behind := by
  let a : RawAttribute :=
    ⟨"href".toList, ⟨3, 7⟩, some ⟨"docs".toList, ⟨8, 12⟩, .bare⟩⟩
  have hemits := (Tokenizer.emits_iff .html [] "<a href=docs>".toList [] _).2 rfl
  have hfault : ((scanAll .html "<a href=docs>".toList).shift 0).fault = none := by decide +kernel
  have ha : (.attr a, ⟨3, 12⟩) ∈ ((scanAll .html "<a href=docs>".toList).shift 0).tokens := by
    decide +kernel
  obtain ⟨v, behind, -, hfollows, -⟩ :=
    Tokenizer.value_authored_iff .html [] "<a href=docs>".toList [] hemits ha rfl
  exact ⟨_, a, _, _, hfault ▸ hemits, ha, rfl, rfl, v, behind, hfollows⟩

/-- Of an address with slashes one part is read as the value, and another part as an attribute. -/
theorem Tokenizer.not_value_authored :
    ∃ (tokens : List (Token × Span)) (a : RawAttribute) (raw : RawValue) (span : Span),
      (bounded .html ⟨0, 16⟩ "<a href=/docs/a>".toList).Emits tokens none ∧
      (.attr a, span) ∈ tokens ∧ raw ∈ a.value ∧
      Holds "<a href=/docs/a>".toList ⟨a.nameSpan.stop, raw.span.start⟩ "=/".toList ∧
      raw.text = "docs".toList ∧ authored .html "/docs/a>".toList = "/docs/a".toList ∧
      (.attr ⟨"a".toList, ⟨14, 15⟩, none⟩, ⟨14, 15⟩) ∈ tokens := by
  let a : RawAttribute :=
    ⟨"href".toList, ⟨3, 7⟩, some ⟨"docs".toList, ⟨9, 13⟩, .bare⟩⟩
  have hemits := (Tokenizer.emits_iff .html [] "<a href=/docs/a>".toList [] _).2 rfl
  have hfault : ((scanAll .html "<a href=/docs/a>".toList).shift 0).fault = none := by
    decide +kernel
  have ha : (.attr a, ⟨3, 13⟩) ∈ ((scanAll .html "<a href=/docs/a>".toList).shift 0).tokens := by
    decide +kernel
  have hother : (.attr ⟨"a".toList, ⟨14, 15⟩, none⟩, ⟨14, 15⟩) ∈
      ((scanAll .html "<a href=/docs/a>".toList).shift 0).tokens := by
    decide +kernel
  refine ⟨_, a, _, _, hfault ▸ hemits, ha, rfl, ?_, rfl, by decide +kernel, hother⟩
  exact ⟨"<a href".toList, "docs/a>".toList, rfl, rfl⟩

end MarkupSync
