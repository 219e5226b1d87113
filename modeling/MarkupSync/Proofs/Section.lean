import MarkupSync.Proofs.Text.Range
import MarkupSync.Proofs.Text.Search
import MarkupSync.Section

/-!
# Sections of a component

* `Section.holds_readAt`: the content of a block and the text behind it stand in the source;
* **`Sections.isRange_content`**: the content of a section is a range of the source;
* **`Sections.isApart_content`**: the contents of sections do not touch;
* `Section.opens_iff`: how a block starts (`eq_of_opens`: it has one kind);
* **`Section.nextOpen?_congr`**: the next block is found in front of whatever starts a block of its
  kind;
* **`Section.readAt_congr`**: a block that is no template takes the same text, whatever follows it.
-/

namespace MarkupSync

open Text

/-! ## Where sections stand -/

section Places

variable {source s r : Text} {start : Nat}

namespace Section

/-- In front of a block is what was skipped. -/
theorem eq_of_nextOpen? {p : Text} {kind : SectionKind} (h : nextOpen? s = some (kind, p, r)) :
    s = p ++ r := by
  fun_induction nextOpen? s generalizing p with
  | case1 | case2 => cases h
  | case3 c s _ q t hc ih =>
    obtain ⟨⟨k, p', r'⟩, hnext, hk⟩ := Option.map_eq_some_iff.1 h
    cases hk
    rw [Text.eq_of_cut?_eq_some hc, ih hnext]
    simp
  | case4 =>
    cases h
    rfl
  | case5 c s _ _ ih =>
    obtain ⟨⟨k, p', r'⟩, hnext, hk⟩ := Option.map_eq_some_iff.1 h
    cases hk
    rw [ih hnext]
    rfl

/-- The content of a block and the text behind the block stand in the source. -/
theorem holds_readAt {stop : Nat} (hs : source.Holds ⟨start, stop⟩ s) {kind : SectionKind}
    {block : Section} (h : readAt kind start s = .ok (block, r)) :
    (∃ t, source.Holds block.content t) ∧ source.Holds ⟨block.outer.stop, stop⟩ r := by
  simp only [readAt] at h
  split at h
  · cases h
  next tag t htag =>
    rw [(eq_of_tagEnd? htag).1] at hs
    have hs := hs.right
    split at h
    · cases h
      have hempty := Holds.left (t := []) hs
      exact ⟨⟨[], hempty⟩, hs⟩
    · split at h
      · cases h
      next content u hcontent =>
        cases h
        rw [eq_of_content? hcontent] at hs
        have hrest := hs.right
        rw [← closeTag_append u] at hrest
        exact ⟨⟨content, hs.left⟩, hrest.right⟩

/-- In front of the content of a block is its open tag. -/
theorem content_of_readAt {kind : SectionKind} {block : Section}
    (h : readAt kind start s = .ok (block, r)) :
    start < block.content.start ∧ block.content.start ≤ block.content.stop ∧
      block.content.stop ≤ block.outer.stop := by
  simp only [readAt] at h
  split at h
  · cases h
  next tag t htag =>
    have hpos : 0 < width tag := by
      have := mt width_eq_zero.1 (eq_of_tagEnd? htag).2
      omega
    split at h
    · cases h
      simp only
      omega
    · split at h
      · cases h
      · cases h
        simp only
        omega

end Section

namespace Sections

theorem get?_add {found : Sections} {kind k : SectionKind} {block b : Section}
    (h : (found.add kind block).get? k = some b) :
    found.get? k = some b ∨ b = block ∧ k = kind := by
  cases kind <;> cases k <;>
    simp only [add, get?, Option.or_eq_some_iff, Option.some.injEq] at h ⊢ <;>
    grind

/-- The contents of all blocks stand in the source. -/
theorem holds_splitAt {found sections : Sections} {stop : Nat}
    (hs : source.Holds ⟨start, stop⟩ s)
    (hfound : ∀ kind b, found.get? kind = some b → ∃ t, source.Holds b.content t)
    (h : splitAt start found s = .ok sections) :
    ∀ kind b, sections.get? kind = some b → ∃ t, source.Holds b.content t := by
  fun_induction splitAt start found s with
  | case1 =>
    cases h
    exact hfound
  | case2 => cases h
  | case3 start found s kind skipped rest hnext block rest' hread ih =>
    rw [Section.eq_of_nextOpen? hnext] at hs
    obtain ⟨hcontent, hrest⟩ := Section.holds_readAt hs.right hread
    refine ih hrest (fun k b hb => ?_) h
    obtain hb | ⟨rfl, -⟩ := get?_add hb
    · exact hfound k b hb
    · exact hcontent

/-- **The content of a section is a range of the source.** -/
theorem isRange_content {sections : Sections} (h : split source = .ok sections) {kind : SectionKind}
    {b : Section} (hb : sections.get? kind = some b) :
    source.IsRange ⟨0, width source⟩ b.content := by
  obtain ⟨t, ht⟩ := holds_splitAt (.self source) (fun kind b hb => by cases kind <;> cases hb) h
    kind b hb
  exact ht.isRange ⟨Nat.zero_le _, ht.stop_le⟩

/-- The contents of blocks of different kinds do not touch. -/
theorem isApart_splitAt {found sections : Sections}
    (hfound : ∀ kind b, found.get? kind = some b → b.content.stop ≤ start)
    (hapart : ∀ kind kind' b b', kind ≠ kind' → found.get? kind = some b →
      found.get? kind' = some b' → b.content.IsApart b'.content)
    (h : splitAt start found s = .ok sections) :
    ∀ kind kind' b b', kind ≠ kind' → sections.get? kind = some b →
      sections.get? kind' = some b' → b.content.IsApart b'.content := by
  fun_induction splitAt start found s with
  | case1 =>
    cases h
    exact hapart
  | case2 => cases h
  | case3 start found s kind skipped rest hnext block rest' hread ih =>
    obtain ⟨hstart, hle, hstop⟩ := Section.content_of_readAt hread
    have hnew {k b} (hb : found.get? k = some b) : b.content.IsApart block.content := by
      have := hfound k b hb
      exact .inl (by omega)
    refine ih (fun k b hb => ?_) (fun k k' b b' hne hb hb' => ?_) h
    · obtain hb | ⟨rfl, -⟩ := get?_add hb
      · have := hfound k b hb
        omega
      · exact hstop
    · obtain hold | ⟨rfl, rfl⟩ := get?_add hb
      · obtain hold' | ⟨rfl, -⟩ := get?_add hb'
        · exact hapart k k' b b' hne hold hold'
        · exact hnew hold
      · obtain hold' | ⟨-, rfl⟩ := get?_add hb'
        · exact (hnew hold').symm
        · exact absurd rfl hne

/-- **The contents of sections of different kinds do not touch.** -/
theorem isApart_content {sections : Sections} (h : split source = .ok sections)
    {kind kind' : SectionKind} {b b' : Section} (hne : kind ≠ kind')
    (hb : sections.get? kind = some b) (hb' : sections.get? kind' = some b') :
    b.content.IsApart b'.content :=
  isApart_splitAt (fun kind b hb => by cases kind <;> cases hb)
    (fun kind _ b _ _ hb => by cases kind <;> cases hb) h kind kind' b b' hne hb hb'

end Sections

end Places

namespace Section

variable {kind k : SectionKind} {c : Char} {s t p r : Text}

/-! ## How a block starts -/

/-- A block starts with an angle, its tag and the end of its name. -/
theorem opens_iff : opens kind s = true ↔ ∃ m d t, s = m ++ d :: t ∧ lower m = '<' :: kind.tag ∧
    (d = '>' ∨ d = '/' ∨ isBlank d = true) := by
  constructor
  · intro h
    rw [opens] at h
    split at h
    next c r hw =>
      obtain ⟨m, u, rfl, hm, hu⟩ := List.map_eq_append_iff.1 (eq_of_afterWord? hw)
      obtain ⟨d, t, rfl, rfl, -⟩ := List.map_eq_cons_iff.1 hu
      refine ⟨m, d, t, rfl, hm, ?_⟩
      simp only [Bool.or_eq_true, beq_iff_eq, isBlank_toLower] at h
      rcases h with (h | h) | h
      · exact .inl (eq_of_toLower_eq (by decide) h)
      · exact .inr (.inl (eq_of_toLower_eq (by decide) h))
      · exact .inr (.inr h)
    next => cases h
  · rintro ⟨m, d, t, rfl, hm, hd⟩
    rw [opens, lower_append, hm, afterWord?_append]
    rcases hd with rfl | rfl | hd
    · rfl
    · rfl
    · have : isBlank d.toLower = true := (isBlank_toLower d).trans hd
      simp [lower, this]

theorem angle_of_opens (h : opens kind s = true) : ∃ t, s = '<' :: t := by
  obtain ⟨m, d, t, rfl, hm, -⟩ := opens_iff.1 h
  cases m with
  | nil => cases hm
  | cons c m =>
    obtain rfl : c = '<' := eq_of_toLower_eq (by decide) (List.cons.inj hm).1
    exact ⟨_, rfl⟩

/-- A block has one kind. -/
theorem eq_of_opens (h : opens kind s = true) (h' : opens k s = true) : kind = k := by
  have key {kind : SectionKind} (h : opens kind s = true) :
      (lower s).take 3 = '<' :: kind.tag.take 2 := by
    obtain ⟨m, d, t, rfl, hm, -⟩ := opens_iff.1 h
    have hlen : 3 ≤ (lower m).length := by
      rw [hm]
      cases kind <;> decide
    rw [lower_append, List.take_append_of_le_length hlen, hm]
    rfl
  have htag := (List.cons.inj ((key h).symm.trans (key h'))).2
  cases kind <;> cases k <;> first | rfl | exact absurd htag (by decide)

theorem find?_opens (h : opens kind s = true) :
    SectionKind.all.find? (opens · s) = some kind := by
  have hne (k : SectionKind) (hk : k ≠ kind) : opens k s = false :=
    Bool.eq_false_iff.2 fun h' => hk (eq_of_opens h' h)
  cases kind <;> simp [SectionKind.all, List.find?, h, hne]

/-- A block starts in front of an angle as it does in front of the end. -/
theorem opens_append_angle (kind : SectionKind) (c : Char) (s t : Text) :
    opens kind (c :: s ++ '<' :: t) = opens kind (c :: s) := by
  have htag : '<' ∉ kind.tag := by cases kind <;> decide
  have key : afterWord? kind.tag (lower s ++ '<' :: lower t) =
      (afterWord? kind.tag (lower s)).map (· ++ '<' :: lower t) :=
    afterWord?_append_of_head (fun d hd => by cases hd; exact htag) _
  have happend : lower (c :: s ++ '<' :: t) = c.toLower :: (lower s ++ '<' :: lower t) := by
    rw [List.cons_append, lower, List.map_cons, List.map_append]
    rfl
  have hcons : lower (c :: s) = c.toLower :: lower s := rfl
  rw [opens, opens, happend, hcons, afterWord?, afterWord?, key]
  by_cases hc : '<' = c.toLower
  · rw [if_pos hc, if_pos hc]
    cases hw : afterWord? kind.tag (lower s) with
    | none => rfl
    | some r =>
      cases r with
      | nil => rfl
      | cons d r => rfl
  · rw [if_neg hc, if_neg hc]

/-! ## The next block -/

/-- A comment starts in front of an angle as it does in front of the end. -/
theorem startsWith_comment_append_angle (c : Char) (s t : Text) :
    startsWith ['<', '!', '-', '-'] (c :: s ++ '<' :: t) =
      startsWith ['<', '!', '-', '-'] (c :: s) := by
  rw [List.cons_append, startsWith_cons, startsWith_cons, startsWith_append_of_head]
  intro d hd
  cases hd
  decide

theorem not_startsWith_comment_of_opens (h : opens kind s = true) :
    startsWith ['<', '!', '-', '-'] s = false := by
  obtain ⟨m, d, t, rfl, hm, -⟩ := opens_iff.1 h
  have hlen := congrArg List.length hm
  rw [lower, List.length_map, List.length_cons] at hlen
  obtain _ | ⟨c, _ | ⟨e, m⟩⟩ := m
  · cases hlen
  · cases kind <;> cases hlen
  · have he : '!' ≠ e := by
      rintro rfl
      have htag : kind.tag[0]? ≠ some '!'.toLower := by cases kind <;> decide
      have hsecond := congrArg (·[1]?) hm
      simp only [lower, List.map_cons, List.getElem?_cons_succ, List.getElem?_cons_zero] at hsecond
      exact htag hsecond.symm
    simp [startsWith_cons, he]

theorem opens_of_nextOpen? (h : nextOpen? s = some (kind, p, r)) : opens kind r = true := by
  fun_induction nextOpen? s generalizing p with
  | case1 | case2 => cases h
  | case3 c s _ q t hc ih =>
    obtain ⟨⟨k, p', r'⟩, hnext, hk⟩ := Option.map_eq_some_iff.1 h
    cases hk
    exact ih hnext
  | case4 c s _ k hk =>
    cases h
    exact List.find?_some (p := (opens · (c :: s))) hk
  | case5 c s _ _ ih =>
    obtain ⟨⟨k, p', r'⟩, hnext, hk⟩ := Option.map_eq_some_iff.1 h
    cases hk
    exact ih hnext

theorem nextOpen?_of_opens (h : opens kind s = true) : nextOpen? s = some (kind, [], s) := by
  obtain ⟨t, rfl⟩ := angle_of_opens h
  rw [nextOpen?, if_neg (Bool.eq_false_iff.1 (not_startsWith_comment_of_opens h)), find?_opens h]

/-- **The next block is found in front of whatever starts a block of its kind.** -/
theorem nextOpen?_congr (h : nextOpen? s = some (kind, p, r)) {t : Text} (ht : opens kind t = true) :
    nextOpen? (p ++ t) = some (kind, p, t) := by
  obtain ⟨u, rfl⟩ := angle_of_opens ht
  fun_induction nextOpen? s generalizing p with
  | case1 | case2 => cases h
  | case3 c s hcomment q r' hc ih =>
    obtain ⟨⟨k, p', r''⟩, hnext, hk⟩ := Option.map_eq_some_iff.1 h
    cases hk
    have heq := eq_of_cut?_eq_some hc
    cases q with
    | nil =>
      rw [List.nil_append, List.cons_append] at heq
      cases heq
      simp [startsWith_cons] at hcomment
    | cons d q =>
      have hstart : startsWith ['<', '!', '-', '-'] (d :: q ++ ['-', '-', '>'] ++ (p' ++ '<' :: u)) =
          true := by
        rw [heq, startsWith, afterWord?_append_of_le (by simp), Option.isSome_map] at hcomment
        rw [startsWith, afterWord?_append_of_le (by simp), Option.isSome_map]
        exact hcomment
      have hcut := cut?_congr hc (p' ++ '<' :: u)
      have hcons : d :: q ++ ['-', '-', '>'] ++ p' ++ '<' :: u =
          d :: (q ++ ['-', '-', '>'] ++ (p' ++ '<' :: u)) := by simp
      rw [hcons, nextOpen?]
      simp only [List.cons_append] at hstart hcut
      rw [if_pos hstart]
      split
      next hnone => rw [hnone] at hcut; cases hcut
      next q' r₁ hsome =>
        rw [hsome] at hcut
        cases hcut
        rw [ih hnext]
        simp
  | case4 c s hcomment k hk =>
    cases h
    exact nextOpen?_of_opens ht
  | case5 c s hcomment hnone ih =>
    obtain ⟨⟨k, p', r''⟩, hnext, hk⟩ := Option.map_eq_some_iff.1 h
    cases hk
    obtain ⟨v, rfl⟩ := angle_of_opens (opens_of_nextOpen? hnext)
    have heq := eq_of_nextOpen? hnext
    rw [heq, ← List.cons_append, startsWith_comment_append_angle] at hcomment
    rw [heq, ← List.cons_append] at hnone
    simp only [opens_append_angle] at hnone
    rw [← startsWith_comment_append_angle c p' u] at hcomment
    simp only [← opens_append_angle _ c p' u] at hnone
    rw [List.cons_append] at hcomment hnone ⊢
    rw [nextOpen?, if_neg hcomment, hnone, ih hnext]
    rfl

/-- A block starts behind a character that starts none. -/
theorem nextOpen?_cons (hc : c ≠ '<') (s : Text) :
    nextOpen? (c :: s) = (nextOpen? s).map fun (kind, q, t) => (kind, c :: q, t) := by
  have hcomment : startsWith ['<', '!', '-', '-'] (c :: s) = false := by
    simp [startsWith_cons, Ne.symm hc]
  have hnone : SectionKind.all.find? (opens · (c :: s)) = none := by
    refine List.find?_eq_none.2 fun k _ hk => ?_
    obtain ⟨t, ht⟩ := angle_of_opens hk
    cases ht
    exact hc rfl
  rw [nextOpen?, if_neg (Bool.eq_false_iff.1 hcomment), hnone]

/-! ## What a block takes -/

/-- An open tag ends where it ends, whatever follows it. -/
theorem tagEnd?_congr {q : Option Char} (h : tagEnd? q s = some (p, r)) (t : Text) :
    tagEnd? q (p ++ t) = some (p, t) := by
  fun_induction tagEnd? q s generalizing p with
  | case1 => cases h
  | case2 q c s ih =>
    obtain ⟨p', h', rfl⟩ := extend_eq_some.1 h
    rw [List.cons_append, List.cons_append, tagEnd?, List.nil_append, ih h']
    rfl
  | case3 s =>
    cases h
    rfl
  | case4 c s hc ih =>
    obtain ⟨p', h', rfl⟩ := extend_eq_some.1 h
    rw [List.cons_append, List.cons_append, tagEnd?, if_neg hc, List.nil_append, ih h']
    rfl

/-- Characters that are no end and no quote are in front of the end of an open tag. -/
theorem tagEnd?_append {m : Text} (hm : ∀ c ∈ m, c ≠ '>' ∧ c ≠ '"' ∧ c ≠ '\'') (s : Text) :
    tagEnd? none (m ++ s) = extend m (tagEnd? none s) := by
  induction m with
  | nil => cases h : tagEnd? none s <;> simp [extend, h]
  | cons c m ih =>
    obtain ⟨⟨h1, h2, h3⟩, hm⟩ := List.forall_mem_cons.1 hm
    rw [List.cons_append, tagEnd?, if_neg h1, if_neg (by simp [h2, h3]), ih hm]
    cases h : tagEnd? none s <;> simp [extend]

/-- The open tag of a block is enough to open it. -/
theorem opens_of_tagEnd? (h : opens kind s = true) (htag : tagEnd? none s = some (p, r)) (t : Text) :
    opens kind (p ++ t) = true := by
  obtain ⟨m, d, u, rfl, hm, hd⟩ := opens_iff.1 h
  have hplain : ∀ c ∈ m, c ≠ '>' ∧ c ≠ '"' ∧ c ≠ '\'' := by
    intro c hc
    have hmem : c.toLower ∈ '<' :: kind.tag := hm ▸ List.mem_map_of_mem hc
    refine ⟨?_, ?_, ?_⟩
    all_goals
      rintro rfl
      cases kind <;> exact absurd hmem (by decide)
  rw [tagEnd?_append hplain] at htag
  obtain ⟨p', h', rfl⟩ := extend_eq_some.1 htag
  obtain ⟨heq, hne⟩ := eq_of_tagEnd? h'
  cases p' with
  | nil => exact absurd rfl hne
  | cons e p' =>
    cases heq
    exact opens_iff.2 ⟨m, d, p' ++ t, by simp, hm, hd⟩

theorem angle_of_closes (h : closes kind s = true) : ∃ t, s = '<' :: t := by
  cases s with
  | nil => cases h
  | cons c s =>
    rw [closes, lower, List.map_cons, startsWith_cons, Bool.and_eq_true, beq_iff_eq] at h
    exact ⟨s, by rw [eq_of_toLower_eq (by decide) h.1.symm]⟩

/-- A close tag starts in front of an angle as it does in front of the end. -/
theorem closes_append_angle (kind : SectionKind) (c : Char) (s t : Text) :
    closes kind (c :: s ++ '<' :: t) = closes kind (c :: s) := by
  have hcons (s : Text) : lower (c :: s) = c.toLower :: lower s := rfl
  rw [closes, closes, List.cons_append, hcons, hcons, startsWith_cons, startsWith_cons, lower_append,
    startsWith_append_of_head]
  intro d hd
  cases hd
  cases kind <;> decide

/-- Behind content is its close tag. -/
theorem closes_of_flatContent? (h : flatContent? kind s = some (p, r)) : closes kind r = true := by
  fun_induction flatContent? kind s generalizing p with
  | case1 => cases h
  | case2 c s hc =>
    cases h
    exact hc
  | case3 c s _ ih =>
    obtain ⟨p', h', -⟩ := extend_eq_some.1 h
    exact ih h'

theorem closes_of_templateContent? {depth : Nat} (h : templateContent? depth s = some (p, r)) :
    closes .template r = true := by
  fun_induction templateContent? depth s generalizing p with
  | case1 => cases h
  | case2 c s hc =>
    cases h
    exact hc
  | case3 _ _ _ _ ih | case4 _ _ _ _ _ ih | case5 _ _ _ _ _ ih =>
    obtain ⟨p', h', -⟩ := extend_eq_some.1 h
    exact ih h'

/-- Content ends in front of whatever closes it. -/
theorem flatContent?_congr (hkind : content? kind = flatContent? kind)
    (h : flatContent? kind s = some (p, r)) (ht : closes kind t = true) :
    flatContent? kind (p ++ t) = some (p, t) := by
  obtain ⟨u, rfl⟩ := angle_of_closes ht
  obtain ⟨v, rfl⟩ := angle_of_closes (closes_of_flatContent? h)
  fun_induction flatContent? kind s generalizing p with
  | case1 => cases h
  | case2 c s hc =>
    cases h
    rw [List.nil_append, flatContent?, if_pos ht]
  | case3 c s hc ih =>
    obtain ⟨p', h', rfl⟩ := extend_eq_some.1 h
    have heq : s = p' ++ '<' :: v := eq_of_content? (hkind ▸ h')
    rw [heq, ← List.cons_append, closes_append_angle, ← closes_append_angle kind c p' u] at hc
    simp only [List.cons_append, List.nil_append] at hc ⊢
    rw [flatContent?, if_neg hc, ih h']
    rfl

/-- A close tag that has an end is the same whatever follows it. -/
theorem closeTag_congr (hs : (closeTag s).2 ≠ []) (t : Text) :
    closeTag ((closeTag s).1 ++ t) = ((closeTag s).1, t) := by
  simp only [closeTag] at hs ⊢
  split at hs
  next p r hc => simp only [cut?_congr hc]
  next => exact absurd rfl hs

theorem closes_closeTag (h : closes kind s = true) (hs : (closeTag s).2 ≠ []) (t : Text) :
    closes kind ((closeTag s).1 ++ t) = true := by
  simp only [closeTag] at hs ⊢
  split at hs
  next p r hc =>
    have hhead : ∀ d ∈ (lower ('>' :: r)).head?, d ∉ '<' :: '/' :: kind.tag := by
      intro d hd
      cases hd
      cases kind <;> decide
    rw [eq_of_cut?_eq_some hc, closes, List.append_assoc, lower_append, List.singleton_append,
      startsWith_append_of_head hhead] at h
    rw [closes, List.append_assoc, lower_append]
    exact startsWith_append h _
  next => exact absurd rfl hs

/-- **A block that is no template takes the same text, whatever follows it.** -/
theorem readAt_congr {start : Nat} {block : Section} (hkind : kind ≠ .template)
    (h : readAt kind start s = .ok (block, r)) (hr : r ≠ []) :
    ∃ b, s = b ++ r ∧ block.outer.stop = start + width b ∧ ∀ t,
      readAt kind start (b ++ t) = .ok (block, t) ∧
      (opens kind s = true → opens kind (b ++ t) = true) := by
  have hcontent : content? kind = flatContent? kind := by
    cases kind with
    | template => exact absurd rfl hkind
    | script | style => rfl
  simp only [readAt, hcontent] at h
  split at h
  · cases h
  next tag u htag =>
    obtain ⟨rfl, -⟩ := eq_of_tagEnd? htag
    split at h
    next hself =>
      cases h
      refine ⟨tag, rfl, rfl, fun t => ⟨?_, fun ho => opens_of_tagEnd? ho htag t⟩⟩
      simp only [readAt, tagEnd?_congr htag, hself, if_true]
    next hself =>
      split at h
      · cases h
      next content v hc =>
        cases h
        have hcloses := closes_of_flatContent? hc
        have heq : u = content ++ v := eq_of_content? (hcontent ▸ hc)
        refine ⟨tag ++ (content ++ (closeTag v).1), ?_, ?_, fun t => ⟨?_, fun ho => ?_⟩⟩
        · rw [heq]
          simp [closeTag_append]
        · simp [Nat.add_assoc]
        · have hflat := flatContent?_congr hcontent hc (closes_closeTag hcloses hr t)
          simp only [readAt, hcontent, List.append_assoc, tagEnd?_congr htag, hself, hflat,
            closeTag_congr hr]
          rfl
        · rw [List.append_assoc]
          exact opens_of_tagEnd? ho htag _

end Section

end MarkupSync
