import MarkupSync.Proofs.Style.Declarations
import MarkupSync.Proofs.Text.Trim
import MarkupSync.Proofs.Tree.Everywhere

/-!
# Declarations that were read

* `isUnsplit_congr`: only quotes, brackets and separators decide where a text is split;
* `isUnsplit_of_mem_splitTop`: a part is not split again;
* `trimmed_lower`, `lower_lower`, `filter_trimmed`, `filter_lower`: properties and values as they are read;
* `exists_of_readDeclaration?`, `filter_of_readDeclaration?`: what a declaration is read of;
* **`isReadable_of_mem_readDeclarations`**: declarations that were read are read from the
  declarations they make.
-/

namespace MarkupSync.Style

open Text

/-! ## Characters that divide nothing -/

/-- Spaces and letters neither open nor close nor separate anything. -/
theorem isInert_of {c : Char} (h : isSpace c = true ∨ c.isAlpha = true) : isInert ';' c = true := by
  have hne {d : Char} (hd : isSpace d = false ∧ d.isAlpha = false) : (c == d) = false := by
    rw [beq_eq_false_iff_ne]
    rintro rfl
    rw [hd.1, hd.2] at h
    rcases h with h | h <;> cases h
  simp [isInert, isQuote, opensGroup, closesGroup, hne (d := '"') (by decide),
    hne (d := '\'') (by decide), hne (d := '\x60') (by decide), hne (d := '(') (by decide),
    hne (d := '[') (by decide), hne (d := '\x7b') (by decide), hne (d := ')') (by decide),
    hne (d := ']') (by decide), hne (d := '\x7d') (by decide), hne (d := ';') (by decide)]

/-- Whether a character may divide a list of declarations. -/
def divides (c : Char) : Bool := !isInert ';' c

/-- What is left out divides nothing. -/
theorem isUnsplit_filter {q : Option Char} (hq : ∀ c ∈ q, divides c = true) (depth : Int) (s : Text) :
    IsUnsplit ';' q depth (s.filter divides) ↔ IsUnsplit ';' q depth s := by
  induction s generalizing q depth with
  | nil => simp [IsUnsplit]
  | cons c s ih =>
    cases hc : divides c with
    | false =>
      rw [List.filter_cons_of_neg (by simp [hc]), ih hq]
      cases q with
      | some q =>
        have hcq : c ≠ q := by
          rintro rfl
          rw [hq c rfl] at hc
          cases hc
        rw [IsUnsplit, if_neg hcq]
      | none =>
        have hinert : isInert ';' c = true := by simpa [divides] using hc
        simp only [isInert, Bool.not_eq_true', Bool.or_eq_false_iff, beq_eq_false_iff_ne] at hinert
        obtain ⟨⟨⟨hquote, hopen⟩, hclose⟩, hsep⟩ := hinert
        simp [IsUnsplit, hquote, hopen, hclose, hsep]
    | true =>
      rw [List.filter_cons_of_pos hc]
      cases q with
      | some q =>
        rw [IsUnsplit, IsUnsplit]
        refine ih (fun d hd => ?_) depth
        split at hd
        · cases hd
        · exact hq d hd
      | none =>
        rw [IsUnsplit, IsUnsplit, ih (q := some c) (by simpa using hc),
          ih (q := none) (by simp), ih (q := none) (by simp), ih (q := none) (by simp)]

theorem isUnsplit_congr {s t : Text} (h : s.filter divides = t.filter divides) :
    IsUnsplit ';' none 0 s ↔ IsUnsplit ';' none 0 t := by
  have hnone : ∀ c ∈ (none : Option Char), divides c = true := by simp
  rw [← isUnsplit_filter hnone, h, isUnsplit_filter hnone]

/-! ## Parts -/

theorem splitFrom_ne_nil (sep : Char) (q : Option Char) (depth : Int) (s : Text) :
    splitFrom sep q depth s ≠ [] := by
  have hcons (c : Char) (ps : List Text) : consFirst c ps ≠ [] := by cases ps <;> simp [consFirst]
  fun_cases splitFrom sep q depth s <;> simp [hcons]

/-- A character that does not separate stands in front of the first part. -/
theorem exists_of_consFirst {sep c : Char} {q : Option Char} {depth : Int} {s p : Text}
    {ps : List Text} (h : consFirst c (splitFrom sep q depth s) = p :: ps) :
    ∃ t, p = c :: t ∧ splitFrom sep q depth s = t :: ps := by
  obtain ⟨t, ts, hts⟩ := List.exists_cons_of_ne_nil (splitFrom_ne_nil sep q depth s)
  rw [hts] at h
  obtain ⟨rfl, rfl⟩ := List.cons.inj h
  exact ⟨t, rfl, hts⟩

/-- The parts of a text are not split again: the first one where the text stands, the others
outside of quotes and brackets. -/
theorem isUnsplit_of_splitFrom {sep : Char} {q : Option Char} {depth : Int} {s p : Text}
    {ps : List Text} (h : splitFrom sep q depth s = p :: ps) :
    IsUnsplit sep q depth p ∧ ∀ t ∈ ps, IsUnsplit sep none 0 t := by
  fun_induction splitFrom sep q depth s generalizing p ps with
  | case1 q depth =>
    cases h
    exact ⟨by simp [IsUnsplit], nofun⟩
  | case2 depth q c s ih =>
    obtain ⟨t, rfl, ht⟩ := exists_of_consFirst h
    exact ih ht
  | case3 depth c s h1 ih =>
    obtain ⟨t, rfl, ht⟩ := exists_of_consFirst h
    simpa [IsUnsplit, h1] using ih ht
  | case4 depth c s h1 h2 ih =>
    obtain ⟨t, rfl, ht⟩ := exists_of_consFirst h
    simpa [IsUnsplit, h1, h2] using ih ht
  | case5 depth c s h1 h2 h3 ih =>
    obtain ⟨t, rfl, ht⟩ := exists_of_consFirst h
    simpa [IsUnsplit, h1, h2, h3] using ih ht
  | case6 depth c s h1 h2 h3 hsep ih =>
    obtain ⟨rfl, rfl⟩ := List.cons.inj h
    obtain ⟨t, ts, hts⟩ := List.exists_cons_of_ne_nil (splitFrom_ne_nil sep none depth s)
    obtain ⟨hfirst, hrest⟩ := ih hts
    rw [hsep.2] at hfirst hts
    rw [hsep.2, hts]
    exact ⟨by simp [IsUnsplit], List.forall_mem_cons.2 ⟨hfirst, hrest⟩⟩
  | case7 depth c s h1 h2 h3 hsep ih =>
    obtain ⟨t, rfl, ht⟩ := exists_of_consFirst h
    obtain ⟨hfirst, hrest⟩ := ih ht
    simp only [IsUnsplit, h1, h2, h3, Bool.false_eq_true, if_false]
    exact ⟨⟨hsep, hfirst⟩, hrest⟩

theorem isUnsplit_of_mem_splitTop {sep : Char} {s p : Text} (h : p ∈ splitTop sep s) :
    IsUnsplit sep none 0 p := by
  obtain ⟨t, ts, hts⟩ := List.exists_cons_of_ne_nil (splitFrom_ne_nil sep none 0 s)
  obtain ⟨hfirst, hrest⟩ := isUnsplit_of_splitFrom hts
  rw [splitTop, hts] at h
  obtain rfl | h := List.mem_cons.1 h
  · exact hfirst
  · exact hrest p h

/-! ## Properties and values -/

/-- Only spaces are cut off. -/
theorem filter_trimmed {p : Char → Bool} (hp : ∀ c, isSpace c = true → p c = false) (s : Text) :
    (trimmed s).filter p = s.filter p := by
  have drop (s : Text) : (s.dropWhile isSpace).filter p = s.filter p := by
    induction s with
    | nil => rfl
    | cons c s ih =>
      rw [List.dropWhile_cons]
      split
      next hc => rw [ih, List.filter_cons_of_neg (by simp [hp c hc])]
      next => rfl
  rw [trimmed, trim, trimEnd, List.filter_reverse, drop, List.filter_reverse, List.reverse_reverse,
    trimStart, drop]

theorem toLower_cases (c : Char) : c.toLower = c ∨ c.isAlpha = true ∧ c.toLower.isAlpha = true := by
  cases hc : c.isUpper with
  | true => exact .inr ⟨isAlpha_iff.2 (.inl hc), isAlpha_iff.2 (.inr (isLower_toLower hc))⟩
  | false => exact .inl (toLower_of_not_isUpper hc)

theorem isSpace_of_isAlpha {c : Char} (h : c.isAlpha = true) : isSpace c = false := by
  refine isSpace_of_range ?_
  rw [isAlpha_iff, isUpper_iff, isLower_iff] at h
  simp only [UInt32.le_iff_toNat_le] at h
  rcases h with h | h
  · exact ⟨Nat.le_trans (by decide) h.1, Nat.le_trans h.2 (by decide)⟩
  · exact ⟨Nat.le_trans (by decide) h.1, Nat.le_trans h.2 (by decide)⟩

theorem isSpace_toLower (c : Char) : isSpace c.toLower = isSpace c := by
  obtain h | ⟨hc, hlower⟩ := toLower_cases c
  · rw [h]
  · rw [isSpace_of_isAlpha hc, isSpace_of_isAlpha hlower]

theorem divides_toLower (c : Char) : divides c.toLower = divides c := by
  obtain h | ⟨hc, hlower⟩ := toLower_cases c
  · rw [h]
  · rw [divides, divides, isInert_of (.inr hc), isInert_of (.inr hlower)]

theorem trimmed_lower (s : Text) : trimmed (lower s) = lower (trimmed s) := by
  have hspace : isSpace ∘ Char.toLower = isSpace := funext isSpace_toLower
  rw [trimmed, trim, trimEnd, trimStart, lower, List.dropWhile_map, ← List.map_reverse,
    List.dropWhile_map, hspace, ← List.map_reverse]
  rfl

theorem isUpper_toLower (c : Char) : c.toLower.isUpper = false := by
  cases hc : c.isUpper with
  | false => rw [toLower_of_not_isUpper hc, hc]
  | true =>
    refine Bool.eq_false_iff.2 fun hup => ?_
    obtain ⟨-, h⟩ := isUpper_iff.1 hup
    obtain ⟨h', -⟩ := isLower_iff.1 (isLower_toLower hc)
    exact absurd (Nat.le_trans (UInt32.le_iff_toNat_le.1 h') (UInt32.le_iff_toNat_le.1 h)) (by decide)

theorem lower_lower (s : Text) : lower (lower s) = lower s := by
  rw [lower, lower, List.map_map]
  exact List.map_congr_left fun c _ => toLower_of_not_isUpper (isUpper_toLower c)

/-- A text in lower case has no capital letters. -/
theorem isUpper_of_lower_eq {s : Text} (h : lower s = s) : ∀ c ∈ s, c.isUpper = false := fun c hc => by
  have hlower : c.toLower = c := List.map_inj_left.1 (h.trans (List.map_id s).symm) c hc
  rw [← hlower]
  exact isUpper_toLower c

theorem filter_lower (s : Text) : (lower s).filter divides = s.filter divides := by
  have hcomp : divides ∘ Char.toLower = divides := funext divides_toLower
  rw [lower, List.filter_map, hcomp]
  refine (List.map_congr_left fun c hc => ?_).trans (List.map_id _)
  obtain h | ⟨halpha, -⟩ := toLower_cases c
  · exact h
  · have := (List.mem_filter.1 hc).2
    rw [divides, isInert_of (.inr halpha)] at this
    cases this

/-! ## Declarations -/

/-- A declaration is read of what stands around the first colon of a part. -/
theorem exists_of_readDeclaration? {p : Text} {e : Entry} (h : readDeclaration? p = some e) :
    ∃ a b, p = a ++ ':' :: b ∧ ':' ∉ a ∧ e = (lower (trimmed a), trimmed b) ∧ e.1 ≠ [] ∧ e.2 ≠ [] := by
  rw [readDeclaration?] at h
  split at h
  · cases h
  next a b hcut =>
    simp only [Option.ite_none_left_eq_some, Option.some.injEq, not_or] at h
    obtain ⟨⟨hproperty, hvalue⟩, rfl⟩ := h
    exact ⟨a, b, by simp [eq_of_cut?_eq_some hcut], not_mem_of_cut?_eq_some hcut, rfl, hproperty,
      hvalue⟩

/-- It divides what the part divides. -/
theorem filter_of_readDeclaration? {p : Text} {e : Entry} (h : readDeclaration? p = some e) :
    p.filter divides = (writeDeclaration e).filter divides := by
  obtain ⟨a, b, rfl, -, rfl, -, -⟩ := exists_of_readDeclaration? h
  have hspace (c : Char) (hc : isSpace c = true) : divides c = false := by
    rw [divides, isInert_of (.inl hc)]
    rfl
  have hsign : [':', ' '].filter divides = [':'].filter divides := by decide
  rw [writeDeclaration, ← List.singleton_append]
  simp only [List.filter_append, filter_lower, filter_trimmed hspace, hsign, List.append_assoc]

/-- A declaration that was read is read from the declaration it makes. -/
theorem isReadable_of_readDeclaration? {p : Text} (hp : IsUnsplit ';' none 0 p) {e : Entry}
    (h : readDeclaration? p = some e) : IsReadable e := by
  have hunsplit := (isUnsplit_congr (filter_of_readDeclaration? h)).1 hp
  obtain ⟨a, b, -, hcolon, rfl, hproperty, hvalue⟩ := exists_of_readDeclaration? h
  refine ⟨hproperty, not_mem_lower (by decide) fun h => hcolon ((trim_sublist ..).subset h), ?_,
    lower_lower _, hvalue, trim_trim _ b, hunsplit⟩
  exact (trimmed_lower _).trans (congrArg lower (trim_trim isSpace a))

/-- **Declarations that were read are read from the declarations they make.** -/
theorem isReadable_of_mem_readDeclarations {css : Text} {e : Entry}
    (h : e ∈ (readDeclarations css).entries) : IsReadable e := by
  obtain ⟨p, hp, he⟩ := List.mem_filterMap.1 (Attrs.mem_of_mem_ofList h)
  exact isReadable_of_readDeclaration? (isUnsplit_of_mem_splitTop hp) he

end MarkupSync.Style
