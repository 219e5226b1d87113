import Mathlib.Data.List.Basic
import MarkupSync.Proofs.Diff.Delta
import MarkupSync.Proofs.Text.Search
import MarkupSync.Proofs.Text.Words
import MarkupSync.Style.Declarations

/-!
# Inline style declarations, written and read

* `IsWhole`: a text that closes what it opens and has no separator outside quotes and brackets;
* `IsUnsplit`: a text that has no separator outside quotes and brackets;
* `splitTop_intercalate`: whole parts are found again, in front of one that is not split;
* `IsReadable`: a property and a value that are read from the declaration they make;
* **`readDeclarations_of_readable`**: such declarations are read as they were written if all but
  the last close what they open;
* `IsDeclaration`: a property and a value that can be written anywhere
  (`readDeclarations_writeDeclarations`).
-/

namespace MarkupSync.Style

open Text

/-! ## Parts -/

/-- A text that closes every quote and bracket and has no `sep` outside of them, behind an open
quote, if one is given, and at a bracket depth. -/
def IsWhole (sep : Char) : Option Char → Int → Text → Prop
  | q, depth, [] => q = none ∧ depth = 0
  | some q, depth, c :: s => IsWhole sep (if c = q then none else some q) depth s
  | none, depth, c :: s =>
    if isQuote c then IsWhole sep (some c) depth s
    else if opensGroup c then IsWhole sep none (depth + 1) s
    else if closesGroup c then IsWhole sep none (depth - 1) s
    else ¬ (c = sep ∧ depth = 0) ∧ IsWhole sep none depth s

/-- Decides whether a text closes what it opens. -/
def decidableIsWhole (sep : Char) : (q : Option Char) → (depth : Int) → (s : Text) →
    Decidable (IsWhole sep q depth s)
  | q, depth, [] => decidable_of_iff (q = none ∧ depth = 0) (by simp [IsWhole])
  | some q, depth, c :: s => decidableIsWhole sep (if c = q then none else some q) depth s
  | none, depth, c :: s =>
    have := decidableIsWhole sep (some c) depth s
    have := decidableIsWhole sep none (depth + 1) s
    have := decidableIsWhole sep none (depth - 1) s
    have := decidableIsWhole sep none depth s
    inferInstanceAs (Decidable (if isQuote c then _ else if opensGroup c then _ else
      if closesGroup c then _ else _ ∧ _))

instance (sep : Char) (q : Option Char) (depth : Int) (s : Text) :
    Decidable (IsWhole sep q depth s) := decidableIsWhole sep q depth s

/-- A character that neither opens nor closes nor separates anything. -/
def isNeutral (c : Char) : Bool := !(isQuote c || opensGroup c || closesGroup c || c == ';')

/-- A character that neither opens nor closes anything, nor separates at `sep`. -/
def isInert (sep c : Char) : Bool := !(isQuote c || opensGroup c || closesGroup c || c == sep)

/-- Such characters may stand in front. -/
theorem isWhole_append_of {sep : Char} {s : Text} (hs : s.all (isInert sep) = true) {t : Text}
    (ht : IsWhole sep none 0 t) : IsWhole sep none 0 (s ++ t) := by
  induction s with
  | nil => exact ht
  | cons c s ih =>
    simp only [List.all_cons, isInert, Bool.and_eq_true, Bool.not_eq_true', Bool.or_eq_false_iff,
      beq_eq_false_iff_ne] at hs
    obtain ⟨⟨⟨⟨hq, ho⟩, hc⟩, hsep⟩, hs⟩ := hs
    simp only [List.cons_append, IsWhole, hq, ho, hc, Bool.false_eq_true, if_false]
    exact ⟨fun h => hsep h.1, ih (by simpa [isInert] using hs)⟩

theorem isWhole_append {s : Text} (hs : s.all isNeutral = true) {t : Text}
    (ht : IsWhole ';' none 0 t) : IsWhole ';' none 0 (s ++ t) :=
  isWhole_append_of hs ht

/-- A whole part ends at the separator behind it. -/
theorem splitFrom_append {sep : Char} (hq : isQuote sep = false) (ho : opensGroup sep = false)
    (hc : closesGroup sep = false) {q : Option Char} {depth : Int} {s : Text}
    (hs : IsWhole sep q depth s) (t : Text) :
    splitFrom sep q depth (s ++ sep :: t) = s :: splitFrom sep none 0 t := by
  fun_induction IsWhole sep q depth s with
  | case1 q depth =>
    obtain ⟨rfl, rfl⟩ := hs
    simp [splitFrom, hq, ho, hc]
  | case2 depth q c s ih => simp [splitFrom, ih hs, consFirst]
  | case3 depth c s h1 ih => simp [splitFrom, h1, ih hs, consFirst]
  | case4 depth c s h1 h2 ih => simp [splitFrom, h1, h2, ih hs, consFirst]
  | case5 depth c s h1 h2 h3 ih => simp [splitFrom, h1, h2, h3, ih hs, consFirst]
  | case6 depth c s h1 h2 h3 ih =>
    simp only [List.cons_append, splitFrom, h1, h2, h3, if_neg hs.1, ih hs.2, Bool.false_eq_true,
      if_false, consFirst]

/-- A text without `sep` outside of quotes and brackets, behind an open quote, if one is given, and
at a bracket depth. -/
def IsUnsplit (sep : Char) : Option Char → Int → Text → Prop
  | _, _, [] => True
  | some q, depth, c :: s => IsUnsplit sep (if c = q then none else some q) depth s
  | none, depth, c :: s =>
    if isQuote c then IsUnsplit sep (some c) depth s
    else if opensGroup c then IsUnsplit sep none (depth + 1) s
    else if closesGroup c then IsUnsplit sep none (depth - 1) s
    else ¬ (c = sep ∧ depth = 0) ∧ IsUnsplit sep none depth s

theorem IsWhole.isUnsplit {sep : Char} {q : Option Char} {depth : Int} {s : Text}
    (hs : IsWhole sep q depth s) : IsUnsplit sep q depth s := by
  fun_induction IsWhole sep q depth s with
  | case1 q depth => simp [IsUnsplit]
  | case2 depth q c s ih => exact ih hs
  | case3 depth c s h1 ih => simpa [IsUnsplit, h1] using ih hs
  | case4 depth c s h1 h2 ih => simpa [IsUnsplit, h1, h2] using ih hs
  | case5 depth c s h1 h2 h3 ih => simpa [IsUnsplit, h1, h2, h3] using ih hs
  | case6 depth c s h1 h2 h3 ih =>
    simp only [IsUnsplit, h1, h2, h3, Bool.false_eq_true, if_false]
    exact ⟨hs.1, ih hs.2⟩

theorem splitFrom_unsplit {sep : Char} {q : Option Char} {depth : Int} {s : Text}
    (hs : IsUnsplit sep q depth s) : splitFrom sep q depth s = [s] := by
  fun_induction IsUnsplit sep q depth s with
  | case1 q depth => simp [splitFrom]
  | case2 depth q c s ih => simp [splitFrom, ih hs, consFirst]
  | case3 depth c s h1 ih => simp [splitFrom, h1, ih hs, consFirst]
  | case4 depth c s h1 h2 ih => simp [splitFrom, h1, h2, ih hs, consFirst]
  | case5 depth c s h1 h2 h3 ih => simp [splitFrom, h1, h2, h3, ih hs, consFirst]
  | case6 depth c s h1 h2 h3 ih =>
    simp only [splitFrom, h1, h2, h3, if_neg hs.1, ih hs.2, Bool.false_eq_true, if_false, consFirst]

/-- Parts with a separator between any two are the first one and the others, each behind a
separator. -/
theorem intercalate_cons (sep t : Text) (ts : List Text) :
    sep.intercalate (t :: ts) = t ++ ts.flatMap (sep ++ ·) := by
  induction ts generalizing t with
  | nil => simp
  | cons u ts ih => simp [List.intercalate_cons_cons, ih]

/-- Whole parts are found again, in front of one that is not split. -/
theorem splitTop_join {sep : Char} (hq : isQuote sep = false) (ho : opensGroup sep = false)
    (hc : closesGroup sep = false) {d : Text} {ds : List Text}
    (hwhole : ∀ t ∈ (d :: ds).dropLast, IsWhole sep none 0 t)
    (h : ∀ t ∈ d :: ds, IsUnsplit sep none 0 t) :
    splitTop sep ([sep].intercalate (d :: ds)) = d :: ds := by
  induction ds generalizing d with
  | nil => simpa [splitTop] using splitFrom_unsplit (h d List.mem_cons_self)
  | cons e ds ih =>
    have hrest := ih (fun t ht => hwhole t (by simp [ht]))
      fun t ht => h t (List.mem_cons_of_mem _ ht)
    rw [splitTop] at hrest
    rw [List.intercalate_cons_cons, List.append_assoc, List.singleton_append, splitTop,
      splitFrom_append hq ho hc (hwhole d (by simp)), hrest]

/-- Whole parts are found again, in front of one that is not split; all but the first have a space
in front. -/
theorem splitTop_intercalate {d : Text} {ds : List Text}
    (hwhole : ∀ t ∈ (d :: ds).dropLast, IsWhole ';' none 0 t)
    (h : ∀ t ∈ d :: ds, IsUnsplit ';' none 0 t) :
    splitTop ';' ([';', ' '].intercalate (d :: ds)) = d :: ds.map (' ' :: ·) := by
  have hjoin : [';', ' '].intercalate (d :: ds) = [';'].intercalate (d :: ds.map (' ' :: ·)) := by
    simp only [intercalate_cons, List.flatMap_map, List.cons_append, List.nil_append]
  rw [hjoin]
  refine splitTop_join (by decide) (by decide) (by decide) (fun t ht => ?_) fun t ht => ?_
  · cases ds with
    | nil => cases ht
    | cons e ds =>
      rw [List.map_cons, List.dropLast_cons_of_ne_nil (List.cons_ne_nil _ _), ← List.map_cons,
        ← List.map_dropLast] at ht
      obtain rfl | ht := List.mem_cons.1 ht
      · exact hwhole t (by simp)
      · obtain ⟨u, hu, rfl⟩ := List.mem_map.1 ht
        refine isWhole_append (s := [' ']) (by decide) (hwhole u ?_)
        rw [List.dropLast_cons_of_ne_nil (List.cons_ne_nil _ _)]
        exact List.mem_cons_of_mem _ hu
  · obtain rfl | ht := List.mem_cons.1 ht
    · exact h t List.mem_cons_self
    · obtain ⟨u, hu, rfl⟩ := List.mem_map.1 ht
      exact ⟨by decide, h u (List.mem_cons_of_mem _ hu)⟩

/-! ## Declarations -/

/-- A property and a value that are read from the declaration they make. -/
structure IsReadable (e : Entry) : Prop where
  property_ne : e.1 ≠ []
  colon : ':' ∉ e.1
  property : trimmed e.1 = e.1
  lower : Text.lower e.1 = e.1
  value_ne : e.2 ≠ []
  value : trimmed e.2 = e.2
  unsplit : IsUnsplit ';' none 0 (writeDeclaration e)

theorem trimmed_cons_space (s : Text) : trimmed (' ' :: s) = trimmed s := rfl

/-- A declaration is read as it was written, also behind a space. -/
theorem readDeclaration?_writeDeclaration {e : Entry} (he : IsReadable e) {b : Text}
    (hb : b = [] ∨ b = [' ']) : readDeclaration? (b ++ writeDeclaration e) = some e := by
  have hcolon : ':' ∉ b ++ e.1 := by
    rw [List.mem_append, not_or]
    refine ⟨?_, he.colon⟩
    rcases hb with rfl | rfl <;> decide
  have hname : trimmed (b ++ e.1) = e.1 := by
    rcases hb with rfl | rfl
    · exact he.property
    · exact (trimmed_cons_space _).trans he.property
  have hcut : cut? [':'] (b ++ writeDeclaration e) = some (b ++ e.1, ' ' :: e.2) := by
    rw [writeDeclaration, ← List.append_assoc, ← List.append_assoc, List.append_assoc (b ++ e.1)]
    exact cut?_singleton_append hcolon (' ' :: e.2)
  simp [readDeclaration?, hcut, hname, he.lower, trimmed_cons_space, he.value, he.property_ne,
    he.value_ne]

/-- **Declarations are read as they were written if all but the last close what they open.** -/
theorem readDeclarations_of_readable {m : Attrs} (h : ∀ e ∈ m.entries, IsReadable e)
    (hwhole : ∀ e ∈ m.entries.dropLast, IsWhole ';' none 0 (writeDeclaration e)) :
    readDeclarations (writeDeclarations m) = m := by
  have hparts : (splitTop ';' (writeDeclarations m)).filterMap readDeclaration? = m.entries := by
    rw [writeDeclarations]
    cases hes : m.entries with
    | nil => rfl
    | cons e es =>
      rw [hes] at h hwhole
      have hfirst : readDeclaration? (writeDeclaration e) = some e :=
        readDeclaration?_writeDeclaration (h e List.mem_cons_self) (b := []) (.inl rfl)
      rw [List.map_cons, splitTop_intercalate, List.filterMap_cons, hfirst, List.map_map,
        List.filterMap_map]
      · refine congrArg (e :: ·) ((List.filterMap_congr fun d hd => ?_).trans List.filterMap_some)
        exact readDeclaration?_writeDeclaration (h d (List.mem_cons_of_mem _ hd)) (b := [' ']) (.inr rfl)
      · rw [← List.map_cons, ← List.map_dropLast]
        exact List.forall_mem_map.2 hwhole
      · rw [← List.map_cons]
        exact List.forall_mem_map.2 fun d hd => (h d hd).unsplit
  rw [readDeclarations, hparts]
  exact Attrs.ext (Attrs.entries_ofList m.nodup)

/-! ## Plain declarations -/

/-- The characters of property names. -/
def isPropertyChar (c : Char) : Bool := c.isLower || c.isDigit || c == '-'

/-- A property name and a value that can be written as a declaration. -/
structure IsDeclaration (e : Entry) : Prop where
  property_ne : e.1 ≠ []
  property : e.1.all isPropertyChar = true
  value_ne : e.2 ≠ []
  value : trimmed e.2 = e.2
  whole : IsWhole ';' none 0 e.2

instance (e : Entry) : Decidable (IsDeclaration e) :=
  decidable_of_iff (e.1 ≠ [] ∧ e.1.all isPropertyChar = true ∧ e.2 ≠ [] ∧ trimmed e.2 = e.2 ∧
    IsWhole ';' none 0 e.2) ⟨fun ⟨a, b, c, d, e⟩ => ⟨a, b, c, d, e⟩, fun ⟨a, b, c, d, e⟩ => ⟨a, b, c, d, e⟩⟩

theorem trimmed_of_all {s : Text} (h : s.all (!isSpace ·) = true) : trimmed s = s := by
  have key {s : Text} (h : ∀ c ∈ s, isSpace c = false) : s.dropWhile isSpace = s := by
    cases s with
    | nil => rfl
    | cons c s => rw [List.dropWhile_cons, h c List.mem_cons_self]; rfl
  have h' : ∀ c ∈ s, isSpace c = false := by simpa using h
  rw [trimmed, trim, trimStart, key h', trimEnd, key, List.reverse_reverse]
  exact fun c hc => h' c (List.mem_reverse.1 hc)

theorem isPropertyChar_ne {c d : Char} (h : isPropertyChar c = true) (hd : isPropertyChar d = false) :
    c ≠ d := by
  rintro rfl
  rw [h] at hd
  cases hd

theorem isNeutral_of_isPropertyChar {c : Char} (h : isPropertyChar c = true) : isNeutral c = true := by
  have hne {d : Char} (hd : isPropertyChar d = false) : (c == d) = false :=
    beq_eq_false_iff_ne.2 (isPropertyChar_ne h hd)
  simp [isNeutral, isQuote, opensGroup, closesGroup, hne (d := '"') rfl, hne (d := '\'') rfl,
    hne (d := '\x60') rfl, hne (d := '(') rfl, hne (d := '[') rfl, hne (d := '\x7b') rfl,
    hne (d := ')') rfl, hne (d := ']') rfl, hne (d := '\x7d') rfl, hne (d := ';') rfl]

/-- Between the space and the delete character there is no white space. -/
theorem isSpace_of_range {c : Char} (h : 33 ≤ c.val.toNat ∧ c.val.toNat ≤ 126) : isSpace c = false := by
  have hne {d : Char} (hd : ¬ (33 ≤ d.val.toNat ∧ d.val.toNat ≤ 126)) : (c == d) = false := by
    rw [beq_eq_false_iff_ne]
    rintro rfl
    exact hd h
  have htab : decide (c ≤ '\r') = false := by
    rw [decide_eq_false_iff_not, Char.le_def, UInt32.le_iff_toNat_le]
    exact fun hc => absurd (Nat.le_trans h.1 hc) (by decide)
  have hquad : decide ('\u2000' ≤ c) = false := by
    rw [decide_eq_false_iff_not, Char.le_def, UInt32.le_iff_toNat_le]
    exact fun hc => absurd (Nat.le_trans hc h.2) (by decide)
  simp [isSpace, htab, hquad, hne (d := ' ') (by decide), hne (d := '\u0085') (by decide),
    hne (d := '\u00a0') (by decide), hne (d := '\u1680') (by decide),
    hne (d := '\u2028') (by decide), hne (d := '\u2029') (by decide),
    hne (d := '\u202f') (by decide), hne (d := '\u205f') (by decide),
    hne (d := '\u3000') (by decide)]

theorem isSpace_of_isPropertyChar {c : Char} (h : isPropertyChar c = true) : isSpace c = false := by
  refine isSpace_of_range ?_
  simp only [isPropertyChar, Bool.or_eq_true, isLower_iff, Char.isDigit, Bool.and_eq_true,
    decide_eq_true_eq, beq_iff_eq, ge_iff_le, UInt32.le_iff_toNat_le] at h
  rcases h with (h | h) | rfl
  · exact ⟨Nat.le_trans (by decide) h.1, Nat.le_trans h.2 (by decide)⟩
  · exact ⟨Nat.le_trans (by decide) h.1, Nat.le_trans h.2 (by decide)⟩
  · decide

theorem toLower_of_isPropertyChar {c : Char} (h : isPropertyChar c = true) : c.toLower = c := by
  refine toLower_of_not_isUpper (Bool.eq_false_iff.2 fun hc => ?_)
  obtain ⟨hc1, hc2⟩ := isUpper_iff.1 hc
  simp only [isPropertyChar, Bool.or_eq_true, isLower_iff, Char.isDigit, Bool.and_eq_true,
    decide_eq_true_eq, beq_iff_eq, ge_iff_le, UInt32.le_iff_toNat_le] at h hc1 hc2
  rcases h with (h | h) | rfl
  · exact absurd (Nat.le_trans h.1 hc2) (by decide)
  · exact absurd (Nat.le_trans hc1 h.2) (by decide)
  · exact absurd hc (by decide)

section Declaration

variable {e : Entry}

theorem IsDeclaration.chars (he : IsDeclaration e) : ∀ c ∈ e.1, isPropertyChar c = true :=
  List.all_eq_true.1 he.property

theorem isWhole_writeDeclaration (he : IsDeclaration e) : IsWhole ';' none 0 (writeDeclaration e) := by
  refine isWhole_append ?_ he.whole
  rw [List.all_append, Bool.and_eq_true]
  exact ⟨List.all_eq_true.2 fun c hc => isNeutral_of_isPropertyChar (he.chars c hc), by decide⟩

theorem IsDeclaration.isReadable (he : IsDeclaration e) : IsReadable e where
  property_ne := he.property_ne
  colon h := isPropertyChar_ne (he.chars _ h) (d := ':') rfl rfl
  property := trimmed_of_all <| List.all_eq_true.2 fun c hc => by
    rw [isSpace_of_isPropertyChar (he.chars c hc)]
    rfl
  lower := (List.map_congr_left fun c hc => toLower_of_isPropertyChar (he.chars c hc)).trans
    (List.map_id _)
  value_ne := he.value_ne
  value := he.value
  unsplit := (isWhole_writeDeclaration he).isUnsplit

end Declaration

/-- **Declarations are read as they were written.** -/
theorem readDeclarations_writeDeclarations {m : Attrs} (h : ∀ e ∈ m.entries, IsDeclaration e) :
    readDeclarations (writeDeclarations m) = m :=
  readDeclarations_of_readable (fun e he => (h e he).isReadable)
    fun e he => isWhole_writeDeclaration (h e (List.dropLast_subset _ he))

end MarkupSync.Style
