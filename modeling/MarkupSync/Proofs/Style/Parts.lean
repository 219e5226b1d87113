import Mathlib.Algebra.GroupWithZero.Nat
import Mathlib.Algebra.Order.BigOperators.Group.List
import Mathlib.Algebra.Order.Group.Nat
import Mathlib.Data.List.Perm.Subperm
import MarkupSync.Proofs.Style.Reread

/-!
# Parts of a text, counted

A text that is written of entries and read by its parts can be misread only in parts that are not
the entries. What is read twice would have to be written twice, so it is enough to count characters.

* `intercalate_splitTop`, `isWhole_of_mem_splitTop`: a text is its parts with separators between
  them, and all parts but the last are whole;
* `isWhole_iff`: a text is whole if a separator behind it is found, and none in it;
* `countP_intercalate`: how much texts with separators between them count;
* **`Attrs.map_read?_eq`**: parts that make a map and count no more than its entries are read as
  these entries, one by one;
* `isWhole_congr`: only quotes, brackets and separators decide whether a text is whole;
* `countP_of_readDeclaration?`: a declaration counts what the part counts that it was read from;
* **`readDeclarations_writeDeclarations_iff`**: declarations are read as they were written exactly
  if all but the last close what they open;
* `IsAssignable`: a property and a value that close what they open;
* **`readDeclarations_apply_iff`**: the declarations of any text with such values assigned are read
  as they were written exactly if what the text leaves open is not in front of others;
* `not_readDeclarations_apply`: a quote that the text leaves open takes in what is added.
-/

namespace MarkupSync

open Text

/-! ## Entries that are read -/

/-- A list that holds the entries of the map it makes, each once, is that of the map. -/
theorem Attrs.eq_of_perm {es : List Entry} {m : Attrs} (hm : ofList es = m)
    (h : es.Perm m.entries) : es = m.entries := by
  have hnodup : (names es).Nodup := (h.map Prod.fst).nodup_iff.2 m.nodup
  rw [← hm, entries_ofList hnodup]

/-- Nothing is missing in a part of a list that counts as much. -/
theorem eq_of_sublist_of_sum_le {α : Type} {f : α → Nat} (hf : ∀ a, 0 < f a) {l l' : List α}
    (h : l.Sublist l') (hsum : (l'.map f).sum ≤ (l.map f).sum) : l = l' := by
  refine h.eq_of_length_le ?_
  induction h with
  | slnil => exact Nat.le_refl _
  | @cons l l' a h ih =>
    have hle : (l.map f).sum ≤ (l'.map f).sum := (h.map f).sum_le_sum fun _ _ => Nat.zero_le _
    have := hf a
    rw [List.map_cons, List.sum_cons] at hsum
    omega
  | @cons_cons l l' a h ih =>
    simp only [List.map_cons, List.sum_cons, List.length_cons] at hsum ⊢
    exact Nat.succ_le_succ (ih (by omega))

section Counted

variable {α : Type} {read? : α → Option Entry} {f : α → Nat} {g : Entry → Nat}
  (hread : ∀ a e, read? a = some e → f a = g e)
include hread

/-- What is read of a list counts no more than the list. -/
theorem sum_filterMap_le (as : List α) :
    ((as.filterMap read?).map g).sum ≤ (as.map f).sum := by
  induction as with
  | nil => exact Nat.le_refl _
  | cons a as ih =>
    cases ha : read? a with
    | none =>
      rw [List.filterMap_cons_none ha, List.map_cons, List.sum_cons]
      omega
    | some e =>
      rw [List.filterMap_cons_some ha, List.map_cons, List.map_cons, List.sum_cons, List.sum_cons,
        hread a e ha]
      omega

variable (hf : ∀ a, 0 < f a)
include hf

/-- All of a list is read if what is read counts as much. -/
theorem map_read?_of_sum_le {as : List α}
    (hsum : (as.map f).sum ≤ ((as.filterMap read?).map g).sum) :
    as.map read? = (as.filterMap read?).map some := by
  induction as with
  | nil => rfl
  | cons a as ih =>
    have hle := sum_filterMap_le hread as
    cases ha : read? a with
    | none =>
      rw [List.filterMap_cons_none ha, List.map_cons, List.sum_cons] at hsum
      have := hf a
      omega
    | some e =>
      rw [List.filterMap_cons_some ha, List.map_cons, List.map_cons, List.sum_cons, List.sum_cons,
        hread a e ha] at hsum
      rw [List.filterMap_cons_some ha, List.map_cons, List.map_cons, ha, ih (by omega)]

/-- **Parts that make a map and count no more than its entries are read as these entries, one by
one.** -/
theorem Attrs.map_read?_eq (hg : ∀ e, 0 < g e) {as : List α} {m : Attrs}
    (hm : ofList (as.filterMap read?) = m) (hsum : (as.map f).sum = (m.entries.map g).sum) :
    as.map read? = m.entries.map some := by
  have hnodup : m.entries.Nodup := List.Nodup.of_map Prod.fst m.nodup
  have hsubset : m.entries ⊆ as.filterMap read? := fun e he =>
    Attrs.mem_of_mem_ofList (by rw [hm]; exact he)
  -- the entries are some of what is read, and that counts no more
  obtain ⟨l, hl, hsub⟩ := List.subperm_of_subset hnodup hsubset
  have hle := sum_filterMap_le hread as
  have hsame : (l.map g).sum = (m.entries.map g).sum := (hl.map g).sum_eq
  have heq : l = as.filterMap read? := eq_of_sublist_of_sum_le hg hsub (by omega)
  rw [← Attrs.eq_of_perm hm (heq ▸ hl)]
  exact map_read?_of_sum_le hread hf (by rw [← heq]; omega)

end Counted

namespace Style

/-! ## Parts -/

/-- A text is its parts with separators between them. -/
theorem intercalate_splitFrom (sep : Char) (q : Option Char) (depth : Int) (s : Text) :
    [sep].intercalate (splitFrom sep q depth s) = s := by
  have first (c : Char) {ps : List Text} (hps : ps ≠ []) :
      [sep].intercalate (consFirst c ps) = c :: [sep].intercalate ps := by
    obtain ⟨p, ps, rfl⟩ := List.exists_cons_of_ne_nil hps
    rw [consFirst, intercalate_cons, intercalate_cons, List.cons_append]
  have hne (q : Option Char) (depth : Int) (s : Text) := splitFrom_ne_nil sep q depth s
  fun_induction splitFrom sep q depth s with
  | case1 => rfl
  | case2 depth q c s ih => rw [first c (hne _ _ _), ih]
  | case3 depth c s _ ih => rw [first c (hne _ _ _), ih]
  | case4 depth c s _ _ ih => rw [first c (hne _ _ _), ih]
  | case5 depth c s _ _ _ ih => rw [first c (hne _ _ _), ih]
  | case6 depth c s _ _ _ hsep ih =>
    obtain ⟨t, ts, hts⟩ := List.exists_cons_of_ne_nil (hne none depth s)
    rw [hts] at ih ⊢
    rw [List.intercalate_cons_cons, ih, hsep.1]
    rfl
  | case7 depth c s _ _ _ _ ih => rw [first c (hne _ _ _), ih]

theorem intercalate_splitTop (sep : Char) (s : Text) : [sep].intercalate (splitTop sep s) = s :=
  intercalate_splitFrom sep none 0 s

/-- Parts in front of others are whole: the first one where the text stands, the others outside of
quotes and brackets. -/
theorem isWhole_of_splitFrom {sep : Char} {q : Option Char} {depth : Int} {s p : Text}
    {ps : List Text} (h : splitFrom sep q depth s = p :: ps) (hps : ps ≠ []) :
    IsWhole sep q depth p ∧ ∀ t ∈ ps.dropLast, IsWhole sep none 0 t := by
  fun_induction splitFrom sep q depth s generalizing p ps with
  | case1 q depth =>
    cases h
    exact absurd rfl hps
  | case2 depth q c s ih =>
    obtain ⟨t, rfl, ht⟩ := exists_of_consFirst h
    exact ih ht hps
  | case3 depth c s h1 ih =>
    obtain ⟨t, rfl, ht⟩ := exists_of_consFirst h
    simpa [IsWhole, h1] using ih ht hps
  | case4 depth c s h1 h2 ih =>
    obtain ⟨t, rfl, ht⟩ := exists_of_consFirst h
    simpa [IsWhole, h1, h2] using ih ht hps
  | case5 depth c s h1 h2 h3 ih =>
    obtain ⟨t, rfl, ht⟩ := exists_of_consFirst h
    simpa [IsWhole, h1, h2, h3] using ih ht hps
  | case6 depth c s h1 h2 h3 hsep ih =>
    obtain ⟨rfl, rfl⟩ := List.cons.inj h
    refine ⟨⟨rfl, hsep.2⟩, ?_⟩
    obtain ⟨t, ts, hts⟩ := List.exists_cons_of_ne_nil hps
    rw [hts]
    rw [hsep.2] at ih hts
    cases ts with
    | nil => exact fun t ht => absurd ht List.not_mem_nil
    | cons u us =>
      obtain ⟨hfirst, hrest⟩ := ih hts (List.cons_ne_nil _ _)
      rw [List.dropLast_cons_of_ne_nil (List.cons_ne_nil _ _)]
      exact List.forall_mem_cons.2 ⟨hfirst, hrest⟩
  | case7 depth c s h1 h2 h3 hsep ih =>
    obtain ⟨t, rfl, ht⟩ := exists_of_consFirst h
    obtain ⟨hfirst, hrest⟩ := ih ht hps
    simp only [IsWhole, h1, h2, h3, Bool.false_eq_true, if_false]
    exact ⟨⟨hsep, hfirst⟩, hrest⟩

/-- All parts of a text but the last are whole. -/
theorem isWhole_of_mem_splitTop {sep : Char} {s p : Text} (h : p ∈ (splitTop sep s).dropLast) :
    IsWhole sep none 0 p := by
  obtain ⟨t, ts, hts⟩ := List.exists_cons_of_ne_nil (splitFrom_ne_nil sep none 0 s)
  rw [splitTop, hts] at h
  cases ts with
  | nil => cases h
  | cons u us =>
    obtain ⟨hfirst, hrest⟩ := isWhole_of_splitFrom hts (List.cons_ne_nil _ _)
    rw [List.dropLast_cons_of_ne_nil (List.cons_ne_nil _ _)] at h
    obtain rfl | h := List.mem_cons.1 h
    · exact hfirst
    · exact hrest p h

/-- A text is whole if a separator behind it is found, and none in it. -/
theorem isWhole_iff {sep : Char} (hq : isQuote sep = false) (ho : opensGroup sep = false)
    (hc : closesGroup sep = false) {q : Option Char} {depth : Int} {s : Text} :
    IsWhole sep q depth s ↔ IsUnsplit sep q depth s ∧ ¬ IsUnsplit sep q depth (s ++ [sep]) := by
  fun_induction IsUnsplit sep q depth s with
  | case1 q depth => cases q <;> simp [IsWhole, IsUnsplit, hq, ho, hc]
  | case2 depth q c s ih => simpa [IsWhole, IsUnsplit] using ih
  | case3 depth c s h1 ih => simpa [IsWhole, IsUnsplit, h1] using ih
  | case4 depth c s h1 h2 ih => simpa [IsWhole, IsUnsplit, h1, h2] using ih
  | case5 depth c s h1 h2 h3 ih => simpa [IsWhole, IsUnsplit, h1, h2, h3] using ih
  | case6 depth c s h1 h2 h3 ih =>
    simp only [List.cons_append, IsWhole, IsUnsplit, h1, h2, h3, Bool.false_eq_true, if_false, ih]
    tauto

/-- Texts with separators between them count what they count, and one for each separator. -/
theorem countP_intercalate {p : Char → Bool} {w : Text} (hw : w.countP p = 1) {ts : List Text}
    (hts : ts ≠ []) : (w.intercalate ts).countP p + 1 = (ts.map (·.countP p + 1)).sum := by
  induction ts with
  | nil => exact absurd rfl hts
  | cons t ts ih =>
    cases ts with
    | nil => simp
    | cons u ts =>
      have := ih (List.cons_ne_nil _ _)
      rw [List.intercalate_cons_cons, List.countP_append, List.countP_append, hw, List.map_cons,
        List.sum_cons, ← this]
      omega

end Style

/-! ## Changed maps -/

theorem Attrs.mem_of_mem_erase {m : Attrs} {n : Text} {e : Entry} (h : e ∈ (m.erase n).entries) :
    e ∈ m.entries :=
  (List.mem_filter.1 h).1

/-- An entry of a changed map was there or is assigned. -/
theorem Delta.mem_of_mem_apply {d : Delta} {m : Attrs} {e : Entry} (h : e ∈ (d.apply m).entries) :
    e ∈ m.entries ∨ e ∈ d.assignments := by
  have herase : e ∈ (d.removed.foldl Attrs.erase m).entries → e ∈ m.entries :=
    List.foldlRecOn d.removed Attrs.erase (motive := fun k : Attrs => e ∈ k.entries → e ∈ m.entries)
      id fun k hk n _ he => hk (Attrs.mem_of_mem_erase he)
  refine List.foldlRecOn d.assignments (fun m e => m.insert e.1 e.2)
    (motive := fun k : Attrs => e ∈ k.entries → e ∈ m.entries ∨ e ∈ d.assignments)
    (fun he => .inl (herase he)) (fun k hk a ha he => ?_) h
  obtain rfl | ⟨-, he⟩ := Attrs.mem_entries_insert.1 he
  · exact .inr ha
  · exact hk he

namespace Style

/-! ## What is read of a part -/

theorem isWhole_congr {s t : Text} (h : s.filter divides = t.filter divides) :
    IsWhole ';' none 0 s ↔ IsWhole ';' none 0 t := by
  have hsep : (s ++ [';']).filter divides = (t ++ [';']).filter divides := by
    rw [List.filter_append, List.filter_append, h]
  rw [isWhole_iff (by decide) (by decide) (by decide),
    isWhole_iff (by decide) (by decide) (by decide),
    isUnsplit_congr h, isUnsplit_congr hsep]

/-- Whether a character is no white space. -/
def isInk (c : Char) : Bool := !isSpace c

/-- A declaration has as much ink as the part that it is read of. -/
theorem countP_of_readDeclaration? {p : Text} {e : Entry} (h : readDeclaration? p = some e) :
    p.countP isInk = (writeDeclaration e).countP isInk := by
  obtain ⟨a, b, rfl, -, rfl, -, -⟩ := exists_of_readDeclaration? h
  have htrimmed (s : Text) : (trimmed s).countP isInk = s.countP isInk := by
    have hspace (c : Char) (hc : isSpace c = true) : isInk c = false := by
      rw [isInk, hc]
      rfl
    rw [List.countP_eq_length_filter, filter_trimmed hspace, ← List.countP_eq_length_filter]
  have hlower (s : Text) : (lower s).countP isInk = s.countP isInk := by
    have hcomp : isInk ∘ Char.toLower = isInk := funext fun c => congrArg (!·) (isSpace_toLower c)
    rw [lower, List.countP_map, hcomp]
  have hsign : [':', ' '].countP isInk = [':'].countP isInk := by decide
  rw [writeDeclaration, ← List.singleton_append]
  simp only [List.countP_append, hlower, htrimmed, hsign, Nat.add_assoc]

/-! ## Declarations that are read as they were written -/

/-- Parts that make the declarations which they are parts of are these declarations, one by one. -/
theorem map_readDeclaration? {m : Attrs} (hne : m.entries ≠ [])
    (h : readDeclarations (writeDeclarations m) = m) :
    (splitTop ';' (writeDeclarations m)).map readDeclaration? = m.entries.map some := by
  have hparts := countP_intercalate (p := isInk) (w := [';']) (by decide)
    (splitFrom_ne_nil ';' none 0 (writeDeclarations m))
  have hmap : m.entries.map writeDeclaration ≠ [] := by simpa using hne
  have hwritten := countP_intercalate (p := isInk) (w := [';', ' ']) (by decide) hmap
  rw [← splitTop, intercalate_splitTop] at hparts
  rw [← writeDeclarations, List.map_map] at hwritten
  exact Attrs.map_read?_eq (f := (·.countP isInk + 1))
    (g := (·.countP isInk + 1) ∘ writeDeclaration)
    (fun p e he => congrArg (· + 1) (countP_of_readDeclaration? he)) (fun _ => Nat.succ_pos _)
    (fun _ => Nat.succ_pos _) h (hparts.symm.trans hwritten)

/-- **Declarations are read as they were written exactly if all but the last close what they
open.** -/
theorem readDeclarations_writeDeclarations_iff {m : Attrs} (h : ∀ e ∈ m.entries, IsReadable e) :
    readDeclarations (writeDeclarations m) = m ↔
      ∀ e ∈ m.entries.dropLast, IsWhole ';' none 0 (writeDeclaration e) := by
  refine ⟨fun hread e he => ?_, readDeclarations_of_readable h⟩
  have hne : m.entries ≠ [] := List.ne_nil_of_mem (List.dropLast_subset _ he)
  have hparts := congrArg List.dropLast (map_readDeclaration? hne hread)
  rw [← List.map_dropLast, ← List.map_dropLast] at hparts
  -- the part that the declaration is read of is in front of another
  have hmem : some e ∈ (splitTop ';' (writeDeclarations m)).dropLast.map readDeclaration? :=
    hparts ▸ List.mem_map_of_mem he
  obtain ⟨p, hp, hpe⟩ := List.mem_map.1 hmem
  exact (isWhole_congr (filter_of_readDeclaration? hpe)).1 (isWhole_of_mem_splitTop hp)

/-! ## Declarations that are changed -/

/-- A property and a value that can be written in front of others, and are read as they were
written. -/
structure IsAssignable (e : Entry) : Prop where
  property_ne : e.1 ≠ []
  colon : ':' ∉ e.1
  property : trimmed e.1 = e.1
  lower : Text.lower e.1 = e.1
  value_ne : e.2 ≠ []
  value : trimmed e.2 = e.2
  whole : IsWhole ';' none 0 (writeDeclaration e)

instance (e : Entry) : Decidable (IsAssignable e) :=
  decidable_of_iff (e.1 ≠ [] ∧ ':' ∉ e.1 ∧ trimmed e.1 = e.1 ∧ Text.lower e.1 = e.1 ∧ e.2 ≠ [] ∧
    trimmed e.2 = e.2 ∧ IsWhole ';' none 0 (writeDeclaration e))
    ⟨fun ⟨a, b, c, d, e, f, g⟩ => ⟨a, b, c, d, e, f, g⟩,
      fun ⟨a, b, c, d, e, f, g⟩ => ⟨a, b, c, d, e, f, g⟩⟩

theorem IsAssignable.isReadable {e : Entry} (h : IsAssignable e) : IsReadable e :=
  ⟨h.property_ne, h.colon, h.property, h.lower, h.value_ne, h.value, h.whole.isUnsplit⟩

/-- **The declarations of any text are read as they were written once values are assigned and
dropped, exactly if none that the text leaves open is in front of others.** -/
theorem readDeclarations_apply_iff (css : Text) {d : Delta}
    (hd : ∀ e ∈ d.assignments, IsAssignable e) :
    readDeclarations (writeDeclarations (d.apply (readDeclarations css))) =
        d.apply (readDeclarations css) ↔
      ∀ e ∈ (d.apply (readDeclarations css)).entries.dropLast, e ∈ (readDeclarations css).entries →
        IsWhole ';' none 0 (writeDeclaration e) := by
  have hreadable : ∀ e ∈ (d.apply (readDeclarations css)).entries, IsReadable e := fun e he =>
    (Delta.mem_of_mem_apply he).elim isReadable_of_mem_readDeclarations
      fun he => (hd e he).isReadable
  rw [readDeclarations_writeDeclarations_iff hreadable]
  refine ⟨fun h e he _ => h e he, fun h e he => ?_⟩
  obtain hold | hnew := Delta.mem_of_mem_apply (List.dropLast_subset _ he)
  · exact h e he hold
  · exact (hd e hnew).whole

/-- A style whose last declaration has an open quote and is given a new value. -/
theorem readDeclarations_apply_iff_closed :
    let css := "color: red; Width: 1px; content: 'x".toList
    let d : Delta := ⟨.ofList [("margin".toList, "0".toList)],
      .ofList [("content".toList, "';'".toList)], ["color".toList]⟩
    (∀ e ∈ d.assignments, IsAssignable e) ∧
      readDeclarations (writeDeclarations (d.apply (readDeclarations css))) =
        d.apply (readDeclarations css) := by
  intro css d
  have hd : ∀ e ∈ d.assignments, IsAssignable e := by decide
  exact ⟨hd, (readDeclarations_apply_iff css hd).2 (by decide)⟩

/-- A quote that a text leaves open takes in what is added behind it. -/
theorem not_readDeclarations_apply :
    ¬ ∀ (css : Text) (d : Delta), (∀ e ∈ d.assignments, IsAssignable e) →
      readDeclarations (writeDeclarations (d.apply (readDeclarations css))) =
        d.apply (readDeclarations css) := by
  intro h
  have := h "content: 'x".toList ⟨.ofList [("color".toList, "red".toList)], .empty, []⟩ (by decide)
  exact absurd this (by decide)

end Style

end MarkupSync
