import MarkupSync.Text.Basic

/-!
# Ordered attribute maps

The attributes of an element, and the declarations of an inline style: a list of named values in
the order of the source, each name once. Two maps are the same (`Same`) if they give every name
the same value; the order matters only when they are written.

* `Attrs`, `Attrs.find?`, `Attrs.has`;
* `Attrs.insert` keeps the place of a name that is there (`find?_insert`);
* `Attrs.erase` keeps the order of the rest (`find?_erase`);
* `Attrs.same`, `same_iff`: equality of maps without order.
-/

namespace MarkupSync

/-- A named value. -/
abbrev Entry := Text × Text

/-- The names of a list of entries. -/
def names (es : List Entry) : List Text := es.map Prod.fst

/-- An ordered map from names to values. -/
structure Attrs where
  entries : List Entry
  nodup : (names entries).Nodup
  deriving Repr, DecidableEq

namespace Attrs

/-- The map without entries. -/
def empty : Attrs := ⟨[], List.nodup_nil⟩

instance : Inhabited Attrs := ⟨empty⟩

instance : EmptyCollection Attrs := ⟨empty⟩

/-- Whether there are no entries. -/
def isEmpty (m : Attrs) : Bool := m.entries.isEmpty

/-- The value of a name. -/
def find? (m : Attrs) (name : Text) : Option Text := m.entries.lookup name

/-- Whether a name has a value. -/
def has (m : Attrs) (name : Text) : Bool := (m.find? name).isSome

@[ext] theorem ext {a b : Attrs} (h : a.entries = b.entries) : a = b := by
  cases a; cases b; simp_all

end Attrs

/-! ## Entry lists -/

namespace Entries

/-- Give `name` a value in place, or append it. -/
def insert (name value : Text) : List Entry → List Entry
  | [] => [(name, value)]
  | (n, v) :: es => if n = name then (name, value) :: es else (n, v) :: insert name value es

/-- Drop `name`. -/
def erase (name : Text) (es : List Entry) : List Entry := es.filter fun e => e.1 != name

theorem mem_names_insert {name value n : Text} {es : List Entry} :
    n ∈ names (insert name value es) ↔ n = name ∨ n ∈ names es := by
  induction es with
  | nil => simp [insert, names]
  | cons e es ih =>
    simp only [names] at ih
    by_cases h : e.1 = name
    · simp [insert, names, h]
    · simp only [insert, names, h, if_false, List.map_cons, List.mem_cons, ih]
      grind

theorem nodup_insert {name value : Text} {es : List Entry} (h : (names es).Nodup) :
    (names (insert name value es)).Nodup := by
  induction es with
  | nil => simp [insert, names]
  | cons e es ih =>
    simp only [names, List.map_cons, List.nodup_cons] at h
    by_cases he : e.1 = name
    · simpa [insert, names, he] using ⟨by simpa [he] using h.1, h.2⟩
    · have hm := @mem_names_insert name value e.1 es
      simp only [names] at hm ih
      simp only [insert, he, if_false, names, List.map_cons, List.nodup_cons, hm]
      exact ⟨by simpa [he] using h.1, ih h.2⟩

theorem nodup_erase {name : Text} {es : List Entry} (h : (names es).Nodup) :
    (names (erase name es)).Nodup :=
  h.sublist (List.filter_sublist.map _)

theorem lookup_cons (n k v : Text) (es : List Entry) :
    ((k, v) :: es).lookup n = if n = k then some v else es.lookup n := by
  by_cases h : n = k
  · simp [h]
  · simp [List.lookup_cons, h, beq_eq_false_iff_ne.2 h]

theorem lookup_insert (name value n : Text) (es : List Entry) :
    (insert name value es).lookup n = if n = name then some value else es.lookup n := by
  induction es with
  | nil => simp [insert]
  | cons e es ih =>
    obtain ⟨k, v⟩ := e
    by_cases hk : k = name
    · subst hk
      simp only [insert, if_true, lookup_cons]
      split <;> rfl
    · simp only [insert, hk, if_false, lookup_cons, ih]
      grind

theorem lookup_erase (name n : Text) (es : List Entry) :
    (erase name es).lookup n = if n = name then none else es.lookup n := by
  induction es with
  | nil => simp [erase]
  | cons e es ih =>
    obtain ⟨k, v⟩ := e
    simp only [erase] at ih
    by_cases hk : k = name
    · subst hk
      simp only [erase, List.filter_cons, bne_self_eq_false, lookup_cons]
      simp only [Bool.false_eq_true, if_false, ih]
      grind
    · simp only [erase, List.filter_cons, bne_iff_ne, ne_eq, hk, not_false_eq_true, if_true,
        lookup_cons, ih]
      grind

end Entries

namespace Attrs

/-- Give `name` a value; a name that is there keeps its place. -/
def insert (m : Attrs) (name value : Text) : Attrs :=
  ⟨Entries.insert name value m.entries, Entries.nodup_insert m.nodup⟩

/-- Drop `name`; the rest keeps its order. -/
def erase (m : Attrs) (name : Text) : Attrs :=
  ⟨Entries.erase name m.entries, Entries.nodup_erase m.nodup⟩

@[simp] theorem find?_empty (n : Text) : empty.find? n = none := rfl

@[simp] theorem find?_insert (m : Attrs) (name value n : Text) :
    (m.insert name value).find? n = if n = name then some value else m.find? n :=
  Entries.lookup_insert name value n m.entries

@[simp] theorem find?_erase (m : Attrs) (name n : Text) :
    (m.erase name).find? n = if n = name then none else m.find? n :=
  Entries.lookup_erase name n m.entries

/-- The entries of a list inserted one after another. -/
def ofList (es : List Entry) : Attrs := es.foldl (fun m e => m.insert e.1 e.2) empty

/-- Two maps give every name the same value. -/
def Same (a b : Attrs) : Prop := ∀ n, a.find? n = b.find? n

/-- Decides whether two maps give every name the same value. -/
def same (a b : Attrs) : Bool :=
  a.entries.all (fun e => b.find? e.1 == some e.2) && b.entries.all fun e => a.has e.1

theorem mem_of_find? {m : Attrs} {n v : Text} (h : m.find? n = some v) : (n, v) ∈ m.entries := by
  simp only [find?] at h
  revert h
  induction m.entries with
  | nil => simp
  | cons e es ih =>
    obtain ⟨k, w⟩ := e
    by_cases hk : n = k
    · subst hk; simp; exact fun h => .inl h.symm
    · simp only [List.lookup_cons, beq_eq_false_iff_ne.2 hk]
      exact fun h => List.mem_cons_of_mem _ (ih h)

theorem find?_of_mem {m : Attrs} {n v : Text} (h : (n, v) ∈ m.entries) : m.find? n = some v := by
  obtain ⟨es, hd⟩ := m
  simp only [find?]
  simp only [] at h
  induction es with
  | nil => simp at h
  | cons e es ih =>
    obtain ⟨k, w⟩ := e
    simp only [names, List.map_cons, List.nodup_cons] at hd
    rcases List.mem_cons.1 h with h | h
    · simp_all
    · have hk : n ≠ k := fun hk => hd.1 (hk ▸ List.mem_map_of_mem h)
      simpa [List.lookup_cons, beq_eq_false_iff_ne.2 hk] using ih hd.2 h

theorem same_iff {a b : Attrs} : a.same b = true ↔ a.Same b := by
  simp only [same, Bool.and_eq_true, List.all_eq_true, beq_iff_eq, has]
  constructor
  · rintro ⟨hab, hba⟩ n
    cases ha : a.find? n with
    | some v => exact (hab _ (mem_of_find? ha)).symm
    | none =>
      cases hb : b.find? n with
      | none => rfl
      | some w => simpa [ha] using hba _ (mem_of_find? hb)
  · intro h
    refine ⟨fun e he => ?_, fun e he => ?_⟩
    · rw [← h]; exact find?_of_mem he
    · rw [h, find?_of_mem (m := b) (v := e.2) he]; rfl

end Attrs

end MarkupSync
