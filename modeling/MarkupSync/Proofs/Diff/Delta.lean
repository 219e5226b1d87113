import MarkupSync.Edit.Apply

/-!
# Differences lead from one map to the other

* `find?_insertAll`, `find?_eraseAll`: many entries set, many names dropped;
* **`Delta.same_apply_between`**: the difference of two maps, applied to the first, gives the second;
* `Delta.apply_of_isEmpty`: an empty difference changes nothing.
-/

namespace MarkupSync

theorem Entries.lookup_eq_none {es : List Entry} {n : Text} (h : n ∉ names es) :
    es.lookup n = none := by
  rw [List.lookup_eq_none_iff]
  intro e he
  simpa using fun hn : n = e.1 => h (hn ▸ List.mem_map_of_mem he)

namespace Attrs

@[refl] theorem Same.refl (m : Attrs) : m.Same m := fun _ => rfl

theorem Same.symm {a b : Attrs} (h : a.Same b) : b.Same a := fun n => (h n).symm

theorem Same.trans {a b c : Attrs} (h : a.Same b) (h' : b.Same c) : a.Same c :=
  fun n => (h n).trans (h' n)

theorem has_eq_true_iff {m : Attrs} {n : Text} : m.has n = true ↔ n ∈ names m.entries := by
  simp only [has, Option.isSome_iff_exists]
  constructor
  · rintro ⟨v, hv⟩
    exact List.mem_map_of_mem (mem_of_find? hv)
  · intro h
    obtain ⟨⟨k, v⟩, he, rfl⟩ := List.mem_map.1 h
    exact ⟨v, find?_of_mem he⟩

theorem find?_eq_none_iff {m : Attrs} {n : Text} : m.find? n = none ↔ n ∉ names m.entries := by
  rw [← has_eq_true_iff, has]
  cases m.find? n <;> simp

/-- The value of a name once many names are dropped. -/
theorem find?_eraseAll (ns : List Text) (m : Attrs) (n : Text) :
    (ns.foldl erase m).find? n = if n ∈ ns then none else m.find? n := by
  induction ns generalizing m with
  | nil => simp
  | cons k ns ih =>
    rw [List.foldl_cons, ih, find?_erase]
    by_cases hn : n ∈ ns <;> by_cases hk : n = k <;> simp [hn, hk]

/-- The value of a name once many entries are set, each name once. -/
theorem find?_insertAll (es : List Entry) (hd : (names es).Nodup) (m : Attrs) (n : Text) :
    (es.foldl (fun m e => m.insert e.1 e.2) m).find? n = (es.lookup n).or (m.find? n) := by
  induction es generalizing m with
  | nil => simp
  | cons e es ih =>
    obtain ⟨k, v⟩ := e
    obtain ⟨hk, hd⟩ := List.nodup_cons.1 hd
    rw [List.foldl_cons, ih hd, find?_insert, Entries.lookup_cons]
    by_cases hn : n = k
    · subst hn
      simp [Entries.lookup_eq_none hk]
    · simp [hn]

theorem entries_insert_of_not_mem {m : Attrs} {n v : Text} (h : n ∉ names m.entries) :
    (m.insert n v).entries = m.entries ++ [(n, v)] := by
  have key : ∀ es : List Entry, n ∉ names es → Entries.insert n v es = es ++ [(n, v)] := by
    intro es hes
    induction es with
    | nil => rfl
    | cons e es ih =>
      simp only [names, List.map_cons, List.mem_cons, not_or] at hes
      simp [Entries.insert, Ne.symm hes.1, ih hes.2]
  exact key _ h

/-- Entries with different names are kept as they are. -/
theorem entries_ofList {es : List Entry} (h : (names es).Nodup) : (ofList es).entries = es := by
  have key : ∀ (es : List Entry) (m : Attrs), (names (m.entries ++ es)).Nodup →
      (es.foldl (fun m e => m.insert e.1 e.2) m).entries = m.entries ++ es := by
    intro es
    induction es with
    | nil => simp
    | cons e es ih =>
      intro m hm
      have hn : e.1 ∉ names m.entries := by
        simp only [names, List.map_append, List.map_cons, List.nodup_append] at hm
        exact fun hc => hm.2.2 e.1 hc e.1 List.mem_cons_self rfl
      rw [List.foldl_cons, ih _ (by rw [entries_insert_of_not_mem hn]; simpa using hm),
        entries_insert_of_not_mem hn]
      simp
  simpa [ofList, empty] using key es empty (by simpa [empty] using h)

end Attrs

theorem names_filter_sublist (p : Entry → Bool) (es : List Entry) :
    (names (es.filter p)).Sublist (names es) := List.filter_sublist.map _

theorem lookup_filter {es : List Entry} (hd : (names es).Nodup) (p : Entry → Bool) (n : Text) :
    (es.filter p).lookup n = (es.lookup n).filter fun v => p (n, v) := by
  induction es with
  | nil => simp
  | cons e es ih =>
    obtain ⟨k, v⟩ := e
    obtain ⟨hk, hd⟩ := List.nodup_cons.1 hd
    by_cases hn : n = k
    · subst hn
      have hnone : (es.filter p).lookup n = none :=
        Entries.lookup_eq_none fun h => hk ((names_filter_sublist p es).subset h)
      by_cases hp : p (n, v) <;> simp [Option.filter, hp, hnone]
    · by_cases hp : p (k, v) <;> simp [Entries.lookup_cons, hp, hn, ih hd]

namespace Delta

variable (a b : Attrs)

theorem entries_added_between : (between a b).added.entries = b.entries.filter fun e => !a.has e.1 :=
  Attrs.entries_ofList (b.nodup.sublist (names_filter_sublist _ _))

theorem entries_changed_between : (between a b).changed.entries =
    b.entries.filter fun e => a.has e.1 && a.find? e.1 != some e.2 :=
  Attrs.entries_ofList (b.nodup.sublist (names_filter_sublist _ _))

theorem nodup_assignments_between : (names (between a b).assignments).Nodup := by
  simp only [assignments, names, List.map_append, List.nodup_append]
  refine ⟨(between a b).added.nodup, (between a b).changed.nodup, fun n hn m hm h => ?_⟩
  obtain ⟨e, he, rfl⟩ := List.mem_map.1 hn
  obtain ⟨f, hf, hfe⟩ := List.mem_map.1 hm
  rw [entries_added_between] at he
  rw [entries_changed_between] at hf
  have h1 := (List.mem_filter.1 he).2
  have h2 := (List.mem_filter.1 hf).2
  rw [h, ← hfe] at h1
  simp_all

/-- An assigned value is the value in the new map. -/
theorem lookup_assignments_between (n : Text) : (between a b).assignments.lookup n =
    (b.find? n).filter fun v => a.find? n != some v := by
  rw [assignments, List.lookup_append, entries_added_between, entries_changed_between,
    lookup_filter b.nodup, lookup_filter b.nodup]
  change ((b.find? n).filter _).or ((b.find? n).filter _) = _
  cases hb : b.find? n with
  | none => rfl
  | some v => cases ha : a.find? n <;> simp [Option.filter, Attrs.has, ha]

/-- **The difference of two maps leads from the first to the second.** -/
theorem same_apply_between : ((between a b).apply a).Same b := by
  intro n
  rw [apply, Attrs.find?_insertAll _ (nodup_assignments_between a b), lookup_assignments_between,
    Attrs.find?_eraseAll]
  have hr : n ∈ (between a b).removed ↔ a.has n = true ∧ b.has n = false := by
    simp [between, List.mem_filter, Attrs.has_eq_true_iff]
  simp only [hr]
  cases hb : b.find? n with
  | none => cases ha : a.find? n <;> simp [Attrs.has, ha, hb]
  | some v =>
    cases ha : a.find? n with
    | none => simp [Option.filter]
    | some w =>
      by_cases hw : w = v
      · simp [Option.filter, Attrs.has, hb, hw]
      · simp [Option.filter, hw]

/-- Maps that are the same stay so under a difference. -/
theorem same_apply_congr {m m' : Attrs} (h : m.Same m') :
    ((between a b).apply m).Same ((between a b).apply m') := by
  intro n
  rw [apply, apply, Attrs.find?_insertAll _ (nodup_assignments_between a b),
    Attrs.find?_insertAll _ (nodup_assignments_between a b), Attrs.find?_eraseAll,
    Attrs.find?_eraseAll, h]

/-- What is assigned are entries of the new map. -/
theorem mem_of_mem_assignments_between {e : Entry} (h : e ∈ (between a b).assignments) :
    e ∈ b.entries := by
  rw [assignments, List.mem_append, entries_added_between, entries_changed_between] at h
  rcases h with h | h <;> exact (List.mem_filter.1 h).1

/-- An empty difference changes nothing. -/
theorem apply_of_isEmpty {d : Delta} (h : d.isEmpty = true) (m : Attrs) : d.apply m = m := by
  simp only [isEmpty, Attrs.isEmpty, Bool.and_eq_true, List.isEmpty_iff] at h
  simp [apply, assignments, h.1.1, h.1.2, h.2]

end Delta

end MarkupSync
