import MarkupSync.Proofs.Style.Object
import MarkupSync.Proofs.Style.Parts

/-!
# Members of style objects

An object is read member by member. A member gives an entry or is blank; all else is not understood.
A written object has one member for each entry.

* `trimmed_spaces`: white space around a text does not matter;
* `readName?`, `entryOf?_eq_some_iff`: a member is a name and a value around the first colon;
* **`addEntries_eq_some_iff`**: members are understood one by one;
* **`readObject?_eq_some_iff`**: so is an object, white space and braces around members;
* `writtenMembers`, `splitTop_members`: the members of a written object, and when they are found
  again;
* **`exists_writeObject`**: an object is read as it was written, and ends at its last brace.
-/

namespace MarkupSync.Style

open Text

/-! ## White space -/

section Spaces

variable {a s b : Text}

theorem trimmed_space_append (ha : a.all isSpace = true) (s : Text) :
    trimmed (a ++ s) = trimmed s := by
  rw [trimmed, trimmed, trim, trim, trimStart, trimStart,
    List.dropWhile_append_of_pos (List.all_eq_true.1 ha)]

theorem trimmed_append_space (hb : b.all isSpace = true) (s : Text) :
    trimmed (s ++ b) = trimmed s := by
  have hend (s : Text) : trimEnd isSpace (s ++ b) = trimEnd isSpace s := by
    have hrev : ∀ c ∈ b.reverse, isSpace c = true := fun c hc =>
      List.all_eq_true.1 hb c (List.mem_reverse.1 hc)
    rw [trimEnd, trimEnd, List.reverse_append, List.dropWhile_append_of_pos hrev]
  induction s with
  | nil =>
    have hnil : b.dropWhile isSpace = [] := List.dropWhile_eq_nil_iff.2 (List.all_eq_true.1 hb)
    rw [List.nil_append, trimmed, trim, trimStart, hnil]
    rfl
  | cons c s ih =>
    cases hc : isSpace c with
    | true =>
      have hone : [c].all isSpace = true := by simp [hc]
      exact (trimmed_space_append hone (s ++ b)).trans (ih.trans (trimmed_space_append hone s).symm)
    | false =>
      have hstart (t : Text) : trimStart isSpace (c :: t) = c :: t := by simp [trimStart, hc]
      rw [trimmed, trimmed, trim, trim, List.cons_append, hstart, hstart, ← List.cons_append, hend]

/-- White space around a text does not matter. -/
theorem trimmed_spaces (ha : a.all isSpace = true) (hb : b.all isSpace = true) (s : Text) :
    trimmed (a ++ (s ++ b)) = trimmed s :=
  (trimmed_space_append ha _).trans (trimmed_append_space hb s)

/-- A text is what is left of it, with white space around. -/
theorem exists_trimmed (s : Text) :
    ∃ a b, s = a ++ (trimmed s ++ b) ∧ a.all isSpace = true ∧ b.all isSpace = true := by
  refine ⟨s.takeWhile isSpace, ((trimStart isSpace s).reverse.takeWhile isSpace).reverse, ?_,
    List.all_takeWhile, by rw [List.all_reverse]; exact List.all_takeWhile⟩
  rw [trimmed, trim, trimEnd, ← List.reverse_append, List.takeWhile_append_dropWhile,
    List.reverse_reverse, trimStart, List.takeWhile_append_dropWhile]

theorem all_isSpace_of_trimmed_eq_nil (h : trimmed s = []) : s.all isSpace = true := by
  obtain ⟨a, b, hs, ha, hb⟩ := exists_trimmed s
  rw [hs, h, List.nil_append, List.all_append, ha, hb]
  rfl

end Spaces

/-! ## Names and values -/

theorem exists_of_unquoted? {s t : Text} (h : unquoted? s = some t) :
    ∃ q, isQuote q = true ∧ s = q :: (t ++ [q]) := by
  cases s with
  | nil => cases h
  | cons q s =>
    simp only [unquoted?, Option.ite_none_right_eq_some, Option.some.injEq] at h
    obtain ⟨⟨hq, hlast⟩, rfl⟩ := h
    exact ⟨q, hq, by rw [List.dropLast_append_getLast? _ hlast]⟩

/-- Read the text in front of the colon of a member. -/
def readName? (s : Text) : Option Text :=
  let key := (unquoted? (trimmed s)).getD (trimmed s)
  if isCustom key || key.all isKeyChar then some (kebab key) else none

/-- A plain name is read in the CSS spelling. -/
theorem readName?_of_all {s : Text} (h : s.all isKeyChar = true) :
    readName? s = some (kebab s) := by
  have hunquoted : unquoted? s = none := by
    cases s with
    | nil => rfl
    | cons c s =>
      rw [List.all_cons, Bool.and_eq_true] at h
      simp [unquoted?, (isKeyChar_spec h.1).2.1]
  have htrimmed : trimmed s = s := trimmed_of_all <| List.all_eq_true.2 fun c hc => by
    simp [(isKeyChar_spec (List.all_eq_true.1 h c hc)).1]
  simp [readName?, htrimmed, hunquoted, h]

/-- A member is read of what stands around its first colon. -/
theorem entryOf?_append_eq_some_iff {a : Text} (ha : ':' ∉ a) {b : Text} {e : Entry} :
    entryOf? (a ++ ':' :: b) = some e ↔
      readName? a = some e.1 ∧ readValue? e.1 (trimmed b) = some e.2 := by
  obtain ⟨name, value⟩ := e
  simp only [entryOf?, cut?_singleton_append ha, readName?]
  split
  · simp only [Option.map_eq_some_iff, Prod.mk.injEq, Option.some.injEq]
    constructor
    · rintro ⟨v, hv, rfl, rfl⟩
      exact ⟨rfl, hv⟩
    · rintro ⟨rfl, hv⟩
      exact ⟨value, hv, rfl, rfl⟩
  · simp

/-- A text with a colon is what stands around the first one. -/
theorem exists_around {s : Text} (h : ':' ∈ s) : ∃ a b, s = a ++ ':' :: b ∧ ':' ∉ a := by
  cases hcut : cut? [':'] s with
  | none => exact absurd h (cut?_singleton_eq_none.1 hcut)
  | some ab => exact ⟨ab.1, ab.2, by simp [eq_of_cut?_eq_some hcut], not_mem_of_cut?_eq_some hcut⟩

theorem entryOf?_of_not_mem {s : Text} (h : ':' ∉ s) : entryOf? s = none := by
  rw [entryOf?, cut?_singleton_eq_none.2 h]

/-- **A member is a name and a value around the first colon.** -/
theorem entryOf?_eq_some_iff {p : Text} {e : Entry} :
    entryOf? p = some e ↔ ∃ a b, p = a ++ ':' :: b ∧ ':' ∉ a ∧ readName? a = some e.1 ∧
      readValue? e.1 (trimmed b) = some e.2 := by
  refine ⟨fun h => ?_, ?_⟩
  · by_cases hp : ':' ∈ p
    · obtain ⟨a, b, rfl, ha⟩ := exists_around hp
      exact ⟨a, b, rfl, ha, (entryOf?_append_eq_some_iff ha).1 h⟩
    · rw [entryOf?_of_not_mem hp] at h
      cases h
  · rintro ⟨a, b, rfl, ha, h⟩
    exact (entryOf?_append_eq_some_iff ha).2 h

/-- White space around a member does not matter. -/
theorem entryOf?_trimmed (p : Text) : entryOf? (trimmed p) = entryOf? p := by
  obtain ⟨a, b, hp, ha, hb⟩ := exists_trimmed p
  have hcolon : ':' ∉ a := fun h => absurd (List.all_eq_true.1 ha _ h) (by decide)
  have hcolon' : ':' ∉ b := fun h => absurd (List.all_eq_true.1 hb _ h) (by decide)
  by_cases hmem : ':' ∈ trimmed p
  · obtain ⟨c, d, hcd, hc⟩ := exists_around hmem
    have hac : ':' ∉ a ++ c := by simp [hcolon, hc]
    have hp' : p = a ++ c ++ ':' :: (d ++ b) := by rw [hp, hcd]; simp
    refine Option.ext fun e => ?_
    rw [hcd, entryOf?_append_eq_some_iff hc, hp', entryOf?_append_eq_some_iff hac,
      trimmed_append_space hb, readName?, readName?, trimmed_space_append ha]
  · have hmem' : ':' ∉ p := by
      rw [hp]
      simp [hcolon, hcolon', hmem]
    rw [entryOf?_of_not_mem hmem, entryOf?_of_not_mem hmem']

theorem entryOf?_of_trimmed_eq_nil {p : Text} (h : trimmed p = []) : entryOf? p = none := by
  rw [← entryOf?_trimmed, h]
  rfl

/-! ## Members -/

/-- **Members are understood one by one**: each is blank or gives an entry. -/
theorem addEntries_eq_some_iff {m k : Attrs} {ps : List Text} :
    addEntries m ps = some k ↔ (∀ p ∈ ps, trimmed p = [] ∨ (entryOf? p).isSome = true) ∧
      (ps.filterMap entryOf?).foldl (fun m e => m.insert e.1 e.2) m = k := by
  induction ps generalizing m with
  | nil => simp [addEntries]
  | cons p ps ih =>
    simp only [addEntries, List.forall_mem_cons]
    split
    next hp => simp [ih, hp, entryOf?_of_trimmed_eq_nil hp]
    next hp =>
      rw [entryOf?_trimmed]
      cases he : entryOf? p with
      | none => simp [hp]
      | some e => simp [ih, he]

/-- Members that give entries, one by one, add these entries. -/
theorem addEntries_of_map_eq {ps : List Text} {es : List Entry} (h : ps.map entryOf? = es.map some)
    (m : Attrs) : addEntries m ps = some (es.foldl (fun m e => m.insert e.1 e.2) m) := by
  have hentries : ps.filterMap entryOf? = es := by
    have := congrArg (List.filterMap id) h
    rwa [List.filterMap_map, List.filterMap_map, Function.id_comp, Function.id_comp,
      List.filterMap_some] at this
  rw [addEntries_eq_some_iff, hentries]
  refine ⟨fun p hp => .inr ?_, rfl⟩
  obtain ⟨e, -, he⟩ := List.mem_map.1 (h ▸ List.mem_map_of_mem hp)
  rw [← he]
  rfl

/-- The members of an object stand between its braces. -/
theorem readObject?_braces {a b : Text} (ha : a.all isSpace = true) (hb : b.all isSpace = true)
    (body : Text) : readObject? (a ++ '\x7b' :: (body ++ '\x7d' :: b)) =
      addEntries .empty (splitTop ',' body) := by
  have hinner := trimmed_between ha hb (s := '\x7b' :: (body ++ ['\x7d'])) (List.cons_ne_nil _ _)
    (by rintro _ ⟨⟩; decide)
    (by rw [← List.cons_append, List.getLast?_concat]; rintro _ ⟨⟩; decide)
  rw [List.cons_append, List.append_assoc, List.singleton_append] at hinner
  simp [readObject?, hinner]

/-- **An object is understood if its members are**, with white space and braces around them. -/
theorem readObject?_eq_some_iff {s : Text} {m : Attrs} :
    readObject? s = some m ↔ ∃ a b body, s = a ++ '\x7b' :: (body ++ '\x7d' :: b) ∧
      a.all isSpace = true ∧ b.all isSpace = true ∧
      addEntries .empty (splitTop ',' body) = some m := by
  constructor
  · intro h
    obtain ⟨a, b, hs, ha, hb⟩ := exists_trimmed s
    obtain ⟨body, hbody⟩ : ∃ body, trimmed s = '\x7b' :: (body ++ ['\x7d']) := by
      rw [readObject?] at h
      split at h
      next inner hinner =>
        split at h
        next hlast =>
          exact ⟨inner.dropLast, by rw [hinner, List.dropLast_append_getLast? _ hlast]⟩
        next => cases h
      next => cases h
    have hs' : s = a ++ '\x7b' :: (body ++ '\x7d' :: b) := by rw [hs, hbody]; simp
    exact ⟨a, b, body, hs', ha, hb, (readObject?_braces ha hb body).symm.trans (hs' ▸ h)⟩
  · rintro ⟨a, b, body, rfl, ha, hb, h⟩
    exact (readObject?_braces ha hb body).trans h

/-! ## The text between the braces -/

/-- The members of an object as they are written, with white space around them. -/
def writtenMembers (quote : Char) : List Entry → List Text
  | [] => []
  | [e] => [' ' :: (writeEntry quote e ++ [' '])]
  | e :: d :: es => (' ' :: writeEntry quote e) :: writtenMembers quote (d :: es)

section Members

variable (quote : Char)

theorem intercalate_writtenMembers (e : Entry) (es : List Entry) :
    [','].intercalate (writtenMembers quote (e :: es)) =
      ' ' :: ([',', ' '].intercalate ((e :: es).map (writeEntry quote)) ++ [' ']) := by
  induction es generalizing e with
  | nil => simp [writtenMembers]
  | cons d es ih =>
    obtain ⟨w, ws, hws⟩ : ∃ w ws, writtenMembers quote (d :: es) = w :: ws := by
      cases es <;> exact ⟨_, _, rfl⟩
    have := ih d
    rw [hws] at this
    rw [writtenMembers, hws, List.intercalate_cons_cons, this, List.map_cons, List.map_cons,
      List.map_cons, List.intercalate_cons_cons]
    simp

/-- An object with entries is written in two pairs of braces. -/
theorem writeObject_eq {m : Attrs} (hne : m.entries ≠ []) :
    writeObject quote m = '\x7b' ::
      ('\x7b' :: ([','].intercalate (writtenMembers quote m.entries) ++ ['\x7d']) ++ ['\x7d']) := by
  obtain ⟨e, es, hes⟩ := List.exists_cons_of_ne_nil hne
  have hempty : m.isEmpty = false := by simp [Attrs.isEmpty, hes]
  rw [writeObject, hempty, hes, intercalate_writtenMembers]
  simp

/-- The text between the outer braces of a written object. -/
theorem writeObject_inner {m : Attrs} (hne : m.entries ≠ []) :
    (writeObject quote m).tail.dropLast =
      '\x7b' :: ([','].intercalate (writtenMembers quote m.entries) ++ ['\x7d']) := by
  rw [writeObject_eq quote hne, List.tail_cons, List.dropLast_concat]

/-- White space around members does not matter. -/
theorem map_writtenMembers {β : Type} {f : Text → β}
    (hf : ∀ {a b : Text}, a.all isSpace = true → b.all isSpace = true →
      ∀ s, f (a ++ (s ++ b)) = f s) (es : List Entry) :
    (writtenMembers quote es).map f = es.map (f ∘ writeEntry quote) := by
  have hspace : [' '].all isSpace = true := by decide
  fun_induction writtenMembers quote es with
  | case1 => rfl
  | case2 e => exact congrArg ([·]) (hf hspace hspace _)
  | case3 e d es ih =>
    have := hf hspace (b := []) rfl (writeEntry quote e)
    rw [List.append_nil] at this
    rw [List.map_cons, ih]
    exact congrArg (· :: _) this

/-- The members of a written object are read as the entries by themselves. -/
theorem map_entryOf?_writtenMembers (es : List Entry) :
    (writtenMembers quote es).map entryOf? = es.map (entryOf? ∘ writeEntry quote) :=
  map_writtenMembers quote (fun ha hb s => by
    rw [← entryOf?_trimmed, trimmed_spaces ha hb, entryOf?_trimmed]) es

theorem isUnsplit_append_space {s : Text} {q : Option Char} {depth : Int} :
    IsUnsplit ',' q depth (s ++ [' ']) ↔ IsUnsplit ',' q depth s := by
  fun_induction IsUnsplit ',' q depth s with
  | case1 q depth => cases q <;> simp [IsUnsplit]
  | case2 depth q c s ih => simpa [IsUnsplit] using ih
  | case3 depth c s h1 ih => simpa [IsUnsplit, h1] using ih
  | case4 depth c s h1 h2 ih => simpa [IsUnsplit, h1, h2] using ih
  | case5 depth c s h1 h2 h3 ih => simpa [IsUnsplit, h1, h2, h3] using ih
  | case6 depth c s h1 h2 h3 ih => simp [IsUnsplit, h1, h2, h3, ih]

theorem isUnsplit_writtenMembers (es : List Entry) :
    (∀ t ∈ writtenMembers quote es, IsUnsplit ',' none 0 t) ↔
      ∀ e ∈ es, IsUnsplit ',' none 0 (writeEntry quote e) := by
  have hfront (s : Text) : IsUnsplit ',' none 0 (' ' :: s) ↔ IsUnsplit ',' none 0 s :=
    and_iff_right (by decide)
  fun_induction writtenMembers quote es with
  | case1 => simp
  | case2 e => simp [hfront, isUnsplit_append_space]
  | case3 e d es ih =>
    rw [List.forall_mem_cons, List.forall_mem_cons (a := e)]
    exact and_congr (hfront _) ih

theorem isWhole_writtenMembers (es : List Entry) :
    (∀ t ∈ (writtenMembers quote es).dropLast, IsWhole ',' none 0 t) ↔
      ∀ e ∈ es.dropLast, IsWhole ',' none 0 (writeEntry quote e) := by
  have hfront (s : Text) : IsWhole ',' none 0 (' ' :: s) ↔ IsWhole ',' none 0 s :=
    and_iff_right (by decide)
  fun_induction writtenMembers quote es with
  | case1 => simp
  | case2 e => simp
  | case3 e d es ih =>
    have hne : writtenMembers quote (d :: es) ≠ [] := by cases es <;> exact List.cons_ne_nil _ _
    rw [List.dropLast_cons_of_ne_nil hne, List.dropLast_cons_of_ne_nil (List.cons_ne_nil _ _),
      List.forall_mem_cons, List.forall_mem_cons]
    exact and_congr (hfront _) ih

/-- The members of a written object are found again exactly if they close what they open. -/
theorem splitTop_members {es : List Entry} (hne : es ≠ []) :
    splitTop ',' ([','].intercalate (writtenMembers quote es)) = writtenMembers quote es ↔
      (∀ e ∈ es.dropLast, IsWhole ',' none 0 (writeEntry quote e)) ∧
        ∀ e ∈ es, IsUnsplit ',' none 0 (writeEntry quote e) := by
  rw [← isWhole_writtenMembers, ← isUnsplit_writtenMembers]
  constructor
  · intro h
    exact ⟨fun t ht => isWhole_of_mem_splitTop (h.symm ▸ ht),
      fun t ht => isUnsplit_of_mem_splitTop (h.symm ▸ ht)⟩
  · rintro ⟨hwhole, hunsplit⟩
    obtain ⟨w, ws, hws⟩ : ∃ w ws, writtenMembers quote es = w :: ws := by
      obtain ⟨e, es, rfl⟩ := List.exists_cons_of_ne_nil hne
      cases es <;> exact ⟨_, _, rfl⟩
    rw [hws] at hwhole hunsplit ⊢
    exact splitTop_join (by decide) (by decide) (by decide) hwhole hunsplit

/-- The text between the braces closes what it opens if the members do. -/
theorem isBalanced_writtenMembers {es : List Entry}
    (h : ∀ e ∈ es, IsBalanced (writeEntry quote e)) :
    IsBalanced ([','].intercalate (writtenMembers quote es)) := by
  have hspace : IsBalanced [' '] := isBalanced_of_all (by decide)
  have hcomma : IsBalanced [','] := isBalanced_of_all (by decide)
  have hmembers : ∀ t ∈ writtenMembers quote es, IsBalanced t := by
    fun_induction writtenMembers quote es with
    | case1 => exact nofun
    | case2 e =>
      have he := hspace.append ((h e List.mem_cons_self).append hspace)
      exact List.forall_mem_singleton.2 he
    | case3 e d es ih =>
      exact List.forall_mem_cons.2 ⟨hspace.append (h e List.mem_cons_self),
        ih fun d' hd' => h d' (List.mem_cons_of_mem e hd')⟩
  revert hmembers
  induction writtenMembers quote es with
  | nil => exact fun _ => isBalanced_nil
  | cons t ts ih =>
    intro hmembers
    obtain ⟨ht, hts⟩ := List.forall_mem_cons.1 hmembers
    cases ts with
    | nil => simpa using ht
    | cons u us =>
      rw [List.intercalate_cons_cons]
      exact (ht.append hcomma).append (ih hts)

end Members

/-- **An object is read as it was written**, and its last brace closes the first one. -/
theorem exists_writeObject {quote : Char} (hq : quote = '"' ∨ quote = '\'') {style : Attrs}
    (h : ∀ e ∈ style.entries, IsObjectEntry e) (hne : style.isEmpty = false) :
    ∃ s, writeObject quote style = '\x7b' :: (s ++ ['\x7d']) ∧ IsBalanced s ∧
      readObject? s = some style := by
  have hentries : style.entries ≠ [] := fun h => by simp [Attrs.isEmpty, h] at hne
  have hbalanced (e : Entry) (he : e ∈ style.entries) : IsBalanced (writeEntry quote e) :=
    (writeEntry_text hq (h e he)).1
  have hwhole (e : Entry) (he : e ∈ style.entries) : IsWhole ',' none 0 (writeEntry quote e) :=
    (writeEntry_text hq (h e he)).2
  refine ⟨_, writeObject_eq quote hentries, (isBalanced_writtenMembers quote hbalanced).braces, ?_⟩
  have hbraces := readObject?_braces (a := []) (b := []) rfl rfl
    ([','].intercalate (writtenMembers quote style.entries))
  have hsplit := (splitTop_members quote hentries).2
    ⟨fun e he => hwhole e (List.dropLast_subset _ he), fun e he => (hwhole e he).isUnsplit⟩
  have hmap : (writtenMembers quote style.entries).map entryOf? = style.entries.map some := by
    rw [map_entryOf?_writtenMembers]
    exact List.map_congr_left fun e he => entryOf?_writeEntry hq (h e he)
  rw [List.nil_append] at hbraces
  rw [hbraces, hsplit, addEntries_of_map_eq hmap]
  exact congrArg some (Attrs.ext (Attrs.entries_ofList style.nodup))

end MarkupSync.Style
