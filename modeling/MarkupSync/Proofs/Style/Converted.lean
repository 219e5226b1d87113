import MarkupSync.Proofs.Style.Member
import MarkupSync.Proofs.Style.Object

/-!
# Declarations written as an object

The declarations of a text, written as a style object, are read again unless a name has no object
spelling or a value with both quotes opens what it does not close.

* `countP_of_entryOf?`: a member counts what the entry counts that is read of it;
* `entryOf?_writeEntry_iff`: an entry is read as it was written exactly if its name has an object
  spelling;
* `eq_of_intercalate_eq`: counted parts of a text are in their places;
* **`readObject?_writeObject_iff`**: declarations are read from the object that is written of them
  exactly if all names have an object spelling and members with both quotes close what they open;
* `not_readObject?_writeObject`: the vendor name `ms` has no object spelling.
-/

namespace MarkupSync.Style

open Text

/-! ## Members, counted -/

/-- Whether a character is neither white space nor a quote nor in plain names. -/
def isSymbol (c : Char) : Bool := !(isSpace c || isQuote c || c.isAlphanum || c == '-')

theorem isSymbol_of_isAlpha {c : Char} (h : c.isAlpha = true) : isSymbol c = false := by
  simp [isSymbol, Char.isAlphanum, h]

theorem isSymbol_of_isQuote {c : Char} (h : isQuote c = true) : isSymbol c = false := by
  simp [isSymbol, h]

theorem countP_trimmed (s : Text) : (trimmed s).countP isSymbol = s.countP isSymbol := by
  have hspace (c : Char) (hc : isSpace c = true) : isSymbol c = false := by simp [isSymbol, hc]
  rw [List.countP_eq_length_filter, filter_trimmed hspace, ← List.countP_eq_length_filter]

theorem countP_kebab (n : Text) : (kebab n).countP isSymbol = n.countP isSymbol := by
  have hhyphen : isSymbol '-' = false := by decide
  have hchar (c : Char) : (kebabChar c).countP isSymbol = [c].countP isSymbol := by
    cases hc : c.isUpper with
    | false => rw [kebabChar_of_not_isUpper hc]
    | true =>
      have hlower := isSymbol_of_isAlpha (isAlpha_iff.2 (.inr (isLower_toLower hc)))
      simp [kebabChar, hc, hhyphen, hlower, isSymbol_of_isAlpha (isAlpha_iff.2 (.inl hc))]
  cases hn : isCustom n with
  | true => rw [kebab, if_pos hn]
  | false =>
    rw [kebab_of_not_custom hn]
    clear hn
    induction n with
    | nil => rfl
    | cons c n ih =>
      rw [List.flatMap_cons, List.countP_append, hchar, ih, ← List.countP_append,
        List.singleton_append]

theorem countP_camel (n : Text) : (camel n).countP isSymbol = n.countP isSymbol := by
  have hhyphen : isSymbol '-' = false := by decide
  have hraised (c : Char) : isSymbol c.toUpper = isSymbol c := by
    cases hc : c.isLower with
    | false => rw [toUpper_of_not_isLower hc]
    | true =>
      rw [isSymbol_of_isAlpha (isAlpha_iff.2 (.inl (toUpper_spec hc).1)),
        isSymbol_of_isAlpha (isAlpha_iff.2 (.inr hc))]
  have hfrom (raise : Bool) (s : Text) :
      (camelFrom raise s).countP isSymbol = s.countP isSymbol := by
    induction s generalizing raise with
    | nil => rfl
    | cons c s ih =>
      rw [camelFrom]
      split_ifs with hc
      · rw [ih, hc, List.countP_cons_of_neg (by simp [hhyphen])]
      · rw [List.countP_cons, List.countP_cons, ih, hraised]
      · rw [List.countP_cons, List.countP_cons, ih]
  rw [camel]
  split
  next rest hrest =>
    rw [hfrom, eq_of_afterWord? hrest]
    exact (List.countP_cons_of_neg (by simp [hhyphen])).symm
  next => exact hfrom false n

theorem countP_of_unquoted? {s t : Text} (h : unquoted? s = some t) :
    t.countP isSymbol = s.countP isSymbol := by
  obtain ⟨q, hq, rfl⟩ := exists_of_unquoted? h
  simp [List.countP_append, isSymbol_of_isQuote hq]

theorem countP_of_readName? {s n : Text} (h : readName? s = some n) :
    n.countP isSymbol = s.countP isSymbol := by
  simp only [readName?, Option.ite_none_right_eq_some, Option.some.injEq] at h
  rw [← h.2, countP_kebab, ← countP_trimmed s]
  cases hs : unquoted? (trimmed s) with
  | none => rfl
  | some t => exact countP_of_unquoted? hs

theorem countP_of_readValue? {n s v : Text} (h : readValue? n s = some v) :
    v.countP isSymbol = s.countP isSymbol := by
  have hpx : ['p', 'x'].countP isSymbol = 0 := by decide
  rw [readValue?] at h
  split at h
  next text hs =>
    cases h
    exact countP_of_unquoted? hs
  next =>
    simp only [Option.ite_none_right_eq_some, Option.some.injEq, numberValue] at h
    rw [← h.2]
    split
    · rfl
    · rw [List.countP_append, hpx, Nat.add_zero]

/-- A name that is read of a text without hyphens is plain. -/
theorem all_isKeyChar_of_readName? {s n : Text} (hs : '-' ∉ s) (h : readName? s = some n) :
    n.all isKeyChar = true := by
  simp only [readName?, Option.ite_none_right_eq_some, Option.some.injEq] at h
  obtain ⟨hkey, rfl⟩ := h
  have hhyphen : '-' ∉ (unquoted? (trimmed s)).getD (trimmed s) := by
    have htrimmed : '-' ∉ trimmed s := fun h => hs ((trim_sublist ..).subset h)
    cases ht : unquoted? (trimmed s) with
    | none => exact htrimmed
    | some t =>
      obtain ⟨q, -, hq⟩ := exists_of_unquoted? ht
      rw [hq] at htrimmed
      simp only [List.mem_cons, List.mem_append, not_or] at htrimmed
      exact htrimmed.2.1
  rw [isCustom_of_not_mem hhyphen, Bool.false_or] at hkey
  exact all_isKeyChar_kebab hkey

section Written

variable {quote : Char} (hq : quote = '"' ∨ quote = '\'')
include hq

theorem exists_quotes (s : Text) :
    ∃ q, (q = '"' ∨ q = '\'') ∧ quoted quote s = q :: (s ++ [q]) := by
  simp only [quoted, List.cons_append]
  refine ⟨_, ?_, rfl⟩
  split_ifs
  · exact .inr rfl
  · exact .inl rfl
  · exact hq

theorem countP_quoted (s : Text) : (quoted quote s).countP isSymbol = s.countP isSymbol := by
  obtain ⟨q, hq', hs⟩ := exists_quotes hq s
  have hquote : isQuote q = true := by rcases hq' with rfl | rfl <;> rfl
  rw [hs]
  simp [List.countP_append, isSymbol_of_isQuote hquote]

theorem countP_writeName (n : Text) : (writeName quote n).countP isSymbol = n.countP isSymbol := by
  rw [writeName]
  split
  · exact countP_quoted hq n
  · exact countP_camel n

/-- A member counts what the entry counts that is read of it. -/
theorem countP_of_entryOf? {p : Text} {e : Entry} (h : entryOf? p = some e) :
    p.countP isSymbol = (writeEntry quote e).countP isSymbol := by
  obtain ⟨a, b, rfl, -, hname, hvalue⟩ := entryOf?_eq_some_iff.1 h
  have hsign : [':', ' '].countP isSymbol = [':'].countP isSymbol := by decide
  rw [writeEntry, ← writeName, ← List.singleton_append]
  simp only [List.countP_append, countP_writeName hq, countP_quoted hq, hsign,
    countP_of_readName? hname, countP_of_readValue? hvalue, countP_trimmed, Nat.add_assoc]

/-! ## Names, written and read -/

/-- A name in lower case is read as it was written exactly if it has an object spelling. -/
theorem readName?_writeName_iff {n : Text} (hn : ∀ c ∈ n, c.isUpper = false) :
    readName? (writeName quote n) = some n ↔ isCustom n = true ∨ IsPlainName n := by
  rw [writeName]
  cases hcustom : isCustom n with
  | true =>
    obtain ⟨q, hq', hquoted⟩ := exists_quotes hq n
    have htrimmed := trimmed_string hq' n
    simp [readName?, hcustom, hquoted, htrimmed, unquoted?_string hq', kebab]
  | false =>
    rw [if_neg Bool.false_ne_true]
    simp only [Bool.false_eq_true, false_or]
    constructor
    · intro h
      have hchars := all_isKeyChar_of_readName?
        (fun h => (mem_of_mem_camel (n := n) (by decide) h).2 rfl) h
      rw [readName?_of_all (all_isKeyChar_camel hchars), Option.some.injEq, kebab_camel_iff hn] at h
      exact ⟨hchars, h.1, h.2⟩
    · intro h
      rw [readName?_of_all (all_isKeyChar_camel h.chars),
        (kebab_camel_iff hn).2 ⟨h.hyphens, h.vendor⟩]

/-- **An entry is read as it was written exactly if its name has an object spelling.** -/
theorem entryOf?_writeEntry_iff {e : Entry} (he : IsReadable e) :
    entryOf? (writeEntry quote e) = some e ↔ isCustom e.1 = true ∨ IsPlainName e.1 := by
  have hcolon : ':' ∉ writeName quote e.1 := by
    rw [writeName]
    split
    · obtain ⟨q, hq', hquoted⟩ := exists_quotes hq e.1
      have hne : ':' ≠ q := by rcases hq' with rfl | rfl <;> decide
      simp [hquoted, hne, he.colon]
    · exact fun h => he.colon (mem_of_mem_camel (by decide) h).1
  have hvalue : readValue? e.1 (trimmed (' ' :: quoted quote e.2)) = some e.2 := by
    obtain ⟨q, hq', hquoted⟩ := exists_quotes hq e.2
    rw [trimmed_cons_space, hquoted, trimmed_string hq', readValue?, unquoted?_string hq']
  have htext : writeEntry quote e = writeName quote e.1 ++ ':' :: (' ' :: quoted quote e.2) := by
    simp [writeEntry, writeName]
  rw [htext, entryOf?_append_eq_some_iff hcolon,
    readName?_writeName_iff hq (isUpper_of_lower_eq he.lower)]
  exact and_iff_left hvalue

/-! ## Members that close what they open -/

/-- A name or a value that neither quote can stand around. -/
def MixesQuotes (e : Entry) : Prop := ('"' ∈ e.1 ∧ '\'' ∈ e.1) ∨ ('"' ∈ e.2 ∧ '\'' ∈ e.2)

instance (e : Entry) : Decidable (MixesQuotes e) :=
  inferInstanceAs (Decidable (_ ∨ _))

theorem isWhole_quoted {s : Text} (hs : ¬ ('"' ∈ s ∧ '\'' ∈ s)) {t : Text}
    (ht : IsWhole ',' none 0 t) : IsWhole ',' none 0 (quoted quote s ++ t) := by
  obtain ⟨q, hq', hmem, hquoted⟩ := exists_quoted hq hs
  rw [hquoted, List.cons_append, List.append_assoc, List.singleton_append]
  exact isWhole_string hq' hmem ht

/-- A member closes what it opens if a quote can stand around its name and its value. -/
theorem isWhole_writeEntry {e : Entry} (hname : isCustom e.1 = true ∨ IsPlainName e.1)
    (he : ¬ MixesQuotes e) : IsWhole ',' none 0 (writeEntry quote e) := by
  rw [MixesQuotes, not_or] at he
  have hnil : IsWhole ',' none 0 [] := by decide
  have hvalue : IsWhole ',' none 0 ([':', ' '] ++ quoted quote e.2) := by
    have := isWhole_append_of (s := [':', ' ']) (by decide) (isWhole_quoted hq he.2 hnil)
    rwa [List.append_nil] at this
  rw [writeEntry, List.append_assoc]
  split
  next => exact isWhole_quoted hq he.1 hvalue
  next hcustom =>
    refine isWhole_append_of (List.all_eq_true.2 fun c hc => ?_) hvalue
    have hchars := all_isKeyChar_camel (hname.resolve_left hcustom).chars
    obtain ⟨-, -, hinert, -⟩ := isKeyChar_spec (List.all_eq_true.1 hchars c hc)
    exact hinert

end Written

/-! ## Counted parts -/

/-- What is read of parts counts what the parts count. -/
theorem map_eq_of_map_read? {α β : Type} {read? : α → Option β} {f : α → Nat} {g : β → Nat}
    (hread : ∀ a b, read? a = some b → f a = g b) {as : List α} {bs : List β}
    (h : as.map read? = bs.map some) : as.map f = bs.map g := by
  induction as generalizing bs with
  | nil =>
    rw [List.map_nil, eq_comm, List.map_eq_nil_iff] at h
    rw [h]
    rfl
  | cons a as ih =>
    cases bs with
    | nil => cases h
    | cons b bs =>
      obtain ⟨hb, hbs⟩ := List.cons.inj h
      rw [List.map_cons, List.map_cons, hread a b hb, ih hbs]

/-- A part ends at the first character that counts behind as many as are in it. -/
theorem eq_of_append_eq {p : Char → Bool} {c : Char} (hc : p c = true) {a b s t : Text}
    (hcount : a.countP p = b.countP p) (h : a ++ c :: s = b ++ c :: t) : a = b ∧ s = t := by
  induction a generalizing b with
  | nil =>
    cases b with
    | nil => exact ⟨rfl, (List.cons.inj h).2⟩
    | cons d b =>
      rw [← (List.cons.inj h).1, List.countP_cons_of_pos hc] at hcount
      cases hcount
  | cons d a ih =>
    cases b with
    | nil =>
      rw [(List.cons.inj h).1, List.countP_cons_of_pos hc] at hcount
      cases hcount
    | cons d' b =>
      obtain ⟨rfl, h'⟩ := List.cons.inj h
      rw [List.countP_cons, List.countP_cons] at hcount
      obtain ⟨rfl, hst⟩ := ih (Nat.add_right_cancel hcount) h'
      exact ⟨rfl, hst⟩

/-- Counted parts of a text are in their places, if separators count. -/
theorem eq_of_intercalate_eq {p : Char → Bool} {sep : Char} (hsep : p sep = true)
    {ps ws : List Text} (hcount : ps.map (·.countP p) = ws.map (·.countP p))
    (h : [sep].intercalate ps = [sep].intercalate ws) : ps = ws := by
  induction ps generalizing ws with
  | nil => exact (List.map_eq_nil_iff.1 hcount.symm).symm
  | cons a ps ih =>
    cases ws with
    | nil => cases hcount
    | cons b ws =>
      obtain ⟨hab, hrest⟩ := List.cons.inj hcount
      cases ps with
      | nil =>
        obtain rfl := List.map_eq_nil_iff.1 hrest.symm
        simpa using h
      | cons a' ps =>
        cases ws with
        | nil => cases hrest
        | cons b' ws =>
          simp only [List.intercalate_cons_cons, List.append_assoc, List.singleton_append] at h
          obtain ⟨rfl, h'⟩ := eq_of_append_eq hsep hab h
          rw [ih hrest h']

/-! ## Objects that are read as they were written -/

section Converted

variable {quote : Char} (hq : quote = '"' ∨ quote = '\'')
include hq

/-- The members of an object that gives the entries which were written are these entries, one by
one. -/
theorem splitTop_of_read {m : Attrs} (hne : m.entries ≠ [])
    (h : Attrs.ofList ((splitTop ',' ([','].intercalate (writtenMembers quote m.entries))).filterMap
      entryOf?) = m) :
    splitTop ',' ([','].intercalate (writtenMembers quote m.entries)) =
        writtenMembers quote m.entries ∧
      ∀ e ∈ m.entries, entryOf? (writeEntry quote e) = some e := by
  obtain ⟨e, es, hes⟩ := List.exists_cons_of_ne_nil hne
  have hws : writtenMembers quote m.entries ≠ [] := by
    rw [hes]
    cases es <;> exact List.cons_ne_nil _ _
  have hcount : (writtenMembers quote m.entries).map (·.countP isSymbol) =
      m.entries.map ((·.countP isSymbol) ∘ writeEntry quote) :=
    map_writtenMembers quote (fun ha hb s => by
      rw [← countP_trimmed, trimmed_spaces ha hb, countP_trimmed]) m.entries
  have hsame : (writtenMembers quote m.entries).map (·.countP isSymbol + 1) =
      m.entries.map ((·.countP isSymbol + 1) ∘ writeEntry quote) := by
    have := congrArg (List.map (· + 1)) hcount
    rwa [List.map_map, List.map_map] at this
  -- there is as much in the parts as in the members
  have hparts := countP_intercalate (p := isSymbol) (w := [',']) (by decide)
    (splitFrom_ne_nil ',' none 0 ([','].intercalate (writtenMembers quote m.entries)))
  rw [← splitTop, intercalate_splitTop, countP_intercalate (by decide) hws, hsame] at hparts
  have hmap := Attrs.map_read?_eq (f := (·.countP isSymbol + 1))
    (g := (·.countP isSymbol + 1) ∘ writeEntry quote)
    (fun p e he => congrArg (· + 1) (countP_of_entryOf? hq he)) (fun _ => Nat.succ_pos _)
    (fun _ => Nat.succ_pos _) h hparts.symm
  have heq := eq_of_intercalate_eq (p := isSymbol) (by decide)
    ((map_eq_of_map_read? (fun p e he => countP_of_entryOf? hq he) hmap).trans hcount.symm)
    (intercalate_splitTop ',' _)
  rw [heq, map_entryOf?_writtenMembers] at hmap
  exact ⟨heq, List.map_inj_left.1 hmap⟩

/-- An object is read as it was written exactly if its names have an object spelling and its members
are found again. -/
theorem readObject?_eq_iff_splitTop {m : Attrs} (hm : ∀ e ∈ m.entries, IsReadable e)
    (hne : m.entries ≠ []) :
    readObject? (writeObject quote m).tail.dropLast = some m ↔
      (∀ e ∈ m.entries, isCustom e.1 = true ∨ IsPlainName e.1) ∧
        splitTop ',' ([','].intercalate (writtenMembers quote m.entries)) =
          writtenMembers quote m.entries := by
  have hbraces := readObject?_braces (a := []) (b := []) rfl rfl
    ([','].intercalate (writtenMembers quote m.entries))
  rw [List.nil_append] at hbraces
  rw [writeObject_inner quote hne, hbraces]
  constructor
  · intro h
    obtain ⟨hsplit, hread⟩ := splitTop_of_read hq hne (addEntries_eq_some_iff.1 h).2
    exact ⟨fun e he => (entryOf?_writeEntry_iff hq (hm e he)).1 (hread e he), hsplit⟩
  · rintro ⟨hnames, hsplit⟩
    have hmap : (writtenMembers quote m.entries).map entryOf? = m.entries.map some := by
      rw [map_entryOf?_writtenMembers]
      exact List.map_congr_left fun e he => (entryOf?_writeEntry_iff hq (hm e he)).2 (hnames e he)
    rw [hsplit, addEntries_of_map_eq hmap]
    exact congrArg some (Attrs.ext (Attrs.entries_ofList m.nodup))

/-- **Declarations are read from the object that is written of them exactly if all names have an
object spelling and members that mix quotes close what they open, or go to the end.** -/
theorem readObject?_writeObject_iff (css : Text) :
    readObject? (writeObject quote (readDeclarations css)).tail.dropLast =
        some (readDeclarations css) ↔
      (∀ e ∈ (readDeclarations css).entries, isCustom e.1 = true ∨ IsPlainName e.1) ∧
      (∀ e ∈ (readDeclarations css).entries.dropLast, MixesQuotes e →
        IsWhole ',' none 0 (writeEntry quote e)) ∧
      ∀ e ∈ (readDeclarations css).entries, MixesQuotes e →
        IsUnsplit ',' none 0 (writeEntry quote e) := by
  have hreadable (e : Entry) (he : e ∈ (readDeclarations css).entries) : IsReadable e :=
    isReadable_of_mem_readDeclarations he
  generalize readDeclarations css = m at hreadable ⊢
  by_cases hne : m.entries = []
  · obtain rfl : m = .empty := Attrs.ext hne
    exact iff_of_true rfl ⟨nofun, nofun, nofun⟩
  rw [readObject?_eq_iff_splitTop hq hreadable hne, splitTop_members quote hne]
  -- what does not mix quotes closes what it opens
  refine and_congr_right fun hnames => ?_
  have hwhole {e : Entry} (he : e ∈ m.entries) (hmix : ¬ MixesQuotes e) :
      IsWhole ',' none 0 (writeEntry quote e) := isWhole_writeEntry hq (hnames e he) hmix
  refine and_congr ?_ ?_
  · refine ⟨fun h e he _ => h e he, fun h e he => ?_⟩
    by_cases hmix : MixesQuotes e
    · exact h e he hmix
    · exact hwhole (List.dropLast_subset _ he) hmix
  · refine ⟨fun h e he _ => h e he, fun h e he => ?_⟩
    by_cases hmix : MixesQuotes e
    · exact h e he hmix
    · exact (hwhole he hmix).isUnsplit

end Converted

/-- A value that mixes quotes, a custom property whose value opens a group, and a vendor name. -/
theorem readObject?_writeObject_iff_quotes :
    let css := "quotes: \"'\" \"'\"; --Gap: 'a, (b'; -webkit-transition: none".toList
    ('\'' = '"' ∨ '\'' = '\'') ∧
      readObject? (writeObject '\'' (readDeclarations css)).tail.dropLast =
        some (readDeclarations css) := by
  intro css
  have hwhole : ∀ e ∈ (readDeclarations css).entries, MixesQuotes e →
      IsWhole ',' none 0 (writeEntry '\'' e) := by decide
  exact ⟨.inr rfl, (readObject?_writeObject_iff (.inr rfl) css).2
    ⟨by decide, fun e he => hwhole e (List.dropLast_subset _ he),
      fun e he hmix => (hwhole e he hmix).isUnsplit⟩⟩

/-- The vendor name `ms` is written without the hyphen in front, and read without it. -/
theorem not_readObject?_writeObject :
    ¬ ∀ (css : Text) (quote : Char), quote = '"' ∨ quote = '\'' →
      readObject? (writeObject quote (readDeclarations css)).tail.dropLast =
        some (readDeclarations css) := by
  intro h
  have := h "-ms-transform: none".toList '"' (.inl rfl)
  exact absurd this (by decide)

end MarkupSync.Style
