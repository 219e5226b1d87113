import MarkupSync.Proofs.Patch.Tag

/-!
# Patching open tags with any spacing

The tags that are read may repeat names and may hold slashes, or nothing, between their attributes.

* `Patcher.Head.add`, `TagSource.head`: what a tag says, of two attributes of a name the first;
* **`TagSource.content_eq_head`**: this is what is read;
* `TagSource.patched`: the tag as it is patched;
* `TagSource.RepeatsStay`: no attribute has an effect because one in front of it was removed;
* **`TagSource.head_patched`**: then the patched tag says the new attributes and declarations;
* **`TagSource.IsApart.isLoose_patched`**: it can be read if its parts stand apart;
* **`TagSource.rewrites_patched`**: the splices of a tag make it the patched one.
-/

namespace MarkupSync

open Text

/-! ## What tags say -/

namespace Patcher.Head

/-- Nothing has been said. -/
def empty : Head := ⟨.empty, .empty⟩

/-- Whether an attribute of this name has no effect, since there is one of its name. -/
def repeats (h : Head) (name : Text) : Bool :=
  h.attributes.has name || (name == styleName && !h.style.isEmpty)

/-- What is said with one more attribute. -/
def add (h : Head) (a : AttrSource) : Head :=
  if h.repeats a.name then h
  else
    match a.meaning with
    | .value v => { h with attributes := h.attributes.insert a.name v }
    | .declarations st => { h with style := st }

/-- What is said with more attributes. -/
def addAll (h : Head) (as : List AttrSource) : Head := as.foldl add h

variable {h : Head} {a : AttrSource} {as bs : List AttrSource} {n v : Text}

@[simp] theorem addAll_nil : h.addAll [] = h := rfl

@[simp] theorem addAll_cons : h.addAll (a :: as) = (h.add a).addAll as := rfl

theorem addAll_append : h.addAll (as ++ bs) = (h.addAll as).addAll bs := List.foldl_append

theorem addAll_concat : h.addAll (as ++ [a]) = (h.addAll as).add a := addAll_append

theorem repeats_of_ne (hn : n ≠ styleName) : h.repeats n = h.attributes.has n := by
  rw [repeats, beq_eq_false_iff_ne.2 hn, Bool.false_and, Bool.or_false]

theorem add_of_repeats (ha : h.repeats a.name = true) : h.add a = h := if_pos ha

theorem add_value (ha : h.repeats a.name = false) (hm : a.meaning = .value v) :
    h.add a = { h with attributes := h.attributes.insert a.name v } := by
  rw [add, if_neg (Bool.eq_false_iff.1 ha), hm]

theorem add_declarations {st : Attrs} (ha : h.repeats a.name = false)
    (hm : a.meaning = .declarations st) : h.add a = { h with style := st } := by
  rw [add, if_neg (Bool.eq_false_iff.1 ha), hm]

/-- Blanks say nothing. -/
theorem add_withBlanks (b : Text) : h.add { a with blanks := b } = h.add a := by
  simp only [add, meaning_withBlanks]

/-- Of two attributes of a name the first counts. -/
theorem find?_add (hv : h.attributes.find? n = some v) : (h.add a).attributes.find? n = some v := by
  rw [add]
  split_ifs with ha
  · exact hv
  split
  · rw [Attrs.find?_insert, if_neg, hv]
    rintro rfl
    simp [repeats, Attrs.has, hv] at ha
  · exact hv

theorem find?_addAll (as : List AttrSource) (hv : h.attributes.find? n = some v) :
    (h.addAll as).attributes.find? n = some v := by
  induction as generalizing h with
  | nil => exact hv
  | cons a as ih => exact ih (find?_add hv)

theorem has_addAll (as : List AttrSource) (hn : h.attributes.has n = true) :
    (h.addAll as).attributes.has n = true := by
  obtain ⟨v, hv⟩ := Option.isSome_iff_exists.1 hn
  rw [Attrs.has, find?_addAll as hv, Option.isSome_some]

/-- Other attributes leave a name as it is. -/
theorem find?_add_of_ne (hn : n ≠ a.name) : (h.add a).attributes.find? n = h.attributes.find? n := by
  rw [add]
  split_ifs
  · rfl
  split
  · rw [Attrs.find?_insert, if_neg hn]
  · rfl

/-- Attributes that do not hold the style leave it as it is. -/
theorem style_add_of_ne (hn : a.name ≠ styleName) : (h.add a).style = h.style := by
  obtain ⟨v, hv⟩ := exists_meaning hn
  rw [add]
  split_ifs
  · rfl
  · rw [hv]

/-- Of two attributes with declarations the first counts. -/
theorem style_addAll (as : List AttrSource) (hst : h.style.isEmpty = false) :
    (h.addAll as).style = h.style := by
  induction as generalizing h with
  | nil => rfl
  | cons a as ih =>
    have hadd : (h.add a).style = h.style := by
      by_cases hn : a.name = styleName
      · rw [add_of_repeats (by simp [repeats, hn, hst])]
      · exact style_add_of_ne hn
    rw [addAll_cons, ih (hadd ▸ hst), hadd]

/-- Whether a name repeats another depends on the attributes with this name only. -/
theorem repeats_add (hn : n ≠ a.name) : (h.add a).repeats n = h.repeats n := by
  rw [repeats, repeats, Attrs.has, Attrs.has, find?_add_of_ne hn]
  by_cases hs : n = styleName
  · rw [style_add_of_ne (hs ▸ hn.symm)]
  · rw [beq_eq_false_iff_ne.2 hs, Bool.false_and, Bool.false_and]

theorem has_add (hn : a.name ≠ styleName) : (h.add a).attributes.has a.name = true := by
  obtain ⟨v, hv⟩ := exists_meaning hn
  cases ha : h.repeats a.name with
  | true => rwa [add_of_repeats ha, ← repeats_of_ne hn]
  | false => rw [add_value ha hv, Attrs.has, Attrs.find?_insert, if_pos rfl, Option.isSome_some]

/-- Attributes are named in the tag. -/
theorem has_empty_addAll (hn : n ≠ styleName) :
    (empty.addAll as).attributes.has n = true ↔ n ∈ as.map AttrSource.name := by
  induction as using List.reverseRecOn with
  | nil => simp [empty, Attrs.has]
  | append_singleton as a ih =>
    rw [addAll_concat, List.map_append, List.mem_append, ← ih, List.map_singleton, List.mem_singleton]
    by_cases ha : n = a.name
    · subst ha
      simp [has_add hn]
    · rw [Attrs.has, find?_add_of_ne ha, ← Attrs.has, or_iff_left ha]

/-- A tag says what is said about the style by attributes with its name. -/
theorem empty_addAll_of_not_mem (hn : styleName ∉ as.map AttrSource.name) :
    (empty.addAll as).repeats styleName = false := by
  induction as using List.reverseRecOn with
  | nil => rfl
  | append_singleton as a ih =>
    rw [List.map_append, List.mem_append, not_or, List.map_singleton, List.mem_singleton] at hn
    rw [addAll_concat, repeats_add hn.2, ih hn.1]

end Patcher.Head

open Patcher (Head)

/-- What a tag says. -/
def TagSource.head (g : TagSource) : Head := Head.empty.addAll g.attributes

namespace AttrSource

/-- Where an attribute stands that starts at byte `n`. -/
def placeAt (a : AttrSource) (n : Nat) : AttrPlace :=
  ⟨a.name, (a.raw n).span, (a.raw n).value.map RawValue.span⟩

/-- The places of the attributes that have an effect, behind attributes that say `h`. -/
def heardPlaces : Nat → Head → List AttrSource → List AttrPlace
  | _, _, [] => []
  | n, h, a :: as =>
    (if h.repeats a.name then [] else [a.placeAt n]) ++
      heardPlaces (n + width a.source) (h.add a) as

/-- What attributes add to a tag. -/
theorem foldl_add_raws (as : List AttrSource) (n : Nat) (t : TagContent) :
    (raws n as).foldl (TagContent.add .html) t =
      ⟨((Head.mk t.attributes t.style).addAll as).attributes,
        ((Head.mk t.attributes t.style).addAll as).style,
        t.places ++ heardPlaces n ⟨t.attributes, t.style⟩ as⟩ := by
  induction as generalizing n t with
  | nil => simp [raws, heardPlaces]
  | cons a as ih =>
    have hadd : TagContent.add .html t (a.raw n) =
        ⟨((Head.mk t.attributes t.style).add a).attributes,
          ((Head.mk t.attributes t.style).add a).style,
          t.places ++ if (Head.mk t.attributes t.style).repeats a.name then [] else [a.placeAt n]⟩ := by
      have hkey : Flavor.html.key (a.raw n).name = a.name := rfl
      rw [TagContent.add, hkey, a.meaning_eq n]
      cases ha : (Head.mk t.attributes t.style).repeats a.name with
      | true =>
        rw [Head.add_of_repeats ha, if_pos rfl, List.append_nil]
        exact if_pos ha
      | false =>
        refine (if_neg (Bool.eq_false_iff.1 ha)).trans ?_
        cases hm : a.meaning with
        | value v =>
          rw [Head.add_value ha hm]
          rfl
        | declarations st =>
          rw [Head.add_declarations ha hm]
          rfl
    rw [raws, List.foldl_cons, hadd, ih, heardPlaces, Head.addAll_cons, List.append_assoc]

/-- The names that have an effect are those that are new. -/
theorem mem_heardPlaces {key : Text} (n : Nat) (h : Head) (as : List AttrSource) :
    key ∈ (heardPlaces n h as).map AttrPlace.key ↔
      key ∈ as.map AttrSource.name ∧ h.repeats key = false := by
  induction as generalizing n h with
  | nil => simp [heardPlaces]
  | cons a as ih =>
    rw [heardPlaces, List.map_append, List.mem_append, ih, List.map_cons, List.mem_cons]
    by_cases hk : key = a.name
    · subst hk
      cases ha : h.repeats a.name with
      | true => simp [Head.add_of_repeats ha, ha]
      | false => simp [placeAt]
    · rw [Head.repeats_add hk]
      split_ifs <;> simp [placeAt, hk]

end AttrSource

/-- **A tag says what its attributes say**, the first of each name. -/
theorem TagSource.content_eq_head (g : TagSource) (n : Nat) (raw : Option (Text × Span)) :
    (g.openTag n raw).content .html = ⟨g.head.attributes, g.head.style,
      AttrSource.heardPlaces (n + 1 + width g.name) .empty g.attributes⟩ :=
  AttrSource.foldl_add_raws _ _ _

/-! ## Patched tags -/

namespace TagSource

/-- A tag with one more attribute in front of the others. -/
def withAttr (a : AttrSource) (g : TagSource) : TagSource := { g with attributes := a :: g.attributes }

/-- A tag with text in front of its attributes. -/
def withGap (gap : Text) (g : TagSource) : TagSource :=
  match g.attributes with
  | [] => { g with blanks := gap ++ g.blanks }
  | a :: as => { g with attributes := { a with blanks := gap ++ a.blanks } :: as }

variable {g : TagSource} {a : AttrSource} {gap : Text} {h : Head}

theorem body_withAttr : (g.withAttr a).body = a.source ++ g.body := List.append_assoc ..

theorem body_withGap : (g.withGap gap).body = gap ++ g.body := by
  rw [withGap]
  split
  next heq => simp [body, heq]
  next heq => simp [body, heq, AttrSource.source]

@[simp] theorem name_withGap : (g.withGap gap).name = g.name := by rw [withGap]; split <;> rfl

@[simp] theorem selfClosing_withGap : (g.withGap gap).selfClosing = g.selfClosing := by
  rw [withGap]; split <;> rfl

@[simp] theorem withGap_nil : g.withGap [] = g := by
  rw [withGap]
  split
  next => rfl
  next heq => simp only [List.nil_append, ← heq]

theorem addAll_withGap : h.addAll (g.withGap gap).attributes = h.addAll g.attributes := by
  rw [withGap]
  split
  next heq => rw [heq]
  next heq => rw [heq, Head.addAll_cons, Head.addAll_cons, Head.add_withBlanks]

end TagSource

namespace Patcher

/-- The tag `g` with attributes in front of its own as they are patched, behind attributes that say
`h`. Those without effect stay; where one is removed, the blanks in front of it go as well. -/
def patchedFront (printer : Printer) (old new : Head) (g : TagSource) :
    Head → List AttrSource → TagSource
  | _, [] => g
  | h, a :: as =>
    let rest := patchedFront printer old new g (h.add a) as
    if h.repeats a.name then rest.withAttr a
    else
      match patchedAttr printer old new a with
      | some b => rest.withAttr b
      | none => rest.withGap (trimEnd isBlank a.blanks)

/-- An attribute without effect has none after the edit: the one in front of it stays. -/
def Keeps (old new : Head) (name : Text) : Prop :=
  if name = styleName then old.hasStyleAttribute = false ∧ new.style.isEmpty = false
  else new.attributes.has name = true

/-- Behind attributes that say `h`, every attribute without effect has none after the edit. -/
def RepeatsStay (old new : Head) : Head → List AttrSource → Prop
  | _, [] => True
  | h, a :: as => (h.repeats a.name = true → Keeps old new a.name) ∧ RepeatsStay old new (h.add a) as

instance (old new : Head) (name : Text) : Decidable (Keeps old new name) :=
  inferInstanceAs (Decidable (if name = styleName then _ else _))

/-- Decides whether no attribute has an effect only after the edit. -/
def decidableRepeatsStay (old new : Head) :
    (h : Head) → (as : List AttrSource) → Decidable (RepeatsStay old new h as)
  | _, [] => inferInstanceAs (Decidable True)
  | h, a :: as =>
    haveI := decidableRepeatsStay old new (h.add a) as
    inferInstanceAs (Decidable ((h.repeats a.name = true → Keeps old new a.name) ∧
      RepeatsStay old new (h.add a) as))

end Patcher

/-- No attribute of a tag has an effect because one in front of it was removed. -/
def TagSource.RepeatsStay (g : TagSource) (new : Head) : Prop :=
  Patcher.RepeatsStay g.head new .empty g.attributes

instance (g : TagSource) (new : Head) : Decidable (g.RepeatsStay new) :=
  Patcher.decidableRepeatsStay ..

/-- A tag as it is patched. -/
def TagSource.patched (printer : Printer) (new : Head) (g : TagSource) : TagSource :=
  if g.head.attributes.same new.attributes && g.head.style.same new.style then g
  else
    Patcher.patchedFront printer g.head new
      { g with attributes := Patcher.addedAttrs printer g.head new g } .empty g.attributes

namespace Patcher

section Front

variable {printer : Printer} {old new h h' : Head} {g : TagSource} {a b : AttrSource}
  {as front : List AttrSource}

theorem patchedFront_repeats (ha : h.repeats a.name = true) :
    patchedFront printer old new g h (a :: as) =
      (patchedFront printer old new g h as).withAttr a := by
  rw [patchedFront, if_pos ha, Head.add_of_repeats ha]

theorem patchedFront_some (ha : h.repeats a.name = false)
    (hb : patchedAttr printer old new a = some b) : patchedFront printer old new g h (a :: as) =
      (patchedFront printer old new g (h.add a) as).withAttr b := by
  rw [patchedFront, if_neg (Bool.eq_false_iff.1 ha), hb]

theorem patchedFront_none (ha : h.repeats a.name = false)
    (hb : patchedAttr printer old new a = none) : patchedFront printer old new g h (a :: as) =
      (patchedFront printer old new g (h.add a) as).withGap (trimEnd isBlank a.blanks) := by
  rw [patchedFront, if_neg (Bool.eq_false_iff.1 ha), hb]

/-! ### What patched tags say -/

/-- Attributes as they are patched say `h'` where `front` stood: of the names there the new values,
and the new declarations in place of the old ones. -/
structure Follows (old new : Head) (front : List AttrSource) (h' : Head) : Prop where
  attributes : ∀ n ≠ styleName, h'.attributes.find? n =
    if n ∈ front.map AttrSource.name then new.attributes.find? n else none
  noStyle : h'.attributes.has styleName = false
  style : h'.style =
    if old.hasStyleAttribute then .empty
    else if new.style.same old.style then (Head.empty.addAll front).style
    else if styleName ∈ front.map AttrSource.name then new.style else .empty

theorem follows_nil : Follows old new [] .empty :=
  ⟨fun _ _ => rfl, rfl, by simp [Head.empty]⟩

/-- An attribute other than that of the style is patched. -/
theorem Follows.concat_of_ne (hf : Follows old new front h') (hn : a.name ≠ styleName)
    (hattributes : ∀ n ≠ styleName, h.attributes.find? n =
      if n = a.name then new.attributes.find? n else h'.attributes.find? n)
    (hnoStyle : h.attributes.has styleName = h'.attributes.has styleName)
    (hstyle : h.style = h'.style) : Follows old new (front ++ [a]) h where
  attributes := fun n hne => by
    rw [hattributes n hne, hf.attributes n hne, List.map_append, List.map_singleton]
    by_cases ha : n = a.name <;> simp [ha]
  noStyle := hnoStyle.trans hf.noStyle
  style := by
    rw [hstyle, hf.style, Head.addAll_concat, Head.style_add_of_ne hn, List.map_append]
    simp [hn.symm]

/-- The attribute of the style is patched. -/
theorem Follows.concat_styleName (hf : Follows old new front h') (hn : a.name = styleName)
    (hattributes : h.attributes = h'.attributes)
    (hstyle : h.style = if old.hasStyleAttribute then .empty
      else if new.style.same old.style then (Head.empty.addAll (front ++ [a])).style
      else new.style) : Follows old new (front ++ [a]) h where
  attributes := fun n hne => by
    rw [hattributes, hf.attributes n hne, List.map_append, List.map_singleton, hn]
    simp [hne]
  noStyle := hattributes ▸ hf.noStyle
  style := by simp [hstyle, hn]

/-- A name that has no effect stands in front. -/
theorem mem_of_repeats {n : Text} (h : (Head.empty.addAll front).repeats n = true) :
    n ∈ front.map AttrSource.name := by
  by_cases hn : n = styleName
  · subst hn
    by_contra hc
    rw [Head.empty_addAll_of_not_mem hc] at h
    cases h
  · rwa [Head.repeats_of_ne hn, Head.has_empty_addAll hn] at h

/-- An attribute without effect changes nothing. -/
theorem Follows.concat_repeats (hf : Follows old new front h')
    (ha : (Head.empty.addAll front).repeats a.name = true) : Follows old new (front ++ [a]) h' := by
  have hmem := mem_of_repeats ha
  by_cases hn : a.name = styleName
  · refine hf.concat_styleName hn rfl ?_
    rw [hn] at hmem
    rw [hf.style, Head.addAll_concat, Head.add_of_repeats ha, if_pos hmem]
  · refine hf.concat_of_ne hn (fun n hne => ?_) rfl rfl
    split_ifs with h
    · rw [hf.attributes n hne, if_pos (h ▸ hmem)]
    · rfl

/-- Without declarations there are none before the end either. -/
theorem has_styleName_of_front (hold : Head.empty.addAll (front ++ as) = old)
    (h : old.hasStyleAttribute = false) :
    (Head.empty.addAll front).attributes.has styleName = false := by
  rw [← Bool.not_eq_true]
  intro hc
  have := Head.has_addAll as hc
  rw [← Head.addAll_append, hold, ← Head.hasStyleAttribute, h] at this
  cases this

/-- An attribute that has no effect has none in the patched tag. -/
theorem Follows.repeats (hf : Follows old new front h')
    (hold : Head.empty.addAll (front ++ as) = old)
    (ha : (Head.empty.addAll front).repeats a.name = true) (hkeeps : Keeps old new a.name) :
    h'.repeats a.name = true := by
  rw [Keeps] at hkeeps
  split_ifs at hkeeps with hn
  · obtain ⟨hattribute, hne⟩ := hkeeps
    rw [hn] at ha ⊢
    have hmem := mem_of_repeats ha
    rw [Head.repeats, has_styleName_of_front hold hattribute, Bool.false_or] at ha
    rw [Head.repeats, hf.noStyle, Bool.false_or, hf.style, if_neg (by simp [hattribute]), if_pos hmem]
    split_ifs
    · exact ha
    · simp [hne]
  · rw [Head.repeats_of_ne hn] at ha ⊢
    rw [Attrs.has, hf.attributes _ hn, if_pos ((Head.has_empty_addAll hn).1 ha)]
    exact hkeeps

section Step

variable (hold : Head.empty.addAll (front ++ a :: as) = old)
  (ha : (Head.empty.addAll front).repeats a.name = false)
  (hnew : ∀ e ∈ new.attributes.entries, IsAttribute e)
include hold ha hnew

/-- What patched attributes say, where one with an effect is patched that does not hold the style. -/
theorem Follows.concat_patchedAttr_of_ne (hf : Follows old new front h') (hn : a.name ≠ styleName) :
    Follows old new (front ++ [a]) (h'.addAll (patchedAttr printer old new a).toList) := by
  obtain ⟨w, hm⟩ := exists_meaning hn
  have hvalue : old.attributes.find? a.name = some w := by
    rw [← hold, Head.addAll_append, Head.addAll_cons, Head.add_value ha hm]
    exact Head.find?_addAll as (by rw [Attrs.find?_insert, if_pos rfl])
  have hmem : a.name ∉ front.map AttrSource.name := by
    rw [← Head.has_empty_addAll hn, ← Head.repeats_of_ne hn, ha]
    exact Bool.false_ne_true
  have hnone : h'.attributes.find? a.name = none := by rw [hf.attributes _ hn, if_neg hmem]
  -- an attribute that says the new value
  have hadd {b : AttrSource} {v : Text} (hb : b.name = a.name) (hbm : b.meaning = .value v)
      (hv : new.attributes.find? a.name = some v) : Follows old new (front ++ [a]) (h'.add b) := by
    have hrepeats : h'.repeats b.name = false := by
      rw [hb, Head.repeats_of_ne hn, Attrs.has, hnone, Option.isSome_none]
    rw [Head.add_value hrepeats hbm, hb]
    refine hf.concat_of_ne hn (fun n _ => ?_) ?_ rfl
    · rw [Attrs.find?_insert]
      split_ifs with h
      · rw [h, hv]
      · rfl
    · rw [Attrs.has, Attrs.has, Attrs.find?_insert, if_neg (Ne.symm hn)]
  rw [patchedAttr, if_neg fun h => hn h.1]
  cases hv : new.attributes.find? a.name with
  | none =>
    refine hf.concat_of_ne hn (fun n _ => ?_) rfl rfl
    simp only [Option.toList_none, Head.addAll_nil]
    split_ifs with h
    · rw [h, hv, hnone]
    · rfl
  | some v =>
    simp only
    split_ifs with h
    · rw [hvalue] at h
      exact hadd rfl (hm.trans (congrArg _ (Option.some.inj h))) hv
    · refine hadd rfl ((meaning_withBlanks _ _).trans ?_) hv
      exact Printer.meaning_attrSource (hnew _ (Attrs.mem_of_find? hv)).isPrintable

/-- What patched attributes say, where that of the style is patched. -/
theorem Follows.concat_patchedAttr_styleName (hf : Follows old new front h')
    (hstyle : ∀ e ∈ new.style.entries, Style.IsDeclaration e) (hn : a.name = styleName) :
    Follows old new (front ++ [a]) (h'.addAll (patchedAttr printer old new a).toList) := by
  have hend := hf.style
  rw [patchedAttr]
  cases hattribute : old.hasStyleAttribute with
  | true =>
    rw [if_neg (by simp), hn, find?_styleName hnew]
    refine hf.concat_styleName hn rfl ?_
    rw [if_pos hattribute] at hend ⊢
    exact hend
  | false =>
    have hattribute' : ¬ old.hasStyleAttribute = true := Bool.eq_false_iff.1 hattribute
    obtain ⟨st, hm⟩ : ∃ st, a.meaning = .declarations st := by
      cases hm : a.meaning with
      | declarations st => exact ⟨st, rfl⟩
      | value v =>
        rw [Head.addAll_append, Head.addAll_cons, Head.add_value ha hm] at hold
        refine absurd ?_ hattribute'
        rw [← hold]
        exact Head.has_addAll as (by rw [Attrs.has, Attrs.find?_insert, if_pos hn.symm]; rfl)
    rw [if_neg hattribute'] at hend
    rw [if_pos ⟨hn, rfl⟩]
    split_ifs with hsame hempty
    · rw [if_pos hsame] at hend
      have hrepeats : h'.repeats a.name = false := by
        rw [hn] at ha ⊢
        rw [Head.repeats, hf.noStyle, hend, Bool.false_or]
        exact (Bool.or_eq_false_iff.1 ha).2
      rw [Option.toList_some, Head.addAll_cons, Head.add_declarations hrepeats hm]
      refine hf.concat_styleName hn rfl ?_
      rw [if_neg hattribute', if_pos hsame, Head.addAll_concat, Head.add_declarations ha hm]
      rfl
    · refine hf.concat_styleName hn rfl ?_
      have hnone := Attrs.eq_empty_of_isEmpty hempty
      rw [if_neg hsame, hnone, ite_self] at hend
      rw [if_neg hattribute', if_neg hsame, hnone]
      exact hend
    · rw [if_neg hsame] at hend
      have hmeaning := (meaning_withBlanks (printer.styleSource new.style) a.blanks).trans
        (Printer.meaning_styleSource (Style.readDeclarations_writeDeclarations hstyle))
      -- an attribute in front of it that declares nothing has been written anew as well
      cases hrepeats : h'.repeats styleName with
      | true =>
        rw [Option.toList_some, Head.addAll_cons, Head.add_of_repeats hrepeats]
        refine hf.concat_styleName hn rfl ?_
        rw [if_neg hattribute', if_neg hsame]
        rw [Head.repeats, hf.noStyle, hend] at hrepeats
        split_ifs at hend hrepeats
        · exact hend
        · cases hrepeats
      | false =>
        rw [Option.toList_some, Head.addAll_cons, Head.add_declarations hrepeats hmeaning]
        refine hf.concat_styleName hn rfl ?_
        rw [if_neg hattribute', if_neg hsame]
        rfl

end Step

/-- What attributes say as they are patched, where those in front of them say `h'`. -/
theorem Follows.exists_append (hf : Follows old new front h')
    (hold : Head.empty.addAll (front ++ as) = old)
    (hstay : RepeatsStay old new (Head.empty.addAll front) as)
    (hnew : ∀ e ∈ new.attributes.entries, IsAttribute e)
    (hstyle : ∀ e ∈ new.style.entries, Style.IsDeclaration e) :
    ∃ h, Follows old new (front ++ as) h ∧ ∀ g, h'.addAll
      (patchedFront printer old new g (Head.empty.addAll front) as).attributes =
        h.addAll g.attributes := by
  induction as generalizing front h' with
  | nil =>
    rw [List.append_nil]
    exact ⟨h', hf, fun _ => rfl⟩
  | cons a as ih =>
    have happend : front ++ a :: as = front ++ [a] ++ as := List.append_cons ..
    have hold' := happend ▸ hold
    obtain ⟨hkeeps, hstay⟩ := hstay
    rw [← Head.addAll_concat] at hstay
    cases ha : (Head.empty.addAll front).repeats a.name with
    | true =>
      have hrepeats := hf.repeats hold ha (hkeeps ha)
      obtain ⟨h, hfollows, hadd⟩ := ih (hf.concat_repeats ha) hold' hstay
      refine ⟨h, happend ▸ hfollows, fun g => ?_⟩
      rw [patchedFront_repeats ha, ← hadd, Head.addAll_concat, Head.add_of_repeats ha]
      exact (Head.addAll_cons ..).trans (by rw [Head.add_of_repeats hrepeats])
    | false =>
      have hone : Follows old new (front ++ [a])
          (h'.addAll (patchedAttr printer old new a).toList) := by
        by_cases hn : a.name = styleName
        · exact hf.concat_patchedAttr_styleName hold ha hnew hstyle hn
        · exact hf.concat_patchedAttr_of_ne hold ha hnew hn
      obtain ⟨h, hfollows, hadd⟩ := ih hone hold' hstay
      refine ⟨h, happend ▸ hfollows, fun g => ?_⟩
      rw [← hadd, Head.addAll_concat]
      cases hb : patchedAttr printer old new a with
      | none => rw [patchedFront_none ha hb, TagSource.addAll_withGap, Option.toList_none,
          Head.addAll_nil]
      | some b =>
        rw [patchedFront_some ha hb]
        rfl

/-! ### Added attributes -/

/-- What printed attributes with new names add. -/
theorem Head.addAll_attrSource (printer : Printer) {es : List Entry} (hes : ∀ e ∈ es, IsAttribute e)
    (hnodup : (names es).Nodup) (hfree : ∀ e ∈ es, h.attributes.has e.1 = false) :
    h.addAll (es.map printer.attrSource) =
      { h with attributes := es.foldl (fun m e => m.insert e.1 e.2) h.attributes } := by
  induction es generalizing h with
  | nil => rfl
  | cons e es ih =>
    obtain ⟨he, hes⟩ := List.forall_mem_cons.1 hes
    obtain ⟨hname, hnodup⟩ := List.nodup_cons.1 hnodup
    obtain ⟨hfe, hfree⟩ := List.forall_mem_cons.1 hfree
    have hadd : h.add (printer.attrSource e) = { h with attributes := h.attributes.insert e.1 e.2 } :=
      Head.add_value ((Head.repeats_of_ne he.name_ne_style).trans hfe)
        (Printer.meaning_attrSource he.isPrintable)
    rw [List.map_cons, Head.addAll_cons, hadd, ih hes hnodup fun f hf => ?_]
    · rfl
    · have hne : f.1 ≠ e.1 := ne_of_mem_of_not_mem (List.mem_map_of_mem hf) hname
      rw [Attrs.has, Attrs.find?_insert, if_neg hne]
      exact hfree f hf

/-- With the attributes that are added, a tag has the new ones. -/
theorem Follows.exists_addAll_attributes (printer : Printer)
    (hf : Follows g.head new g.attributes h) (hnew : ∀ e ∈ new.attributes.entries, IsAttribute e) :
    let added := new.attributes.entries.filter fun e =>
      !g.head.attributes.has e.1 && !(g.attributes.map AttrSource.name).contains e.1
    ∃ m, h.addAll (added.map printer.attrSource) = { h with attributes := m } ∧
      m.Same new.attributes := by
  intro added
  have hnodup : (names added).Nodup := new.attributes.nodup.sublist (names_filter_sublist _ _)
  have hfree : ∀ e ∈ added, h.attributes.has e.1 = false := by
    intro e he
    obtain ⟨he, hadded⟩ := List.mem_filter.1 he
    have hmem : e.1 ∉ g.attributes.map AttrSource.name := by
      simpa using (Bool.and_eq_true_iff.1 hadded).2
    rw [Attrs.has, hf.attributes _ (hnew e he).name_ne_style, if_neg hmem, Option.isSome_none]
  refine ⟨_, Head.addAll_attrSource printer (fun e he => hnew e (List.mem_of_mem_filter he)) hnodup
    hfree, fun n => ?_⟩
  rw [Attrs.find?_insertAll _ hnodup, lookup_filter new.attributes.nodup]
  show ((new.attributes.find? n).filter _).or _ = _
  by_cases hn : n = styleName
  · rw [hn, find?_styleName hnew]
    exact Option.not_isSome_iff_eq_none.1 (Bool.eq_false_iff.1 hf.noStyle)
  · have hhas : g.head.attributes.has n = (g.attributes.map AttrSource.name).contains n := by
      rw [Bool.eq_iff_iff, List.contains_iff_mem]
      exact Head.has_empty_addAll hn
    simp only [hhas, Bool.and_self]
    rw [hf.attributes n hn]
    cases hmem : (g.attributes.map AttrSource.name).contains n with
    | true =>
      rw [if_pos (List.contains_iff_mem.1 hmem)]
      cases new.attributes.find? n <;> rfl
    | false =>
      rw [if_neg fun h => Bool.eq_false_iff.1 hmem (List.contains_iff_mem.2 h)]
      cases new.attributes.find? n <;> rfl

/-- With the attribute of the style that is added, if there is one, a tag has the new declarations. -/
theorem Follows.exists_addAll_style (printer : Printer) (hf : Follows g.head new g.attributes h)
    (hstyle : ∀ e ∈ new.style.entries, Style.IsDeclaration e) {m : Attrs}
    (hm : m.has styleName = false) :
    let isWritten := (g.attributes.map AttrSource.name).contains styleName &&
      !g.head.hasStyleAttribute
    ∃ st, Head.addAll ⟨m, h.style⟩ (if new.style.isEmpty || isWritten then []
      else [printer.styleSource new.style]) = ⟨m, st⟩ ∧ st.Same new.style := by
  intro isWritten
  split
  next hwritten =>
    refine ⟨h.style, rfl, ?_⟩
    rw [hf.style]
    split_ifs with hattribute hsame hmem
    · rw [Attrs.eq_empty_of_isEmpty (m := new.style) (by simpa [isWritten, hattribute] using hwritten)]
    · exact (Attrs.same_iff.1 hsame).symm
    · rfl
    · rw [Attrs.eq_empty_of_isEmpty (m := new.style)
        (by simpa [isWritten, List.contains_iff_mem, hmem] using hwritten)]
  next hwritten =>
    obtain ⟨-, hwritten⟩ := Bool.or_eq_false_iff.1 (Bool.eq_false_iff.2 hwritten)
    have hmem (hattribute : ¬ g.head.hasStyleAttribute = true) :
        styleName ∉ g.attributes.map AttrSource.name := by
      simpa [isWritten, hattribute] using hwritten
    have hempty : h.style.isEmpty = true := by
      rw [hf.style]
      split_ifs with hattribute hsame hstyleName
      · rfl
      · have := (Bool.or_eq_false_iff.1 (Head.empty_addAll_of_not_mem (hmem hattribute))).2
        simpa using this
      · exact absurd hstyleName (hmem hattribute)
      · rfl
    have hrepeats : Head.repeats ⟨m, h.style⟩ styleName = false := by
      rw [Head.repeats, hm, hempty]
      rfl
    refine ⟨new.style, ?_, .refl _⟩
    rw [Head.addAll_cons, Head.add_declarations hrepeats
      (Printer.meaning_styleSource (Style.readDeclarations_writeDeclarations hstyle))]
    rfl

/-- The attributes that are added say the rest of the new attributes. -/
theorem Follows.same_addAll (hf : Follows g.head new g.attributes h)
    (hnew : ∀ e ∈ new.attributes.entries, IsAttribute e)
    (hstyle : ∀ e ∈ new.style.entries, Style.IsDeclaration e) :
    (h.addAll (addedAttrs printer g.head new g)).attributes.Same new.attributes ∧
      (h.addAll (addedAttrs printer g.head new g)).style.Same new.style := by
  obtain ⟨m, hadd, hsame⟩ := hf.exists_addAll_attributes printer hnew
  have hm : m.has styleName = false := by
    rw [Attrs.has, hsame, find?_styleName hnew, Option.isSome_none]
  obtain ⟨st, hstyle, hsame'⟩ := hf.exists_addAll_style printer hstyle hm
  rw [addedAttrs, Head.addAll_append, hadd, hstyle]
  exact ⟨hsame, hsame'⟩

end Front

section Rewrite

variable {printer : Printer} {p : Patcher} {old new h : Head} {g : TagSource} {as : List AttrSource}

/-! ### Reading patched tags -/

/-- What stays in front of an attribute that is removed is filler. -/
theorem isFiller_trimEnd {s : Text} (hs : IsFiller s) : IsFiller (trimEnd isBlank s) := by
  obtain ⟨b, hb, -⟩ := exists_trimEnd s
  exact fun c hc => hs c (hb ▸ List.mem_append_left b hc)

theorem isLoose_patchedAttr (hprinter : printer.WritesHtml)
    (hnew : ∀ e ∈ new.attributes.entries, IsAttribute e) {a b : AttrSource} (ha : a.IsLoose)
    (h : patchedAttr printer old new a = some b) : b.IsLoose := by
  have withBlanks {c : AttrSource} (hc : c.IsValid) : { c with blanks := a.blanks }.IsLoose :=
    ⟨ha.blanks, hc.isLoose.name, hc.isLoose.value⟩
  rw [patchedAttr] at h
  split_ifs at h with h1
  · cases h
    exact ha
  · cases h
    exact withBlanks (Printer.isValid_styleSource hprinter _)
  · split at h
    next => cases h
    next value hvalue =>
      split_ifs at h <;> cases h
      · exact ha
      · exact withBlanks (Printer.isValid_attrSource hprinter (hnew _ (Attrs.mem_of_find? hvalue)).isPrintable)

/-- The parts of patched attributes can be read, and they are the attributes of the same tag. -/
theorem patchedFront_spec (old : Head) (hprinter : printer.WritesHtml)
    (hnew : ∀ e ∈ new.attributes.entries, IsAttribute e) (has : ∀ a ∈ as, a.IsLoose)
    (hg : ∀ a ∈ g.attributes, a.IsLoose) (hb : IsFiller (g.blanks.erase '=')) (h : Head) :
    let g' := patchedFront printer old new g h as
    g'.name = g.name ∧ g'.selfClosing = g.selfClosing ∧ (∀ a ∈ g'.attributes, a.IsLoose) ∧
      IsFiller (g'.blanks.erase '=') := by
  induction as generalizing h with
  | nil => exact ⟨rfl, rfl, hg, hb⟩
  | cons a as ih =>
    obtain ⟨ha, has⟩ := List.forall_mem_cons.1 has
    obtain ⟨hname, hself, hattributes, hblanks⟩ := ih has (h.add a)
    cases hrepeats : h.repeats a.name with
    | true =>
      rw [Head.add_of_repeats hrepeats] at hname hself hattributes hblanks
      rw [patchedFront_repeats hrepeats]
      exact ⟨hname, hself, List.forall_mem_cons.2 ⟨ha, hattributes⟩, hblanks⟩
    | false =>
      cases hpatched : patchedAttr printer old new a with
      | some b =>
        rw [patchedFront_some hrepeats hpatched]
        exact ⟨hname, hself, List.forall_mem_cons.2 ⟨isLoose_patchedAttr hprinter hnew ha hpatched,
          hattributes⟩, hblanks⟩
      | none =>
        have hgap := isFiller_trimEnd ha.blanks
        rw [patchedFront_none hrepeats hpatched]
        refine ⟨TagSource.name_withGap.trans hname, TagSource.selfClosing_withGap.trans hself, ?_⟩
        rw [TagSource.withGap]
        split
        next heq =>
          refine ⟨by rw [heq]; exact List.forall_mem_nil _, ?_⟩
          rw [List.erase_append_right _ hgap.not_mem]
          exact hgap.append hblanks
        next b bs heq =>
          rw [heq] at hattributes
          obtain ⟨hb, hbs⟩ := List.forall_mem_cons.1 hattributes
          exact ⟨List.forall_mem_cons.2 ⟨⟨hgap.append hb.blanks, hb.name, hb.value⟩, hbs⟩, hblanks⟩

theorem isLoose_addedAttrs (hprinter : printer.WritesHtml)
    (hnew : ∀ e ∈ new.attributes.entries, IsAttribute e) :
    ∀ a ∈ addedAttrs printer old new g, a.IsLoose := by
  intro a ha
  obtain ⟨e, he, -, -, rfl⟩ | ⟨-, -, rfl⟩ := mem_addedAttrs.1 ha
  · exact (Printer.isValid_attrSource hprinter (hnew e he).isPrintable).isLoose
  · exact (Printer.isValid_styleSource hprinter _).isLoose

/-! ### Splices -/

/-- The splices of attributes make them the patched ones. -/
theorem exists_rewrites_front (old h : Head) (hp : p.flavor = .html)
    (hnew : ∀ e ∈ new.attributes.entries, IsAttribute e) (has : ∀ a ∈ as, a.IsLoose) {front back : Text}
    (hfront : EndsInk front) (hs : p.source = front ++ as.flatMap AttrSource.source ++ back) :
    ∃ t, Rewrites (width front) (as.flatMap AttrSource.source)
        ((AttrSource.heardPlaces (width front) h as).flatMap (p.attributeSplice old new)) t ∧
      ∀ g, (patchedFront (p.options.printer p.flavor) old new g h as).body = t ++ g.body := by
  induction as generalizing front h with
  | nil => exact ⟨[], .nil, fun _ => rfl⟩
  | cons a as ih =>
    obtain ⟨ha, has⟩ := List.forall_mem_cons.1 has
    rw [List.flatMap_cons] at hs
    have hs1 : p.source = front ++ a.source ++ (as.flatMap AttrSource.source ++ back) := by
      simpa using hs
    have hs2 : p.source = front ++ a.source ++ as.flatMap AttrSource.source ++ back := by
      simpa using hs
    obtain ⟨hne, hink⟩ := endsInk_source ha
    obtain ⟨t, ht, hbody⟩ := ih (h.add a) has (endsInk_append hne hink) hs2
    rw [width_append] at ht
    rw [List.flatMap_cons, AttrSource.heardPlaces, List.flatMap_append]
    cases hrepeats : h.repeats a.name with
    | true =>
      refine ⟨_, (Rewrites.refl _ a.source).append ht, fun g => ?_⟩
      rw [Head.add_of_repeats hrepeats] at hbody
      rw [patchedFront_repeats hrepeats, TagSource.body_withAttr, hbody, List.append_assoc]
    | false =>
      have hone := rewrites_attributeSplice old hp hnew hfront hs1
        ((a.raw (width front)).value.map RawValue.span)
      have hplace : (if false = true then [] else [a.placeAt (width front)]).flatMap
          (p.attributeSplice old new) = p.attributeSplice old new (a.placeAt (width front)) := by simp
      rw [hplace]
      refine ⟨_, hone.append ht, fun g => ?_⟩
      cases hpatched : patchedAttr (p.options.printer p.flavor) old new a with
      | some b => rw [patchedFront_some hrepeats hpatched, TagSource.body_withAttr, hbody,
          List.append_assoc]
      | none => rw [patchedFront_none hrepeats hpatched, TagSource.body_withGap, hbody,
          List.append_assoc]

end Rewrite

end Patcher

namespace TagSource

variable {printer : Printer} {new : Head} {g : TagSource}

/-- **A patched tag says the new attributes and declarations**, if no attribute has an effect because
one in front of it was removed. -/
theorem head_patched (hstay : g.RepeatsStay new)
    (hnew : ∀ e ∈ new.attributes.entries, IsAttribute e)
    (hstyle : ∀ e ∈ new.style.entries, Style.IsDeclaration e) :
    (g.patched printer new).head.attributes.Same new.attributes ∧
      (g.patched printer new).head.style.Same new.style := by
  rw [patched]
  split_ifs with hsame
  · rw [Bool.and_eq_true, Attrs.same_iff, Attrs.same_iff] at hsame
    exact hsame
  · have hold : Head.empty.addAll ([] ++ g.attributes) = g.head := rfl
    obtain ⟨h, hf, hadd⟩ := Patcher.follows_nil.exists_append hold hstay hnew hstyle
    have hpatched := hadd { g with attributes := Patcher.addedAttrs printer g.head new g }
    rw [head, ← Head.addAll_nil (h := Head.empty)]
    exact hpatched ▸ hf.same_addAll hnew hstyle

theorem patched_spec (new : Head) (hprinter : printer.WritesHtml) (hg : g.IsLoose)
    (hnew : ∀ e ∈ new.attributes.entries, IsAttribute e) :
    (g.patched printer new).name = g.name ∧ (g.patched printer new).selfClosing = g.selfClosing ∧
      (∀ a ∈ (g.patched printer new).attributes, a.IsLoose) ∧
      IsFiller ((g.patched printer new).blanks.erase '=') := by
  rw [patched]
  split_ifs
  · exact ⟨rfl, rfl, hg.attributes, hg.blanks⟩
  · exact Patcher.patchedFront_spec
      (g := { g with attributes := Patcher.addedAttrs printer g.head new g }) g.head hprinter hnew
      hg.attributes (Patcher.isLoose_addedAttrs hprinter hnew) hg.blanks .empty

/-- **A patched tag can be read** if its parts stand apart. -/
theorem IsApart.isLoose_patched (h : (g.patched printer new).IsApart) (hprinter : printer.WritesHtml)
    (hg : g.IsLoose) (hnew : ∀ e ∈ new.attributes.entries, IsAttribute e) :
    (g.patched printer new).IsLoose := by
  obtain ⟨hname, -, hattributes, hblanks⟩ := patched_spec new hprinter hg hnew
  exact ⟨hname ▸ hg.name, hattributes, hblanks, h⟩

theorem isSome_attribute?_heardPlaces {place : ElementPlace} {n : Nat}
    (h : place.attributes = AttrSource.heardPlaces n .empty g.attributes) (key : Text) :
    (place.attribute? key).isSome = (g.attributes.map AttrSource.name).contains key := by
  have hempty : Head.empty.repeats key = false := Bool.or_eq_false_iff.2 ⟨rfl, Bool.and_false _⟩
  rw [ElementPlace.attribute?, h, Bool.eq_iff_iff, List.find?_isSome, List.contains_iff_mem,
    ← and_iff_left (a := key ∈ g.attributes.map AttrSource.name) hempty,
    ← AttrSource.mem_heardPlaces n .empty g.attributes]
  simp

/-- **The splices of a tag make it the patched one.** -/
theorem rewrites_patched (new : Head) {p : Patcher} (hp : p.flavor = .html) (hg : g.IsLoose)
    (hnew : ∀ e ∈ new.attributes.entries, IsAttribute e) {front back : Text}
    (hs : p.source = front ++ g.source ++ back) {place : ElementPlace}
    (hplaces : place.attributes =
      AttrSource.heardPlaces (width front + 1 + width g.name) .empty g.attributes)
    (hend : place.attrsEnd =
      width front + 1 + width g.name + width (g.attributes.flatMap AttrSource.source)) :
    Rewrites (width front) g.source (p.tagSplices g.head new place)
      (g.patched (p.options.printer p.flavor) new).source := by
  rw [Patcher.tagSplices, patched]
  split_ifs with hsame
  · exact .refl _ _
  have hopen : width (front ++ '<' :: g.name) = width front + 1 + width g.name := by
    have hsize : '<'.utf8Size = 1 := rfl
    simp [hsize]
    omega
  have hs1 : p.source = front ++ '<' :: g.name ++ g.attributes.flatMap AttrSource.source ++
      (g.blanks ++ tagClose g.selfClosing ++ back) := by
    rw [hs, source, body]
    simp
  obtain ⟨t, ht, hbody⟩ := Patcher.exists_rewrites_front g.head .empty hp hnew hg.attributes
    (Patcher.endsInk_name hg.name front) hs1
  rw [hopen] at ht
  have := Patcher.rewrites_tag ht (p.addedAttributes g.head new place)
    (g.blanks ++ tagClose g.selfClosing)
  rw [hplaces, hend]
  refine (congrArg (Rewrites (width front) _ _) ?_).mp this
  have hprinter := hp ▸ p.options.writesHtml_printer
  obtain ⟨hname, -⟩ := Patcher.patchedFront_spec
    (g := { g with attributes := Patcher.addedAttrs (p.options.printer p.flavor) g.head new g })
    g.head hprinter hnew hg.attributes (Patcher.isLoose_addedAttrs hprinter hnew) hg.blanks .empty
  rw [source, hname, hbody, body,
    Patcher.addedAttributes_eq hp hnew (isSome_attribute?_heardPlaces hplaces)]

/-! ### Tags with blanks in front of attributes of different names -/

/-- No name is repeated. -/
theorem IsValid.not_repeats (hg : g.IsValid) {front back : List AttrSource} {a : AttrSource}
    (h : g.attributes = front ++ a :: back) : (Head.empty.addAll front).repeats a.name = false := by
  rw [← Bool.not_eq_true]
  intro hrepeats
  have hnodup := hg.nodup
  rw [h, List.map_append, List.nodup_append] at hnodup
  exact hnodup.2.2 _ (Patcher.mem_of_repeats hrepeats) _ List.mem_cons_self rfl

theorem IsValid.repeatsStay (hg : g.IsValid) (new : Head) : g.RepeatsStay new := by
  have (front as : List AttrSource) (h : g.attributes = front ++ as) :
      Patcher.RepeatsStay g.head new (Head.empty.addAll front) as := by
    induction as generalizing front with
    | nil => trivial
    | cons a as ih =>
      refine ⟨fun hrepeats => absurd hrepeats (Bool.eq_false_iff.1 (hg.not_repeats h)), ?_⟩
      rw [← Head.addAll_concat]
      exact ih _ (h.trans (List.append_cons ..))
  exact this [] _ rfl

theorem IsValid.head_eq (hg : g.IsValid) : g.head = ⟨g.attrs, g.style⟩ := by
  have h := (g.content_eq_head 0 none).symm.trans (content_openTag hg 0 none)
  injection h with hattributes hstyle
  rw [← hattributes, ← hstyle]

/-- Without repeated names attributes are patched one by one. -/
theorem IsValid.patchedFront_eq (hg : g.IsValid) {front as : List AttrSource}
    (h : g.attributes = front ++ as) (old : Head) (g' : TagSource) :
    Patcher.patchedFront printer old new g' (Head.empty.addAll front) as =
      { g' with attributes := as.filterMap (Patcher.patchedAttr printer old new) ++ g'.attributes } := by
  induction as generalizing front with
  | nil => rfl
  | cons a as ih =>
    have hrest := ih (h.trans (List.append_cons ..))
    rw [Head.addAll_concat] at hrest
    have hrepeats := hg.not_repeats h
    cases hpatched : Patcher.patchedAttr printer old new a with
    | some b =>
      rw [Patcher.patchedFront_some hrepeats hpatched, hrest, List.filterMap_cons, hpatched]
      rfl
    | none =>
      have hblanks := (hg.attributes a (h ▸ List.mem_append_right _ List.mem_cons_self)).blanks
      rw [Patcher.patchedFront_none hrepeats hpatched, hrest, List.filterMap_cons, hpatched,
        trimEnd_eq_nil_iff.2 hblanks, withGap_nil]

/-- The parts of a patched tag stand apart if those of the tag have blanks between them and no name
is repeated. -/
theorem IsValid.isApart_patched (hg : g.IsValid) (hprinter : printer.WritesHtml)
    (hnew : ∀ e ∈ new.attributes.entries, IsAttribute e) : (g.patched printer new).IsApart := by
  rw [patched]
  split_ifs
  · exact hg.isLoose.apart
  · have hpatched : Patcher.patchedFront printer g.head new
        { g with attributes := Patcher.addedAttrs printer g.head new g } .empty g.attributes =
        Patcher.patchedTag printer new g := by
      have hall : g.attributes = [] ++ g.attributes := rfl
      rw [hg.head_eq]
      exact hg.patchedFront_eq hall _ _
    rw [hpatched]
    exact (Patcher.isValid_patchedTag hprinter hg hnew).isLoose.apart

end TagSource

end MarkupSync
