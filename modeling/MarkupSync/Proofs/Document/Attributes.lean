import Mathlib.Data.List.Nodup
import MarkupSync.Document.Read
import MarkupSync.Proofs.Diff.Delta
import MarkupSync.Proofs.Lexeme.Tag

/-!
# What tags say

* `TagSource.attrs`, `TagSource.style`: the attributes and the declarations that a tag gives its
  element;
* `AttrSource.places`: where the attributes stand;
* **`TagSource.content_openTag`**: a tag says what its attributes say;
* `TagSource.place`: where an element stands (`TagSource.element_openTag`).
-/

namespace MarkupSync

namespace AttrSource

/-- What an attribute says. -/
def meaning (a : AttrSource) : AttrMeaning := .of a.name (a.raw 0).value

theorem meaning_eq (a : AttrSource) (n : Nat) : AttrMeaning.of a.name (a.raw n).value = a.meaning := by
  rw [meaning, raw, raw]
  cases a.value <;> rfl

/-- The attribute that an element gets. -/
def namedValue? (a : AttrSource) : Option Entry :=
  match a.meaning with
  | .value value => some (a.name, value)
  | .declarations _ => none

/-- The declarations that an element gets. -/
def style? (a : AttrSource) : Option Attrs :=
  match a.meaning with
  | .value _ => none
  | .declarations style => some style

/-- The places of attributes that start at byte `n`. -/
def places (n : Nat) (as : List AttrSource) : List AttrPlace :=
  (raws n as).map fun a => ⟨a.name, a.span, a.value.map RawValue.span⟩

/-- The bytes of an attribute, without the blanks in front. -/
theorem span_raw (a : AttrSource) (n : Nat) :
    (a.raw n).span = ⟨n + width a.blanks, n + width a.source⟩ := by
  have hsize : '='.utf8Size = 1 := rfl
  cases hv : a.value with
  | none => simp [AttrSource.raw, RawAttribute.span, AttrSource.source, hv, Nat.add_assoc]
  | some v =>
    simp [AttrSource.raw, RawAttribute.span, AttrSource.source, hv, ValueSource.source, hsize]
    omega

/-- The last attribute ends where the attributes end. -/
theorem getLast?_raws (n : Nat) (as : List AttrSource) :
    (match (raws n as).getLast? with
      | none => n
      | some a => a.span.stop) = n + width (as.flatMap source) := by
  induction as generalizing n with
  | nil => rfl
  | cons a as ih =>
    rw [raws, List.flatMap_cons, width_append, ← Nat.add_assoc, ← ih]
    cases as with
    | nil => simp [raws, span_raw]
    | cons b as =>
      rw [raws, List.getLast?_cons_cons]
      cases h : (b.raw (n + width a.source) :: raws _ as).getLast? with
      | none => simp at h
      | some => rfl

/-- Only the attribute that holds the style has declarations. -/
theorem name_of_style? {a : AttrSource} {style : Attrs} (h : a.style? = some style) :
    a.name = styleName := by
  by_contra hn
  rw [style?, meaning] at h
  cases hv : (a.raw 0).value with
  | none => simp [hv, AttrMeaning.of] at h
  | some v =>
    rw [hv, AttrMeaning.of] at h
    simp only [hn, if_false] at h
    split_ifs at h

/-- What attributes with different names add to a tag. -/
theorem foldl_add (as : List AttrSource) (n : Nat) (t : TagContent)
    (hnodup : (as.map name).Nodup) (hnew : ∀ a ∈ as, t.attributes.has a.name = false)
    (hstyle : ∀ a ∈ as, a.name = styleName → t.style.isEmpty = true) :
    (raws n as).foldl (TagContent.add .html) t =
      ⟨(as.filterMap namedValue?).foldl (fun m e => m.insert e.1 e.2) t.attributes,
        (as.findSome? style?).getD t.style, t.places ++ places n as⟩ := by
  induction as generalizing n t with
  | nil => simp [raws, places]
  | cons a as ih =>
    obtain ⟨hname, hnodup⟩ := List.nodup_cons.1 hnodup
    have hadd : TagContent.add .html t (a.raw n) =
        match a.meaning with
        | .value v => { t with
            attributes := t.attributes.insert a.name v
            places := t.places ++ [⟨a.name, (a.raw n).span, (a.raw n).value.map RawValue.span⟩] }
        | .declarations st => { t with
            style := st
            places := t.places ++ [⟨a.name, (a.raw n).span, (a.raw n).value.map RawValue.span⟩] } := by
      have h1 := hnew a List.mem_cons_self
      have h2 := hstyle a List.mem_cons_self
      have h3 : (Flavor.html.key (a.raw n).name) = a.name := rfl
      rw [TagContent.add, h3]
      have hc : (t.attributes.has a.name || (a.name == styleName && !t.style.isEmpty)) = false := by
        by_cases hs : a.name = styleName <;> simp_all
      rw [← a.meaning_eq n]
      refine (if_neg (Bool.eq_false_iff.1 hc)).trans ?_
      cases AttrMeaning.of a.name (a.raw n).value <;> rfl
    have hne : ∀ a' ∈ as, a'.name ≠ a.name := fun a' ha' h =>
      hname (h ▸ List.mem_map_of_mem ha')
    rw [raws, List.foldl_cons, hadd]
    cases hm : a.meaning with
    | value v =>
      have hentry : a.namedValue? = some (a.name, v) := by rw [namedValue?, hm]
      have hstyle? : a.style? = none := by rw [style?, hm]
      rw [ih _ _ hnodup]
      · simp [hentry, hstyle?, places, raws, raw]
      · intro a' ha'
        have := hnew a' (List.mem_cons_of_mem _ ha')
        simpa [Attrs.has, hne a' ha'] using this
      · exact fun a' ha' => hstyle a' (List.mem_cons_of_mem _ ha')
    | declarations st =>
      have hentry : a.namedValue? = none := by rw [namedValue?, hm]
      have hstyle? : a.style? = some st := by rw [style?, hm]
      have hname := name_of_style? hstyle?
      have hnone : as.findSome? style? = none := by
        rw [List.findSome?_eq_none_iff]
        intro a' ha'
        cases h : a'.style? with
        | none => rfl
        | some _ => exact absurd ((name_of_style? h).trans hname.symm) (hne a' ha')
      rw [ih _ _ hnodup]
      · simp [hentry, hstyle?, hnone, places, raws, raw]
      · exact fun a' ha' => hnew a' (List.mem_cons_of_mem _ ha')
      · exact fun a' ha' h => absurd (h.trans hname.symm) (hne a' ha')

end AttrSource

namespace TagSource

/-- The attributes that a tag gives its element. -/
def attrs (g : TagSource) : Attrs := .ofList (g.attributes.filterMap AttrSource.namedValue?)

/-- The declarations that a tag gives its element. -/
def style (g : TagSource) : Attrs := (g.attributes.findSome? AttrSource.style?).getD .empty

theorem names_entries (g : TagSource) :
    (names (g.attributes.filterMap AttrSource.namedValue?)).Sublist (g.attributes.map AttrSource.name) := by
  induction g.attributes with
  | nil => exact List.Sublist.slnil
  | cons a as ih =>
    rw [List.filterMap_cons, List.map_cons]
    cases h : a.namedValue? with
    | none => exact ih.cons _
    | some e =>
      have : e.1 = a.name := by
        rw [AttrSource.namedValue?] at h
        split at h <;> cases h
        rfl
      rw [names, List.map_cons, this]
      exact ih.cons_cons _

/-- The attributes of a valid tag keep their order. -/
theorem entries_attrs {g : TagSource} (hg : g.IsValid) :
    g.attrs.entries = g.attributes.filterMap AttrSource.namedValue? :=
  Attrs.entries_ofList (hg.nodup.sublist g.names_entries)

/-- A valid tag has one attribute of a name. -/
theorem IsValid.eq_of_name {g : TagSource} (hg : g.IsValid) {a b : AttrSource}
    (ha : a ∈ g.attributes) (hb : b ∈ g.attributes) (h : a.name = b.name) : a = b :=
  List.inj_on_of_nodup_map hg.nodup ha hb h

/-- The declarations of an element are those of the attribute that has them. -/
theorem IsValid.style_of_mem {g : TagSource} (hg : g.IsValid) {a : AttrSource}
    (ha : a ∈ g.attributes) {d : Attrs} (hm : a.meaning = .declarations d) : g.style = d := by
  have hd : a.style? = some d := by rw [AttrSource.style?, hm]
  cases hf : g.attributes.findSome? AttrSource.style? with
  | none => rw [List.findSome?_eq_none_iff.1 hf a ha] at hd; cases hd
  | some d' =>
    obtain ⟨b, hb, hd'⟩ := List.exists_of_findSome?_eq_some hf
    cases hg.eq_of_name ha hb ((a.name_of_style? hd).trans (b.name_of_style? hd').symm)
    rw [style, hf]
    exact Option.some.inj (hd'.symm.trans hd)

/-- **A tag says what its attributes say.** -/
theorem content_openTag {g : TagSource} (hg : g.IsValid) (n : Nat) (raw : Option (Text × Span)) :
    (g.openTag n raw).content .html =
      ⟨g.attrs, g.style, AttrSource.places (n + 1 + width g.name) g.attributes⟩ :=
  AttrSource.foldl_add _ _ _ hg.nodup (fun _ _ => rfl) (fun _ _ _ => rfl)

theorem attrsEnd_openTag (g : TagSource) (n : Nat) (raw : Option (Text × Span)) :
    (g.openTag n raw).attrsEnd =
      n + 1 + width g.name + width (g.attributes.flatMap AttrSource.source) :=
  AttrSource.getLast?_raws _ _

/-- Where an element stands whose open tag starts at byte `n`. -/
def place (g : TagSource) (n stop : Nat) (inner : Option Span) : ElementPlace :=
  ⟨⟨n, stop⟩, some ⟨n, n + width g.source⟩,
    n + 1 + width g.name + width (g.attributes.flatMap AttrSource.source), inner,
    AttrSource.places (n + 1 + width g.name) g.attributes⟩

/-- An element says what its tag says. -/
theorem element_openTag {g : TagSource} (hg : g.IsValid) (n : Nat)
    (raw : Option (Text × Span)) (stop : Nat) (inner : Option Span) (children : List (Node × Place)) :
    (g.openTag n raw).element .html stop inner children =
      (.element g.name g.attrs g.style (children.map Prod.fst),
        .element (g.place n stop inner) (children.map Prod.snd)) := by
  rw [OpenTag.element, g.content_openTag hg, g.attrsEnd_openTag, OpenTag.span,
    g.openTag_closing_stop]
  rfl

end TagSource

end MarkupSync
