import Mathlib.Data.List.Nodup
import MarkupSync.Patch.Splices
import MarkupSync.Proofs.Lexeme.Loose
import MarkupSync.Proofs.Patch.Rewrite
import MarkupSync.Proofs.Printer.Document
import MarkupSync.Proofs.Tree.Everywhere

/-!
# Patching open tags

* `endsInk_source`: attributes end without blanks, so that a removed one takes only the blanks in
  front of it;
* `patchedAttr`, `patchedTag`: attributes and tags as they are patched;
* `attrs_patchedTag`, `style_patchedTag`: a patched tag says the new attributes and declarations, and
  it hides no more marks than the old one (`hidesNoMark_patchedTag`);
* **`exists_rewrites_tagSplices`**: the splices of a tag make it the patched one.
-/

namespace MarkupSync

open Text

/-! ## Blanks in front of attributes -/

/-- Values end without blanks. -/
theorem endsInk_quoted {v : ValueSource} (hv : v.quoting.Admits v.text) :
    v.quoted ≠ [] ∧ EndsInk v.quoted := by
  have ink {s : Text} {q : Char} (hq : isBlank q = false) : EndsInk (s ++ [q]) := by
    intro c hc
    rw [List.getLast?_concat, Option.mem_some_iff] at hc
    exact hc ▸ hq
  rw [ValueSource.quoted]
  cases hq : v.quoting <;> rw [hq] at hv
  case double => exact ⟨List.cons_ne_nil _ _, ink (s := '"' :: v.text) rfl⟩
  case single => exact ⟨List.cons_ne_nil _ _, ink (s := '\'' :: v.text) rfl⟩
  case bare => exact ⟨hv.1, endsInk_of_isWordChar hv.2⟩
  case braces => exact hv.elim

/-- Attributes end without blanks. -/
theorem endsInk_source {a : AttrSource} (ha : a.IsLoose) : a.source ≠ [] ∧ EndsInk a.source := by
  refine ⟨fun h => ?_, ?_⟩
  · rw [AttrSource.source] at h
    simp only [List.append_eq_nil_iff] at h
    exact ha.name.1 h.1.2
  · rw [AttrSource.source]
    cases hv : a.value with
    | none =>
      rw [List.append_nil]
      exact endsInk_append ha.name.1 (endsInk_of_isWordChar ha.name.2)
    | some v =>
      obtain ⟨hne, hink⟩ := endsInk_quoted (ha.value v hv).text
      have hsource : v.source = v.front ++ '=' :: v.back ++ v.quoted := rfl
      simp only [hsource, ← List.append_assoc]
      exact endsInk_append hne hink

namespace Patcher

/-- An attribute as it is patched; none if it is removed. -/
def patchedAttr (printer : Printer) (old new : Head) (a : AttrSource) : Option AttrSource :=
  if a.name = styleName ∧ !old.hasStyleAttribute then
    if new.style.same old.style then some a
    else if new.style.isEmpty then none
    else some { printer.styleSource new.style with blanks := a.blanks }
  else
    match new.attributes.find? a.name with
    | none => none
    | some value =>
      if old.attributes.find? a.name = some value then some a
      else some { printer.attrSource (a.name, value) with blanks := a.blanks }

/-- The attributes that are added to a tag. -/
def addedAttrs (printer : Printer) (old new : Head) (g : TagSource) : List AttrSource :=
  let added := new.attributes.entries.filter fun e =>
    !old.attributes.has e.1 && !(g.attributes.map AttrSource.name).contains e.1
  let isWritten := (g.attributes.map AttrSource.name).contains styleName && !old.hasStyleAttribute
  added.map printer.attrSource ++
    if new.style.isEmpty || isWritten then [] else [printer.styleSource new.style]

/-- A tag as it is patched. -/
def patchedTag (printer : Printer) (new : Head) (g : TagSource) : TagSource :=
  let old : Head := ⟨g.attrs, g.style⟩
  { g with
    attributes := g.attributes.filterMap (patchedAttr printer old new) ++ addedAttrs printer old new g }

/-! ## Attributes -/

section Attribute

variable {p : Patcher} {old new : Head}

theorem name_of_patchedAttr {printer : Printer} {a b : AttrSource}
    (h : patchedAttr printer old new a = some b) : b.name = a.name := by
  rw [patchedAttr] at h
  split_ifs at h with h1
  · cases h
    rfl
  · cases h
    exact h1.1.symm
  · split at h
    · cases h
    · split_ifs at h <;> cases h <;> rfl

theorem isValid_patchedAttr {printer : Printer} (hprinter : printer.WritesHtml)
    (hnew : ∀ e ∈ new.attributes.entries, IsAttribute e) {a b : AttrSource} (ha : a.IsValid)
    (h : patchedAttr printer old new a = some b) : b.IsValid := by
  have withBlanks {c : AttrSource} (hc : c.IsValid) : { c with blanks := a.blanks }.IsValid :=
    ⟨ha.blanks_ne, ha.blanks, hc.name_ne, hc.name, hc.value⟩
  rw [patchedAttr] at h
  split_ifs at h with h1
  · cases h
    exact ha
  · cases h
    exact withBlanks (Printer.isValid_styleSource hprinter _)
  · split at h
    next => cases h
    next value hvalue =>
      split_ifs at h <;> cases h
      · exact ha
      · exact withBlanks (Printer.isValid_attrSource hprinter (hnew _ (Attrs.mem_of_find? hvalue)).isPrintable)

theorem source_withBlanks {a : AttrSource} {t : Text} (hb : a.blanks = [' '])
    (hs : a.source = ' ' :: t) (b : Text) : { a with blanks := b }.source = b ++ t := by
  simp only [AttrSource.source, hb, List.append_assoc] at hs ⊢
  exact congrArg (b ++ ·) (List.cons.inj hs).2

/-- The splice of an attribute makes it the patched one; of one that is removed, only what is not
blank stays of the text in front. -/
theorem rewrites_attributeSplice (old : Head) (hp : p.flavor = .html)
    (hnew : ∀ e ∈ new.attributes.entries, IsAttribute e) {front back : Text} (hfront : EndsInk front)
    {a : AttrSource} (hs : p.source = front ++ a.source ++ back) (value : Option Span) :
    Rewrites (width front) a.source
      (p.attributeSplice old new ⟨a.name, (a.raw (width front)).span, value⟩)
      (match patchedAttr (p.options.printer p.flavor) old new a with
        | some b => b.source
        | none => trimEnd isBlank a.blanks) := by
  have hprinter := hp ▸ p.options.writesHtml_printer
  obtain ⟨body, hbody⟩ : ∃ body, a.source = a.blanks ++ body :=
    ⟨_, List.append_assoc _ _ _⟩
  have hremove : Rewrites (width front) a.source [removal p.source (a.raw (width front)).span]
      (trimEnd isBlank a.blanks) := by
    obtain ⟨b, hb, -⟩ := exists_trimEnd a.blanks
    have hbefore : before (width front + width a.blanks) p.source = front ++ a.blanks := by
      rw [hs, hbody, ← width_append]
      simpa using before_width_append (front ++ a.blanks) (body ++ back)
    have hsource : a.source = trimEnd isBlank a.blanks ++ (b ++ body) := by
      rw [← List.append_assoc, ← hb, hbody]
    have hone := Rewrites.single (width front + width (trimEnd isBlank a.blanks)) (b ++ body) []
    rw [removal, AttrSource.span_raw, hbefore, hfront.trimEnd_append, width_append, hsource, width_append,
      ← Nat.add_assoc]
    simpa using Rewrites.keep (trimEnd isBlank a.blanks) hone
  have hreplace (t : Text) : Rewrites (width front) a.source [⟨(a.raw (width front)).span, t⟩]
      (a.blanks ++ t) := by
    rw [AttrSource.span_raw, hbody, width_append, ← Nat.add_assoc]
    exact .keep a.blanks (.single _ body t)
  rw [attributeSplice, patchedAttr]
  split_ifs with h1 h2 h3
  · exact .refl (width front) a.source
  · exact hremove
  · have := source_withBlanks (a := (p.options.printer p.flavor).styleSource new.style) rfl
      (Printer.source_styleSource hprinter new.style) a.blanks
    simpa [this] using hreplace _
  · cases hvalue : new.attributes.find? a.name with
    | none => exact hremove
    | some v =>
      simp only
      split_ifs
      · exact .refl (width front) a.source
      · have := source_withBlanks (a := (p.options.printer p.flavor).attrSource (a.name, v)) rfl
          (Printer.source_attrSource hprinter (hnew _ (Attrs.mem_of_find? hvalue)).isPrintable) a.blanks
        simpa [this] using hreplace _

/-- The splices of attributes make them the patched ones. -/
theorem rewrites_attributeSplices (old : Head) (hp : p.flavor = .html)
    (hnew : ∀ e ∈ new.attributes.entries, IsAttribute e) {as : List AttrSource}
    (has : ∀ a ∈ as, a.IsValid) {front back : Text} (hfront : EndsInk front)
    (hs : p.source = front ++ as.flatMap AttrSource.source ++ back) :
    Rewrites (width front) (as.flatMap AttrSource.source)
      ((AttrSource.places (width front) as).flatMap (p.attributeSplice old new))
      ((as.filterMap (patchedAttr (p.options.printer p.flavor) old new)).flatMap AttrSource.source) := by
  induction as generalizing front with
  | nil => exact .nil
  | cons a as ih =>
    have ha := has a List.mem_cons_self
    rw [List.flatMap_cons] at hs ⊢
    have hs1 : p.source = front ++ a.source ++ (as.flatMap AttrSource.source ++ back) := by
      simpa using hs
    have hs2 : p.source = front ++ a.source ++ as.flatMap AttrSource.source ++ back := by
      simpa using hs
    have hone := rewrites_attributeSplice old hp hnew hfront hs1
      ((a.raw (width front)).value.map RawValue.span)
    rw [trimEnd_eq_nil_iff.2 ha.blanks] at hone
    have hrest := ih (fun b hb => has b (List.mem_cons_of_mem _ hb))
      (endsInk_append (endsInk_source ha.isLoose).1 (endsInk_source ha.isLoose).2) hs2
    rw [width_append] at hrest
    have := hone.append hrest
    have hplaces : AttrSource.places (width front) (a :: as) =
        ⟨a.name, (a.raw (width front)).span, (a.raw (width front)).value.map RawValue.span⟩ ::
          AttrSource.places (width front + width a.source) as := rfl
    rw [List.filterMap_cons, hplaces, List.flatMap_cons]
    cases hpatched : patchedAttr (p.options.printer p.flavor) old new a <;>
      simpa [hpatched] using this

end Attribute

/-! ## Tags -/

section Tag

variable {printer : Printer} {old new : Head} {g : TagSource}

theorem mem_addedAttrs {b : AttrSource} : b ∈ addedAttrs printer old new g ↔
    (∃ e ∈ new.attributes.entries, old.attributes.has e.1 = false ∧
      e.1 ∉ g.attributes.map AttrSource.name ∧ b = printer.attrSource e) ∨
    (new.style.isEmpty = false ∧
      (styleName ∈ g.attributes.map AttrSource.name → old.hasStyleAttribute = true) ∧
      b = printer.styleSource new.style) := by
  rw [addedAttrs, List.mem_append]
  refine or_congr ?_ ?_
  · simp only [List.mem_map, List.mem_filter, Bool.and_eq_true, Bool.not_eq_true',
      List.contains_eq_mem, decide_eq_false_iff_not]
    constructor
    · rintro ⟨e, ⟨he, ho, hn⟩, rfl⟩
      exact ⟨e, he, ho, hn, rfl⟩
    · rintro ⟨e, he, ho, hn, rfl⟩
      exact ⟨e, ⟨he, ho, hn⟩, rfl⟩
  · by_cases h1 : new.style.isEmpty = true
    · simp [h1]
    by_cases h2 : styleName ∈ g.attributes.map AttrSource.name <;>
      cases old.hasStyleAttribute <;> simp [h1, h2]

/-- The value of an attribute that a tag gives its element. -/
theorem find?_attrs (hg : g.IsValid) {n v : Text} : g.attrs.find? n = some v ↔
    ∃ a ∈ g.attributes, a.name = n ∧ a.meaning = .value v := by
  rw [← Attrs.mem_entries_iff (e := (n, v)), g.entries_attrs hg, List.mem_filterMap]
  refine exists_congr fun a => and_congr_right fun _ => ?_
  rw [AttrSource.namedValue?]
  cases a.meaning with
  | value w =>
    simp only [Option.some.injEq, Prod.mk.injEq, AttrMeaning.value.injEq]
  | declarations => simp

/-- Only the attribute of the style has no value. -/
theorem exists_meaning {a : AttrSource} (h : a.name ≠ styleName) : ∃ v, a.meaning = .value v := by
  cases hm : a.meaning with
  | value v => exact ⟨v, rfl⟩
  | declarations st => exact absurd (a.name_of_style? (by rw [AttrSource.style?, hm])) h

/-- A new element has no attribute in place of its style. -/
theorem find?_styleName (hnew : ∀ e ∈ new.attributes.entries, IsAttribute e) :
    new.attributes.find? styleName = none := by
  cases h : new.attributes.find? styleName with
  | none => rfl
  | some v => exact absurd rfl (hnew _ (Attrs.mem_of_find? h)).name_ne_style

/-- An attribute in place of a style is removed. -/
theorem hasStyleAttribute_of_patchedAttr (hnew : ∀ e ∈ new.attributes.entries, IsAttribute e)
    {a b : AttrSource} (ha : a.name = styleName) (h : patchedAttr printer old new a = some b) :
    old.hasStyleAttribute = false := by
  rw [patchedAttr] at h
  by_contra hc
  rw [if_neg (fun h1 => hc (by simpa using h1.2)), ha, find?_styleName hnew] at h
  cases h

theorem names_patched_sublist (as : List AttrSource) :
    ((as.filterMap (patchedAttr printer old new)).map AttrSource.name).Sublist
      (as.map AttrSource.name) := by
  induction as with
  | nil => exact .slnil
  | cons a as ih =>
    rw [List.filterMap_cons]
    cases h : patchedAttr printer old new a with
    | none => exact ih.cons _
    | some b =>
      rw [List.map_cons, List.map_cons, name_of_patchedAttr h]
      exact ih.cons_cons _

/-- **A patched tag can be read.** -/
theorem isValid_patchedTag (hprinter : printer.WritesHtml) (hg : g.IsValid)
    (hnew : ∀ e ∈ new.attributes.entries, IsAttribute e) : (patchedTag printer new g).IsValid := by
  refine ⟨hg.name, fun b hb => ?_, ?_, hg.blanks⟩
  · rcases List.mem_append.1 hb with hb | hb
    · obtain ⟨a, ha, hab⟩ := List.mem_filterMap.1 hb
      exact isValid_patchedAttr hprinter hnew (hg.attributes a ha) hab
    · obtain ⟨e, he, -, -, rfl⟩ | ⟨-, -, rfl⟩ := mem_addedAttrs.1 hb
      · exact Printer.isValid_attrSource hprinter (hnew e he).isPrintable
      · exact Printer.isValid_styleSource hprinter _
  · rw [patchedTag, List.map_append, List.nodup_append]
    refine ⟨hg.nodup.sublist (names_patched_sublist _), ?_, ?_⟩
    · rw [addedAttrs, List.map_append, List.map_map, List.nodup_append]
      refine ⟨?_, ?_, ?_⟩
      · exact new.attributes.nodup.sublist (List.filter_sublist.map _)
      · split
        · exact List.nodup_nil
        · exact List.pairwise_singleton _ _
      · intro n hn m hm heq
        obtain ⟨e, he, rfl⟩ := List.mem_map.1 hn
        refine (hnew e (List.mem_of_mem_filter he)).name_ne_style (heq.trans ?_)
        split at hm
        · cases hm
        · exact List.mem_singleton.1 hm
    · intro n hn m hm heq
      obtain ⟨b, hb, rfl⟩ := List.mem_map.1 hn
      obtain ⟨c, hc, rfl⟩ := List.mem_map.1 hm
      obtain ⟨a, ha, hab⟩ := List.mem_filterMap.1 hb
      rw [name_of_patchedAttr hab] at heq
      have ha' : a.name ∈ g.attributes.map AttrSource.name := List.mem_map_of_mem ha
      obtain ⟨e, -, -, hnot, rfl⟩ | ⟨-, hstyle, rfl⟩ := mem_addedAttrs.1 hc
      · rw [heq] at ha'
        exact hnot ha'
      · have := hasStyleAttribute_of_patchedAttr hnew heq hab
        rw [heq] at ha'
        rw [hstyle ha'] at this
        cases this

theorem meaning_withBlanks (a : AttrSource) (b : Text) :
    { a with blanks := b }.meaning = a.meaning := by
  rw [AttrSource.meaning, AttrSource.meaning, AttrSource.raw, AttrSource.raw]
  cases a.value <;> rfl

theorem has_styleName_iff (hg : g.IsValid) : (Head.mk g.attrs g.style).hasStyleAttribute = true ↔
    ∃ a ∈ g.attributes, a.name = styleName ∧ ∃ v, a.meaning = .value v := by
  rw [Head.hasStyleAttribute, Attrs.has, Option.isSome_iff_exists]
  simp only [find?_attrs hg]
  constructor
  · rintro ⟨v, a, ha, hn, hm⟩
    exact ⟨a, ha, hn, v, hm⟩
  · rintro ⟨a, ha, hn, v, hm⟩
    exact ⟨v, a, ha, hn, hm⟩

/-- An attribute that is kept with a value has the new one. -/
theorem find?_of_patchedAttr (hg : g.IsValid)
    (hnew : ∀ e ∈ new.attributes.entries, IsAttribute e)
    (hstyle : ∀ e ∈ new.style.entries, Style.IsDeclaration e) {a b : AttrSource} {v : Text}
    (ha : a ∈ g.attributes) (hab : patchedAttr printer ⟨g.attrs, g.style⟩ new a = some b)
    (hm : b.meaning = .value v) : new.attributes.find? a.name = some v := by
  rw [patchedAttr] at hab
  split_ifs at hab with h1 h2 h3
  · cases hab
    have := (has_styleName_iff hg).2 ⟨a, ha, h1.1, v, hm⟩
    simp [this] at h1
  · cases hab
    rw [meaning_withBlanks, Printer.meaning_styleSource (Style.readDeclarations_writeDeclarations hstyle)] at hm
    cases hm
  · cases hvalue : new.attributes.find? a.name with
    | none => simp [hvalue] at hab
    | some w =>
      simp only [hvalue] at hab
      split_ifs at hab with h2 <;> cases hab
      · exact h2.symm.trans ((find?_attrs hg).2 ⟨a, ha, rfl, hm⟩)
      · rw [meaning_withBlanks,
          Printer.meaning_attrSource (hnew _ (Attrs.mem_of_find? hvalue)).isPrintable] at hm
        cases hm
        rfl

/-- An attribute that the new element has as well is kept with its value. -/
theorem exists_patchedAttr (hg : g.IsValid) {a : AttrSource} {v : Text} (ha : a ∈ g.attributes)
    (he : IsAttribute (a.name, v)) (hv : new.attributes.find? a.name = some v) :
    ∃ b, patchedAttr printer ⟨g.attrs, g.style⟩ new a = some b ∧ b.meaning = .value v := by
  rw [patchedAttr, if_neg fun h1 => he.name_ne_style h1.1, hv]
  simp only
  split_ifs with h2
  · obtain ⟨w, hw⟩ := exists_meaning he.name_ne_style
    have := (find?_attrs hg).2 ⟨a, ha, rfl, hw⟩
    cases h2.symm.trans this
    exact ⟨a, rfl, hw⟩
  · exact ⟨_, rfl, by rw [meaning_withBlanks, Printer.meaning_attrSource he.isPrintable]⟩

/-- A patched tag says the new attributes. -/
theorem attrs_patchedTag (hprinter : printer.WritesHtml) (hg : g.IsValid)
    (hnew : ∀ e ∈ new.attributes.entries, IsAttribute e)
    (hstyle : ∀ e ∈ new.style.entries, Style.IsDeclaration e) :
    (patchedTag printer new g).attrs.Same new.attributes := by
  intro n
  refine Option.ext fun v => ?_
  rw [find?_attrs (isValid_patchedTag hprinter hg hnew)]
  constructor
  · rintro ⟨b, hb, rfl, hm⟩
    rcases List.mem_append.1 hb with hb | hb
    · obtain ⟨a, ha, hab⟩ := List.mem_filterMap.1 hb
      rw [name_of_patchedAttr hab]
      exact find?_of_patchedAttr hg hnew hstyle ha hab hm
    · obtain ⟨e, he, -, -, rfl⟩ | ⟨-, -, rfl⟩ := mem_addedAttrs.1 hb
      · rw [Printer.meaning_attrSource (hnew e he).isPrintable] at hm
        cases hm
        exact Attrs.find?_of_mem he
      · rw [Printer.meaning_styleSource (Style.readDeclarations_writeDeclarations hstyle)] at hm
        cases hm
  · intro hv
    have he := hnew _ (Attrs.mem_of_find? hv)
    by_cases hn : n ∈ g.attributes.map AttrSource.name
    · obtain ⟨a, ha, rfl⟩ := List.mem_map.1 hn
      obtain ⟨b, hb, hm⟩ := exists_patchedAttr hg ha he hv
      exact ⟨b, List.mem_append_left _ (List.mem_filterMap.2 ⟨a, ha, hb⟩), name_of_patchedAttr hb, hm⟩
    · refine ⟨printer.attrSource (n, v), List.mem_append_right _ (mem_addedAttrs.2 (.inl
        ⟨(n, v), Attrs.mem_of_find? hv, ?_, hn, rfl⟩)), rfl, Printer.meaning_attrSource he.isPrintable⟩
      rw [Attrs.has, Option.isSome_eq_false_iff, Option.isNone_iff_eq_none]
      cases hf : g.attrs.find? n with
      | none => rfl
      | some w =>
        obtain ⟨a, ha, rfl, -⟩ := (find?_attrs hg).1 hf
        exact absurd (List.mem_map_of_mem ha) hn

theorem style_eq_empty (h : ∀ a ∈ g.attributes, a.name = styleName → ∀ d, a.meaning ≠ .declarations d) :
    g.style = .empty := by
  have : g.attributes.findSome? AttrSource.style? = none := by
    rw [List.findSome?_eq_none_iff]
    intro a ha
    cases hs : a.style? with
    | none => rfl
    | some d =>
      have hn := a.name_of_style? hs
      rw [AttrSource.style?] at hs
      split at hs
      next => cases hs
      next hm => exact absurd hm (h a ha hn _)
  rw [TagSource.style, this]
  rfl

/-- An attribute that declares the style stands in place of no value of the style. -/
theorem hasStyleAttribute_of_declarations (hg : g.IsValid) {a : AttrSource} (ha : a ∈ g.attributes)
    {d : Attrs} (hm : a.meaning = .declarations d) :
    (Head.mk g.attrs g.style).hasStyleAttribute = false := by
  have hn : a.name = styleName := a.name_of_style? (by rw [AttrSource.style?, hm])
  rw [← Bool.not_eq_true, has_styleName_iff hg]
  rintro ⟨b, hb, hbn, v, hv⟩
  cases hg.eq_of_name ha hb (hn.trans hbn.symm)
  rw [hm] at hv
  cases hv

/-- Without new declarations only a kept attribute can have the name of the style. -/
theorem exists_patchedAttr_of_styleName (hnew : ∀ e ∈ new.attributes.entries, IsAttribute e)
    (h : new.style.isEmpty = true) {b : AttrSource}
    (hb : b ∈ (patchedTag printer new g).attributes) (hbn : b.name = styleName) :
    ∃ a ∈ g.attributes, a.name = styleName ∧
      patchedAttr printer ⟨g.attrs, g.style⟩ new a = some b := by
  rcases List.mem_append.1 hb with hb | hb
  · obtain ⟨a, ha, hab⟩ := List.mem_filterMap.1 hb
    exact ⟨a, ha, (name_of_patchedAttr hab).symm.trans hbn, hab⟩
  · obtain ⟨e, he, -, -, rfl⟩ | ⟨hne, -, -⟩ := mem_addedAttrs.1 hb
    · exact absurd hbn (hnew e he).name_ne_style
    · rw [h] at hne
      cases hne

/-- A patched tag says the new declarations. -/
theorem style_patchedTag (hprinter : printer.WritesHtml) (hg : g.IsValid)
    (hnew : ∀ e ∈ new.attributes.entries, IsAttribute e)
    (hstyle : ∀ e ∈ new.style.entries, Style.IsDeclaration e) :
    (patchedTag printer new g).style.Same new.style := by
  have hvalid := isValid_patchedTag hprinter hg hnew
  have hmeaning := Printer.meaning_styleSource (p := printer)
    (Style.readDeclarations_writeDeclarations hstyle)
  have same_empty (h : new.style.isEmpty = true) (hnone : ∀ a ∈ (patchedTag printer new g).attributes,
      a.name = styleName → ∀ d, a.meaning ≠ .declarations d) :
      (patchedTag printer new g).style.Same new.style := by
    have hnew := Attrs.eq_empty_of_isEmpty h
    rw [hnew, style_eq_empty hnone]
  by_cases hw : ∃ a ∈ g.attributes, a.name = styleName ∧ ∃ d, a.meaning = .declarations d
  · obtain ⟨a, ha, hn, d, hm⟩ := hw
    have hpatched : patchedAttr printer ⟨g.attrs, g.style⟩ new a =
        if new.style.same g.style then some a
        else if new.style.isEmpty then none
        else some { printer.styleSource new.style with blanks := a.blanks } := by
      rw [patchedAttr, if_pos ⟨hn, by rw [hasStyleAttribute_of_declarations hg ha hm]; rfl⟩]
    split_ifs at hpatched with h1 h2
    · rw [hvalid.style_of_mem (List.mem_append_left _ (List.mem_filterMap.2 ⟨a, ha, hpatched⟩)) hm,
        ← hg.style_of_mem ha hm]
      exact fun n => (Attrs.same_iff.1 h1 n).symm
    · -- the attribute of the style is removed
      refine same_empty h2 fun b hb hbn d' _ => ?_
      obtain ⟨c, hc, hcn, hcb⟩ := exists_patchedAttr_of_styleName hnew h2 hb hbn
      cases hg.eq_of_name ha hc (hn.trans hcn.symm)
      rw [hpatched] at hcb
      cases hcb
    · rw [hvalid.style_of_mem (List.mem_append_left _ (List.mem_filterMap.2 ⟨a, ha, hpatched⟩))
        ((meaning_withBlanks _ _).trans hmeaning)]
  · have hvalue {a : AttrSource} (ha : a ∈ g.attributes) (hn : a.name = styleName) :
        (Head.mk g.attrs g.style).hasStyleAttribute = true := by
      refine (has_styleName_iff hg).2 ⟨a, ha, hn, ?_⟩
      cases hm : a.meaning with
      | value v => exact ⟨v, rfl⟩
      | declarations d => exact absurd ⟨a, ha, hn, d, hm⟩ hw
    by_cases h2 : new.style.isEmpty = true
    · refine same_empty h2 fun b hb hbn d' _ => ?_
      obtain ⟨c, hc, hcn, hcb⟩ := exists_patchedAttr_of_styleName hnew h2 hb hbn
      have := hasStyleAttribute_of_patchedAttr hnew hcn hcb
      rw [hvalue hc hcn] at this
      cases this
    · have hadded : printer.styleSource new.style ∈ addedAttrs printer ⟨g.attrs, g.style⟩ new g := by
        refine mem_addedAttrs.2 (.inr ⟨Bool.eq_false_iff.2 h2, fun hn => ?_, rfl⟩)
        obtain ⟨a, ha, hn⟩ := List.mem_map.1 hn
        exact hvalue ha hn
      rw [hvalid.style_of_mem (List.mem_append_right _ hadded) hmeaning]

/-- A patched tag hides marks only where the old one did. -/
theorem hidesNoMark_patchedTag (hhides : g.HidesNoMark)
    (hnew : ∀ e ∈ new.attributes.entries, IsAttribute e)
    (hstyle : ∀ e ∈ new.style.entries, Style.IsDeclaration e) :
    (patchedTag printer new g).HidesNoMark := by
  have hstyleSource := Printer.hidesNoMark_styleSource (p := printer)
    (Style.readDeclarations_writeDeclarations hstyle)
  have withBlanks {a : AttrSource} (h : a.HidesNoMark) (blanks : Text) :
      { a with blanks := blanks }.HidesNoMark := fun st hst => h st (meaning_withBlanks a blanks ▸ hst)
  intro b hb
  rcases List.mem_append.1 hb with hb | hb
  · obtain ⟨a, ha, hab⟩ := List.mem_filterMap.1 hb
    rw [patchedAttr] at hab
    split_ifs at hab with h1
    · cases hab
      exact hhides _ ha
    · cases hab
      exact withBlanks hstyleSource _
    · split at hab
      next => cases hab
      next value hvalue =>
        split_ifs at hab <;> cases hab
        · exact hhides _ ha
        · exact withBlanks (Printer.hidesNoMark_attrSource
            (hnew _ (Attrs.mem_of_find? hvalue)).isPrintable) _
  · obtain ⟨e, he, -, -, rfl⟩ | ⟨-, -, rfl⟩ := mem_addedAttrs.1 hb
    · exact Printer.hidesNoMark_attrSource (hnew e he).isPrintable
    · exact hstyleSource

/-! ## Splices of tags -/

theorem map_key_places (n : Nat) (as : List AttrSource) :
    (AttrSource.places n as).map AttrPlace.key = as.map AttrSource.name := by
  induction as generalizing n with
  | nil => rfl
  | cons a as ih => exact congrArg (a.name :: ·) (ih (n + width a.source))

theorem isSome_attribute? {place : ElementPlace} {n : Nat}
    (h : place.attributes = AttrSource.places n g.attributes) (key : Text) :
    (place.attribute? key).isSome = (g.attributes.map AttrSource.name).contains key := by
  rw [ElementPlace.attribute?, h, ← map_key_places n, Bool.eq_iff_iff, List.find?_isSome]
  simp

/-- The attributes that are added, as they are printed. -/
theorem addedAttributes_eq {p : Patcher} (hp : p.flavor = .html)
    (hnew : ∀ e ∈ new.attributes.entries, IsAttribute e) {place : ElementPlace}
    (h : ∀ key, (place.attribute? key).isSome = (g.attributes.map AttrSource.name).contains key) :
    p.addedAttributes old new place =
      (addedAttrs (p.options.printer p.flavor) old new g).flatMap AttrSource.source := by
  have hprinter := hp ▸ p.options.writesHtml_printer
  have hnone (key : Text) : (place.attribute? key).isNone =
      !(g.attributes.map AttrSource.name).contains key := by
    rw [← h, Option.not_isSome]
  rw [addedAttributes, addedAttrs, List.flatMap_append, List.flatMap_map]
  simp only [hnone, h]
  congr 1
  · refine List.flatMap_congr fun e he => ?_
    exact (Printer.source_attrSource hprinter (hnew e (List.mem_of_mem_filter he)).isPrintable).symm
  · split
    · rfl
    · simp [Printer.source_styleSource hprinter]

/-- Names of tags end without blanks. -/
theorem endsInk_name {name : Text} (hname : IsTagName name) (front : Text) :
    EndsInk (front ++ '<' :: name) := by
  refine endsInk_append (List.cons_ne_nil _ _) fun c hc => ?_
  rcases List.mem_cons.1 (List.mem_of_getLast? hc) with rfl | hc
  · rfl
  · exact not_isBlank_of_isNameChar (hname.isNameChar c hc)

/-- Attributes are rewritten behind a name, and others are put behind them. -/
theorem rewrites_tag {n : Nat} {name s t : Text} {es : List Splice}
    (h : Rewrites (n + 1 + width name) s es t) (added tail : Text) :
    Rewrites n ('<' :: name ++ (s ++ tail))
      (es ++ if added = [] then []
        else [⟨⟨n + 1 + width name + width s, n + 1 + width name + width s⟩, added⟩])
      ('<' :: name ++ (t ++ (added ++ tail))) := by
  have hadded (m : Nat) :
      Rewrites m tail (if added = [] then [] else [⟨⟨m, m⟩, added⟩]) (added ++ tail) := by
    split_ifs with h
    · rw [h]
      exact .refl m tail
    · exact .replace [] added (.refl _ tail)
  have hname : n + 1 + width name = n + width ('<' :: name) := by
    have hsize : '<'.utf8Size = 1 := rfl
    simp [hsize]
    omega
  rw [hname] at h ⊢
  exact (h.append (hadded _)).keep ('<' :: name)

/-- **The splices of a tag make it say the new attributes and declarations.** -/
theorem exists_rewrites_tagSplices (new : Head) {p : Patcher} (hp : p.flavor = .html) (hg : g.IsValid)
    (hnew : ∀ e ∈ new.attributes.entries, IsAttribute e)
    (hstyle : ∀ e ∈ new.style.entries, Style.IsDeclaration e) {front back : Text}
    (hs : p.source = front ++ g.source ++ back) (stop : Nat) (inner : Option Span) :
    ∃ h : TagSource, h.IsValid ∧ h.name = g.name ∧ h.selfClosing = g.selfClosing ∧
      h.attrs.Same new.attributes ∧ h.style.Same new.style ∧ (g.HidesNoMark → h.HidesNoMark) ∧
      Rewrites (width front) g.source
        (p.tagSplices ⟨g.attrs, g.style⟩ new (g.place (width front) stop inner)) h.source := by
  have hprinter := hp ▸ p.options.writesHtml_printer
  rw [tagSplices]
  split_ifs with hsame
  · rw [Bool.and_eq_true, Attrs.same_iff, Attrs.same_iff] at hsame
    exact ⟨g, hg, rfl, rfl, hsame.1, hsame.2, id, .refl _ _⟩
  refine ⟨patchedTag (p.options.printer p.flavor) new g, isValid_patchedTag hprinter hg hnew, rfl, rfl,
    attrs_patchedTag hprinter hg hnew hstyle, style_patchedTag hprinter hg hnew hstyle,
    fun hhides => hidesNoMark_patchedTag hhides hnew hstyle, ?_⟩
  have hopen : width (front ++ '<' :: g.name) = width front + 1 + width g.name := by
    have hsize : '<'.utf8Size = 1 := rfl
    simp [hsize]
    omega
  have hs1 : p.source = front ++ '<' :: g.name ++ g.attributes.flatMap AttrSource.source ++
      (g.blanks ++ tagClose g.selfClosing ++ back) := by
    rw [hs, TagSource.source, TagSource.body]
    simp
  have hattrs := rewrites_attributeSplices ⟨g.attrs, g.style⟩ hp hnew hg.attributes
    (endsInk_name hg.name front) hs1
  rw [hopen] at hattrs
  have hplaces : (g.place (width front) stop inner).attributes =
      AttrSource.places (width front + 1 + width g.name) g.attributes := rfl
  have := rewrites_tag hattrs
    (p.addedAttributes ⟨g.attrs, g.style⟩ new (g.place (width front) stop inner))
    (g.blanks ++ tagClose g.selfClosing)
  rw [hplaces]
  refine (congrArg (Rewrites (width front) _ _) ?_).mp this
  rw [TagSource.source, TagSource.body, patchedTag, addedAttributes_eq hp hnew (isSome_attribute? hplaces)]
  simp

end Tag

end Patcher

end MarkupSync
