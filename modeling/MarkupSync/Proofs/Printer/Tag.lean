import MarkupSync.Format.Options
import MarkupSync.Proofs.Document.Normal

/-!
# Printed tags

* `Printer.WritesHtml`: printers of HTML that indent with blanks;
* `Printer.tagSource`: an open tag as it is printed (`source_tagSource`);
* **`isValid_tagSource`**, `attrs_tagSource`, `style_tagSource`: it can be read, and says what was
  printed.
-/

namespace MarkupSync

open Text

/-- Options indent with spaces or a tab. -/
theorem FormatOptions.all_isIndent_unit (o : FormatOptions) : o.unit.all isIndent = true := by
  rw [unit]
  split
  · rfl
  · simp [isIndent]

/-- A printer of HTML that indents with spaces and tabs and writes values in quotes. -/
structure Printer.WritesHtml (p : Printer) : Prop where
  flavor : p.flavor = .html
  unit : p.unit.all isIndent = true
  quote : p.quote = '"' ∨ p.quote = '\''

/-- The printer of HTML of any options writes HTML. -/
theorem FormatOptions.writesHtml_printer (o : FormatOptions) : (o.printer .html).WritesHtml :=
  ⟨rfl, o.all_isIndent_unit, .inl rfl⟩

namespace Printer

/-- The quotes of a printer. -/
def quoting (p : Printer) : Quoting := if p.quote = '"' then .double else .single

/-- A value in quotes, as it is printed. -/
def valueSource (p : Printer) (value : Text) : ValueSource :=
  ⟨[], [], p.quoting, escapeQuoted p.quote value⟩

/-- An attribute as it is printed, behind a space. -/
def attrSource (p : Printer) (e : Entry) : AttrSource :=
  ⟨[' '], e.1, if e.2 = [] then none else some (p.valueSource e.2)⟩

/-- The attribute of a style as it is printed, behind a space. -/
def styleSource (p : Printer) (style : Attrs) : AttrSource :=
  ⟨[' '], styleName, some (p.valueSource (Style.writeDeclarations style))⟩

/-- The attributes of an element as they are printed. -/
def attrSources (p : Printer) (attributes style : Attrs) : List AttrSource :=
  attributes.entries.map p.attrSource ++ if style.isEmpty then [] else [p.styleSource style]

/-- An open tag as it is printed. -/
def tagSource (p : Printer) (tag : Text) (attributes style : Attrs) : TagSource :=
  ⟨tag, p.attrSources attributes style, [], false⟩

variable {p : Printer}

theorem quoting_ne_braces (p : Printer) : p.quoting ≠ .braces := by
  rw [quoting]
  split <;> simp

/-- The indentation of a level consists of blanks. -/
theorem all_isIndent_replicate (hunit : p.unit.all isIndent = true) (level : Nat) :
    (List.replicate level p.unit).flatten.all isIndent = true := by
  refine List.all_eq_true.2 fun c hc => ?_
  obtain ⟨u, hu, hc⟩ := List.mem_flatten.1 hc
  rw [List.eq_of_mem_replicate hu] at hc
  exact List.all_eq_true.1 hunit c hc

/-! ## Attributes -/

theorem quoted_valueSource (hq : p.quote = '"' ∨ p.quote = '\'') (value : Text) :
    (p.valueSource value).quoted = p.quoted value := by
  rw [ValueSource.quoted, valueSource, quoted, quoting]
  rcases hq with h | h <;> rw [h] <;> rfl

theorem isValid_valueSource (hq : p.quote = '"' ∨ p.quote = '\'') (value : Text) :
    (p.valueSource value).IsValid := by
  refine ⟨isBlankText_nil, isBlankText_nil, ?_⟩
  have hmem := not_mem_escapeQuoted hq value
  rw [valueSource, quoting]
  rcases hq with h | h <;> rw [h] at hmem ⊢ <;> exact hmem

/-- A printed attribute is made of its name and its value. -/
theorem source_attrSource (hp : p.WritesHtml) {e : Entry} (he : IsPrintable e) :
    (p.attrSource e).source = ' ' :: p.attr e.1 e.2 := by
  have hbrace := head?_of_isWord he.name
  have hwritten : p.flavor.written e.1 = e.1 := by rw [hp.flavor]; rfl
  rw [attrSource, AttrSource.source, attr, if_neg hbrace, hwritten]
  by_cases hv : e.2 = []
  · simp [hv]
  · have := quoted_valueSource hp.quote e.2
    simp only [hv, if_false, ValueSource.source, this, hp.flavor]
    simp [valueSource]

theorem source_styleSource (hp : p.WritesHtml) (style : Attrs) :
    (p.styleSource style).source = ' ' :: p.styleAttribute style := by
  have := quoted_valueSource hp.quote (Style.writeDeclarations style)
  rw [styleSource, AttrSource.source, styleAttribute]
  simp only [ValueSource.source, this, hp.flavor]
  simp [valueSource]

theorem isBlankText_space : IsBlankText [' '] := isBlankText_cons.2 ⟨rfl, isBlankText_nil⟩

theorem isValid_attrSource (hp : p.WritesHtml) {e : Entry} (he : IsPrintable e) :
    (p.attrSource e).IsValid := by
  refine ⟨List.cons_ne_nil _ _, isBlankText_space, he.name.1, he.name.2, fun v hv => ?_⟩
  rw [attrSource] at hv
  split at hv
  · cases hv
  · cases hv
    exact isValid_valueSource hp.quote e.2

theorem isValid_styleSource (hp : p.WritesHtml) (style : Attrs) : (p.styleSource style).IsValid := by
  refine ⟨List.cons_ne_nil _ _, isBlankText_space, List.cons_ne_nil _ _, rfl, fun v hv => ?_⟩
  cases hv
  exact isValid_valueSource hp.quote _

/-- A printed attribute says its value. -/
theorem meaning_attrSource {e : Entry} (he : IsPrintable e) :
    (p.attrSource e).meaning = .value e.2 := by
  rw [AttrSource.meaning, AttrSource.raw, attrSource]
  by_cases hv : e.2 = []
  · simp [hv, AttrMeaning.of]
  · have hstyle : e.1 ≠ styleName := fun h => hv (he.style h)
    simp only [hv, if_false, Option.map_some, valueSource, AttrMeaning.of, p.quoting_ne_braces,
      decodeEntities_escapeQuoted, hstyle]
    split
    next h => rw [he.classes h]
    next => rfl

/-- The printed attribute of a style says its declarations. -/
theorem meaning_styleSource {style : Attrs}
    (h : Style.readDeclarations (Style.writeDeclarations style) = style) :
    (p.styleSource style).meaning = .declarations style := by
  simp only [AttrSource.meaning, AttrSource.raw, styleSource, Option.map_some, valueSource,
    AttrMeaning.of, p.quoting_ne_braces, if_false, if_true, decodeEntities_escapeQuoted,
    h]

/-! ## Tags -/

section Tag

variable {tag : Text} {attributes style : Attrs}

theorem source_attrSources (hp : p.WritesHtml) (ha : ∀ e ∈ attributes.entries, IsPrintable e) :
    (p.attrSources attributes style).flatMap AttrSource.source = p.attrs attributes style := by
  rw [attrSources, attrs, List.flatMap_append, List.flatMap_map]
  congr 1
  · exact List.flatMap_congr fun e he => source_attrSource hp (ha e he)
  · split
    · rfl
    · simp [source_styleSource hp]

/-- A printed tag is made of its name and its attributes. -/
theorem source_tagSource (hp : p.WritesHtml) (ha : ∀ e ∈ attributes.entries, IsPrintable e) :
    (p.tagSource tag attributes style).source =
      '<' :: tag ++ p.attrs attributes style ++ ['>'] := by
  rw [TagSource.source, TagSource.body, tagSource, source_attrSources hp ha]
  simp [tagClose]

/-- **A printed tag can be read.** -/
theorem isValid_tagSource (hp : p.WritesHtml) (ht : IsTagName tag)
    (ha : ∀ e ∈ attributes.entries, IsPrintable e)
    (hs : attributes.has styleName = true → style.isEmpty = true) :
    (p.tagSource tag attributes style).IsValid := by
  have hnames : (attributes.entries.map p.attrSource).map AttrSource.name = names attributes.entries := by
    rw [List.map_map]
    rfl
  refine ⟨ht, fun a h => ?_, ?_, isBlankText_nil⟩
  · rcases List.mem_append.1 h with h | h
    · obtain ⟨e, he, rfl⟩ := List.mem_map.1 h
      exact isValid_attrSource hp (ha e he)
    · split at h
      · cases h
      · rw [List.mem_singleton.1 h]
        exact isValid_styleSource hp style
  · rw [tagSource, attrSources, List.map_append, hnames]
    split
    · simpa using attributes.nodup
    next hne =>
      refine List.nodup_append.2 ⟨attributes.nodup, List.pairwise_singleton _ _, fun n hn m hm heq => ?_⟩
      obtain ⟨e, he, rfl⟩ := List.mem_map.1 hn
      refine hne (hs ?_)
      rw [← show e.1 = styleName from heq.trans (List.mem_singleton.1 hm), Attrs.has,
        Attrs.find?_of_mem he]
      rfl

/-- A printed tag says the attributes that were printed. -/
theorem attrs_tagSource (h : IsPrintableTag attributes style) :
    (p.tagSource tag attributes style).attrs = attributes := by
  have hentries : (attributes.entries.map p.attrSource).filterMap AttrSource.namedValue? =
      attributes.entries := by
    rw [List.filterMap_map]
    refine (List.filterMap_congr fun e he => ?_).trans List.filterMap_some
    rw [Function.comp_apply, AttrSource.namedValue?, meaning_attrSource (h.entries e he)]
    rfl
  have hstyle : (if style.isEmpty then [] else [p.styleSource style]).filterMap AttrSource.namedValue? =
      [] := by
    split
    · rfl
    · simp [AttrSource.namedValue?, meaning_styleSource h.declarations]
  rw [TagSource.attrs, tagSource, attrSources, List.filterMap_append, hentries, hstyle,
    List.append_nil]
  exact Attrs.ext (Attrs.entries_ofList attributes.nodup)

/-- A printed tag says the style that was printed. -/
theorem style_tagSource (h : IsPrintableTag attributes style) :
    (p.tagSource tag attributes style).style = style := by
  have hnone : (attributes.entries.map p.attrSource).findSome? AttrSource.style? = none := by
    rw [List.findSome?_eq_none_iff]
    intro a ha
    obtain ⟨e, he, rfl⟩ := List.mem_map.1 ha
    rw [AttrSource.style?, meaning_attrSource (h.entries e he)]
  rw [TagSource.style, tagSource, attrSources, List.findSome?_append, hnone, Option.none_or]
  split
  next hempty => exact (Attrs.eq_empty_of_isEmpty hempty).symm
  next => simp [AttrSource.style?, meaning_styleSource h.declarations]

end Tag

end Printer

end MarkupSync
