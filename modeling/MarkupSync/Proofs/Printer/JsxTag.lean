import Mathlib.Data.List.Forall2
import MarkupSync.Proofs.Document.JsxNormal
import MarkupSync.Proofs.Printer.Tag
import MarkupSync.Proofs.Style.Member

/-!
# Printed tags of JSX

* `Printer.WritesJsx`: printers of JSX that indent with blanks, as all options have them
  (`FormatOptions.writesJsx_printer`);
* `AttrText`: an attribute as it is printed and what it says; `AttrText.IsRead`: a tag reads it so,
  wherever it stands;
* `isRead_attrText`, `isRead_styleText`: attributes and styles as they are printed;
* `exists_tagBody`: the attributes of a tag are read one after another;
* **`exists_openTag`**: a printed tag is read with the attributes and the style that were printed.
-/

namespace MarkupSync

open Text

/-! ## Values in braces -/

theorem isRead_braces {s : Text} (h : closeBraces? (s ++ ['\x7d']) = some (s ++ ['\x7d'], [])) :
    ValueSource.IsRead .jsx ⟨[], [], .braces, s⟩ := by
  refine ⟨isBlankText_nil, isBlankText_nil, fun next _ => ?_⟩
  have := tagHead?_braces h next
  rwa [List.dropLast_concat] at this

/-! ## Names -/

/-- How attributes are written in JSX. -/
theorem written_eq (name : Text) : Flavor.written .jsx name =
    if name = "class".toList then "className".toList
    else if name = "for".toList then "htmlFor".toList else name := by
  change (List.lookup name [("class".toList, "className".toList),
    ("for".toList, "htmlFor".toList)]).getD name = _
  rw [Entries.lookup_cons, Entries.lookup_cons, List.lookup_nil]
  split_ifs <;> rfl

/-- An attribute that JSX renames is written so that it is read again. -/
theorem key_written {name : Text} (h : Flavor.renamed.lookup name = none) :
    Flavor.key .jsx (Flavor.written .jsx name) = name := by
  rw [written_eq]
  split_ifs with hc hf
  · rw [hc]
    rfl
  · rw [hf]
    rfl
  · rw [Flavor.key, h]
    rfl

theorem written_word {name : Text} (hn : name ≠ []) (hw : name.all isWordChar = true) :
    Flavor.written .jsx name ≠ [] ∧ (Flavor.written .jsx name).all isWordChar = true := by
  rw [written_eq]
  split_ifs
  · exact ⟨List.cons_ne_nil _ _, rfl⟩
  · exact ⟨List.cons_ne_nil _ _, rfl⟩
  · exact ⟨hn, hw⟩

/-! ## Attributes in a tag -/

/-- An attribute as it is printed, with the blanks in front of it, and what it says. -/
structure AttrText where
  text : Text
  key : Text
  meaning : AttrMeaning

/-- A raw attribute says what a printed one says. -/
def RawAttribute.Agrees (a : RawAttribute) (x : AttrText) : Prop :=
  Flavor.key .jsx a.name = x.key ∧ AttrMeaning.of x.key a.value = x.meaning

namespace AttrText

/-- A tag reads the text as one attribute, whatever stands in front of it and behind it. -/
structure IsRead (x : AttrText) : Prop where
  head : x.text.head? = some ' '
  body : ∀ (n : Nat) (w : Waiting) (next : Text), (∀ c ∈ next.head?, isWordChar c = false) →
    (∀ name span, w ≠ .valueAfterEquals name span) →
    ∃ a done w', a.Agrees x ∧ (∀ name span, w' ≠ .valueAfterEquals name span) ∧
      done ++ w'.valueless = [a] ∧
      tagBody .jsx n w (x.text ++ next) =
        (tagBody .jsx (n + width x.text) w' next).map (·.withFirst (w.valueless ++ done))

/-- A name with or without a value is read. -/
theorem isRead_of_source {x : AttrText} {a : AttrSource} (ha : a.IsRead .jsx)
    (hhead : x.text.head? = some ' ') (htext : x.text = a.source)
    (hkey : Flavor.key .jsx a.name = x.key)
    (hmeaning : AttrMeaning.of x.key (a.raw 0).value = x.meaning) : x.IsRead := by
  refine ⟨hhead, fun n w next hnext hw => ?_⟩
  obtain ⟨done, w', hw', hdone, -, htag⟩ := tagBody_attr (ha.before hnext) n hw
  have hvalue : AttrMeaning.of x.key (a.raw n).value = AttrMeaning.of x.key (a.raw 0).value := by
    rw [AttrSource.raw, AttrSource.raw]
    cases a.value <;> rfl
  exact ⟨a.raw n, done, w', ⟨hkey, hvalue.trans hmeaning⟩, hw', hdone, htext ▸ htag⟩

/-- A spread is read. -/
theorem isRead_spread {t : Text} (ht : IsClosed t) (hkey : Flavor.key .jsx t = t) :
    IsRead ⟨' ' :: t, t, .value []⟩ := by
  refine ⟨rfl, fun n w next _ hw => ?_⟩
  obtain ⟨s, rfl, hs⟩ := ht.exists_cons
  let a : RawAttribute :=
    ⟨'\x7b' :: s, ⟨n + width [' '], n + width [' '] + width ('\x7b' :: s)⟩, none⟩
  have htake : w.take .braces s.dropLast ('\x7b' :: s) (n + width [' ']) =
      .ok (w.valueless ++ [a], .nothing) := by
    cases w with
    | valueAfterEquals name span => exact absurd rfl (hw name span)
    | _ => rfl
  refine ⟨a, [a], .nothing, ⟨hkey, rfl⟩, nofun, rfl, ?_⟩
  have hblank : tagHead? .jsx (' ' :: '\x7b' :: (s ++ next)) =
      some (.blank [' '] ('\x7b' :: (s ++ next))) := tagHead?_blank rfl
  show tagBody .jsx n w (' ' :: '\x7b' :: (s ++ next)) = _
  rw [tagBody_blank hblank, tagBody_value (tagHead?_braces hs next) htake]
  simp [Nat.add_assoc]

end AttrText

/-- What can follow an attribute in a tag. -/
theorem head_of_attrTexts {xs : List AttrText} (hxs : ∀ x ∈ xs, x.IsRead) {t : Text}
    (ht : ∀ c ∈ t.head?, c = ' ' ∨ c = '>') :
    ∀ c ∈ (xs.flatMap AttrText.text ++ t).head?, c = ' ' ∨ c = '>' := by
  cases xs with
  | nil => exact ht
  | cons x xs =>
    have hhead := (hxs x List.mem_cons_self).head
    have hne : x.text ≠ [] := fun h => by rw [h] at hhead; cases hhead
    intro c hc
    rw [List.flatMap_cons, List.append_assoc, List.head?_append_of_ne_nil _ hne, hhead] at hc
    cases hc
    exact .inl rfl

/-- The end of a tag as it is printed. -/
def tagEnd (selfClosing : Bool) : Text := if selfClosing then [' ', '/', '>'] else ['>']

theorem head_tagEnd (sc : Bool) (rest : Text) :
    ∀ c ∈ (tagEnd sc ++ rest).head?, c = ' ' ∨ c = '>' := by
  intro c hc
  cases sc <;> cases hc
  · exact .inr rfl
  · exact .inl rfl

theorem exists_tagBody_end (n : Nat) (w : Waiting) (sc : Bool) (rest : Text) :
    ∃ start, tagBody .jsx n w (tagEnd sc ++ rest) =
      .ok ⟨w.valueless, ⟨start, n + width (tagEnd sc)⟩, sc, rest⟩ := by
  cases sc with
  | false => exact ⟨n, tagBody_close rfl⟩
  | true =>
    have hblank : tagHead? .jsx (' ' :: ('/' :: '>' :: rest)) =
        some (.blank [' '] ('/' :: '>' :: rest)) := tagHead?_blank rfl
    have hclose : tagBody .jsx (n + 1) w ('/' :: '>' :: rest) =
        .ok ⟨w.valueless, ⟨n + 1, n + 1 + width ['/', '>']⟩, true, rest⟩ := tagBody_close rfl
    exact ⟨n + 1, (tagBody_blank hblank).trans hclose⟩

/-- **The attributes of a tag are read one after another.** -/
theorem exists_tagBody {xs : List AttrText} (hxs : ∀ x ∈ xs, x.IsRead) (sc : Bool) (rest : Text)
    (n : Nat) {w : Waiting} (hw : ∀ name span, w ≠ .valueAfterEquals name span) :
    ∃ as start, List.Forall₂ RawAttribute.Agrees as xs ∧
      tagBody .jsx n w (xs.flatMap AttrText.text ++ (tagEnd sc ++ rest)) =
        .ok ⟨w.valueless ++ as,
          ⟨start, n + width (xs.flatMap AttrText.text) + width (tagEnd sc)⟩, sc, rest⟩ := by
  induction xs generalizing n w with
  | nil =>
    obtain ⟨start, hend⟩ := exists_tagBody_end n w sc rest
    exact ⟨[], start, .nil, by simpa using hend⟩
  | cons x xs ih =>
    have hxs' := fun y hy => hxs y (List.mem_cons_of_mem x hy)
    have hnext : ∀ c ∈ (xs.flatMap AttrText.text ++ (tagEnd sc ++ rest)).head?,
        isWordChar c = false := fun c hc => by
      rcases head_of_attrTexts hxs' (head_tagEnd sc rest) c hc with rfl | rfl <;> decide
    obtain ⟨a, done, w', ha, hw', hdone, htag⟩ :=
      (hxs x List.mem_cons_self).body n w _ hnext hw
    obtain ⟨as, start, has, hbody⟩ := ih hxs' (n + width x.text) hw'
    refine ⟨a :: as, start, .cons ha has, ?_⟩
    rw [List.flatMap_cons, List.append_assoc, htag, hbody]
    have hattrs : w.valueless ++ done ++ (w'.valueless ++ as) = w.valueless ++ a :: as := by
      rw [List.append_assoc, ← List.append_assoc done, hdone]
      rfl
    simp only [Except.map, TagBody.withFirst, hattrs, width_append, Nat.add_assoc]

/-! ## What a tag says -/

/-- An attribute of a new name gives the element its value. -/
theorem add_value {t : TagContent} {x : AttrText} {a : RawAttribute} (ha : a.Agrees x) {value : Text}
    (hmeaning : x.meaning = .value value) (hnew : t.attributes.has x.key = false)
    (hstyle : t.style.isEmpty = true) :
    (TagContent.add .jsx t a).attributes = t.attributes.insert x.key value ∧
      (TagContent.add .jsx t a).style = t.style := by
  obtain ⟨hkey, hvalue⟩ := ha
  simp [TagContent.add, hkey, hvalue, hmeaning, hnew, hstyle]

/-- Attributes of different names give the element their values. -/
theorem foldl_add_values {es : List Entry} {f : Entry → AttrText} {as : List RawAttribute}
    (hf : ∀ e ∈ es, (f e).key = e.1 ∧ (f e).meaning = .value e.2)
    (has : List.Forall₂ RawAttribute.Agrees as (es.map f)) {t : TagContent}
    (hnodup : (names es).Nodup) (hnew : ∀ e ∈ es, t.attributes.has e.1 = false)
    (hstyle : t.style.isEmpty = true) :
    (as.foldl (TagContent.add .jsx) t).attributes =
        es.foldl (fun m e => m.insert e.1 e.2) t.attributes ∧
      (as.foldl (TagContent.add .jsx) t).style = t.style := by
  induction es generalizing as t with
  | nil =>
    cases has
    exact ⟨rfl, rfl⟩
  | cons e es ih =>
    obtain ⟨a, as, ha, hrest, rfl⟩ := List.forall₂_cons_right_iff.1 has
    obtain ⟨hkey, hmeaning⟩ := hf e List.mem_cons_self
    obtain ⟨hname, hnodup⟩ := List.nodup_cons.1 hnodup
    obtain ⟨hattrs, hst⟩ := add_value ha hmeaning (hkey ▸ hnew e List.mem_cons_self) hstyle
    rw [List.foldl_cons, List.foldl_cons]
    have hnew' : ∀ d ∈ es, (TagContent.add .jsx t a).attributes.has d.1 = false := fun d hd => by
      have hne : d.1 ≠ e.1 := fun h => hname (h ▸ List.mem_map_of_mem hd)
      have := hnew d (List.mem_cons_of_mem e hd)
      simpa [hattrs, hkey, Attrs.has, hne] using this
    obtain ⟨hattrs', hst'⟩ := ih (fun d hd => hf d (List.mem_cons_of_mem e hd)) hrest hnodup hnew'
      (hst ▸ hstyle)
    exact ⟨by rw [hattrs', hattrs, hkey], by rw [hst', hst]⟩

/-- A tag gives an element its name, its attributes and its style, and no content. -/
structure OpenTag.Gives (t : OpenTag) (tag : Text) (attributes style : Attrs) : Prop where
  name : t.name = tag
  attributes : (t.content .jsx).attributes = attributes
  style : (t.content .jsx).style = style
  raw : t.raw = none

theorem OpenTag.Gives.element {t : OpenTag} {tag : Text} {attributes style : Attrs}
    (h : t.Gives tag attributes style) (stop : Nat) (inner : Option Span)
    (children : List (Node × Place)) : (t.element .jsx stop inner children).1 =
      .element tag attributes style (children.map Prod.fst) := by
  simp only [OpenTag.element, h.name, h.attributes, h.style]

/-- A printer of JSX that indents with spaces and tabs and writes values in quotes. -/
structure Printer.WritesJsx (p : Printer) : Prop where
  flavor : p.flavor = .jsx
  unit : p.unit.all isIndent = true
  quote : p.quote = '"' ∨ p.quote = '\''

/-- The printer of JSX of any options writes JSX. -/
theorem FormatOptions.writesJsx_printer (o : FormatOptions) : (o.printer .jsx).WritesJsx := by
  refine ⟨rfl, o.all_isIndent_unit, ?_⟩
  rw [printer, quoteChar]
  split
  · exact .inr rfl
  · exact .inl rfl

namespace Printer

/-- An attribute as it is printed, and its value. -/
def attrText (p : Printer) (e : Entry) : AttrText := ⟨' ' :: p.attr e.1 e.2, e.1, .value e.2⟩

/-- The attribute of a style as it is printed, and its declarations. -/
def styleText (p : Printer) (style : Attrs) : AttrText :=
  ⟨' ' :: p.styleAttribute style, styleName, .declarations style⟩

/-- The attributes of an element as they are printed. -/
def attrTexts (p : Printer) (attributes style : Attrs) : List AttrText :=
  attributes.entries.map p.attrText ++ if style.isEmpty then [] else [p.styleText style]

/-- An open tag as it is printed. -/
def tagText (p : Printer) (tag : Text) (attributes style : Attrs) (selfClosing : Bool) : Text :=
  '<' :: tag ++ p.attrs attributes style ++ tagEnd selfClosing

variable {p : Printer}

theorem flatMap_attrTexts (attributes style : Attrs) :
    (p.attrTexts attributes style).flatMap AttrText.text = p.attrs attributes style := by
  rw [attrTexts, attrs, List.flatMap_append, List.flatMap_map]
  congr 1
  split <;> simp [styleText]

section Named

variable {e : Entry}

/-- A printed attribute with a name is read if its value is. -/
theorem isRead_attrText_of_value (hp : p.WritesJsx) (he : IsJsxNamed e) {v : Option ValueSource}
    (hread : ∀ w ∈ v, w.IsRead .jsx)
    (htext : (if e.2 = [] then [] else
      '=' :: if isExpression e.2 = true then e.2 else p.quoted e.2) = v.elim [] (·.source))
    (hmeaning : AttrMeaning.of e.1 ((AttrSource.mk [' '] e.1 v).raw 0).value = .value e.2) :
    (p.attrText e).IsRead := by
  have hbrace : e.1.head? ≠ some '\x7b' := fun h =>
    absurd (List.all_eq_true.1 he.name _ (List.mem_of_head? h)) (by decide)
  obtain ⟨hname_ne, hname⟩ := written_word he.name_ne he.name
  refine AttrText.isRead_of_source (a := ⟨[' '], Flavor.written .jsx e.1, v⟩)
    ⟨isBlankText_space, hname_ne, hname, hread⟩ rfl ?_ (key_written he.not_renamed) ?_
  · rw [attrText, AttrSource.source, attr, if_neg hbrace, hp.flavor]
    simp only [true_and, htext]
    cases v <;> rfl
  · cases v <;> exact hmeaning

/-- A name alone. -/
theorem isRead_attrText_nil (hp : p.WritesJsx) (he : IsJsxNamed e) (hnil : e.2 = []) :
    (p.attrText e).IsRead :=
  isRead_attrText_of_value hp he (v := none) nofun (if_pos hnil)
    (congrArg AttrMeaning.value hnil.symm)

/-- Code in braces stands as it is. -/
theorem isRead_attrText_expression (hp : p.WritesJsx) (he : IsJsxNamed e)
    (hexpr : isExpression e.2 = true) : (p.attrText e).IsRead := by
  have hvalue := eq_of_isExpression hexpr
  obtain ⟨s, hs, hclose⟩ := (he.closed hexpr).exists_cons
  have hne : e.2 ≠ [] := hs ▸ List.cons_ne_nil _ _
  have hcode : s = e.2.tail.dropLast ++ ['\x7d'] := (List.cons.inj (hs.symm.trans hvalue)).2
  have hobject : (if e.1 = styleName then Style.readObject? e.2.tail.dropLast else none) = none := by
    split_ifs with hstyle
    · exact (he.style hstyle).2
    · rfl
  refine isRead_attrText_of_value hp he (v := some ⟨[], [], .braces, e.2.tail.dropLast⟩) ?_ ?_ ?_
  · rintro _ ⟨⟩
    exact isRead_braces (hcode ▸ hclose)
  · rw [if_neg hne, if_pos hexpr, Option.elim_some, ValueSource.source, ValueSource.quoted,
      Quoting.wrap]
    exact congrArg _ hvalue
  · simp only [AttrSource.raw, Option.map_some, AttrMeaning.of, hobject, if_true]
    rw [List.cons_append, ← hvalue]

/-- Anything else stands in quotes. -/
theorem isRead_attrText_quoted (hp : p.WritesJsx) (he : IsJsxNamed e) (hne : e.2 ≠ [])
    (hexpr : isExpression e.2 = false) : (p.attrText e).IsRead := by
  have hstyle : e.1 ≠ styleName := fun h => Bool.noConfusion (hexpr.symm.trans (he.style h).1)
  refine isRead_attrText_of_value hp he (v := some (p.valueSource e.2)) ?_ ?_ ?_
  · rintro _ ⟨⟩
    exact (isValid_valueSource hp.quote e.2).isRead .jsx
  · rw [if_neg hne, if_neg (Bool.eq_false_iff.1 hexpr), Option.elim_some, ValueSource.source,
      quoted_valueSource hp.quote]
    rfl
  · simp only [AttrSource.raw, Option.map_some, valueSource, AttrMeaning.of, p.quoting_ne_braces,
      decodeEntities_escapeQuoted, if_neg hstyle, if_false]
    split_ifs with hclass
    · rw [he.classes hclass hexpr]
    · rfl

end Named

/-- **A printed attribute is read as it was.** -/
theorem isRead_attrText (hp : p.WritesJsx) {e : Entry} (he : IsJsxAttribute e) :
    (p.attrText e).IsRead := by
  rcases he with ⟨hclosed, hvalue⟩ | he
  · -- a spread stands as it is
    obtain ⟨s, hs, -⟩ := hclosed.exists_cons
    have hkey : Flavor.key .jsx e.1 = e.1 := by
      rw [hs]
      rfl
    have := AttrText.isRead_spread hclosed hkey
    rwa [attrText, attr, if_pos (by rw [hs]; rfl), hvalue]
  · by_cases hnil : e.2 = []
    · exact isRead_attrText_nil hp he hnil
    cases hexpr : isExpression e.2 with
    | true => exact isRead_attrText_expression hp he hexpr
    | false => exact isRead_attrText_quoted hp he hnil hexpr

/-- **The printed attribute of a style is read as the style.** -/
theorem isRead_styleText (hp : p.WritesJsx) {style : Attrs}
    (h : ∀ e ∈ style.entries, Style.IsObjectEntry e) (hne : style.isEmpty = false) :
    (p.styleText style).IsRead := by
  obtain ⟨s, hwrite, hbalanced, hread⟩ := Style.exists_writeObject hp.quote h hne
  have hvalue : ValueSource.IsRead .jsx ⟨[], [], .braces, s⟩ :=
    isRead_braces (hbalanced.closeBraces? [])
  refine AttrText.isRead_of_source (a := ⟨[' '], styleName, some ⟨[], [], .braces, s⟩⟩)
    ⟨isBlankText_space, List.cons_ne_nil _ _, rfl, fun v hv => ?_⟩ rfl ?_ rfl ?_
  · cases hv
    exact hvalue
  · rw [styleText, styleAttribute, hp.flavor, AttrSource.source]
    simp [ValueSource.source, ValueSource.quoted, Quoting.wrap, hwrite]
  · simp [AttrSource.raw, styleText, AttrMeaning.of, hread]

section Tag

variable {tag : Text} {attributes style : Attrs}

theorem isRead_attrTexts (hp : p.WritesJsx) (ha : ∀ e ∈ attributes.entries, IsJsxAttribute e)
    (hs : ∀ e ∈ style.entries, Style.IsObjectEntry e) :
    ∀ x ∈ p.attrTexts attributes style, x.IsRead := by
  intro x hx
  rcases List.mem_append.1 hx with hx | hx
  · obtain ⟨e, he, rfl⟩ := List.mem_map.1 hx
    exact isRead_attrText hp (ha e he)
  · split_ifs at hx with hempty
    · cases hx
    · rw [List.mem_singleton.1 hx]
      exact isRead_styleText hp hs (Bool.eq_false_iff.2 hempty)

/-- Printed attributes say what was printed. -/
theorem content_of_agrees (hstyle : attributes.has styleName = true → style = .empty)
    {as : List RawAttribute}
    (has : List.Forall₂ RawAttribute.Agrees as (p.attrTexts attributes style)) :
    (as.foldl (TagContent.add .jsx) ⟨.empty, .empty, []⟩).attributes = attributes ∧
      (as.foldl (TagContent.add .jsx) ⟨.empty, .empty, []⟩).style = style := by
  have hvalues := List.forall₂_take_append _ _ _ has
  have hbs := List.forall₂_drop_append _ _ _ has
  rw [← List.take_append_drop (attributes.entries.map p.attrText).length as]
  obtain ⟨hattrs, hst⟩ := foldl_add_values (f := p.attrText) (t := ⟨.empty, .empty, []⟩)
    (fun e _ => ⟨rfl, rfl⟩) hvalues attributes.nodup (fun _ _ => rfl) rfl
  have hall : attributes.entries.foldl (fun m e => m.insert e.1 e.2) Attrs.empty = attributes :=
    Attrs.ext (Attrs.entries_ofList attributes.nodup)
  rw [hall] at hattrs
  rw [List.foldl_append]
  split_ifs at hbs with hempty
  · rw [List.forall₂_nil_right_iff.1 hbs]
    exact ⟨hattrs, hst.trans (Attrs.eq_empty_of_isEmpty hempty).symm⟩
  · obtain ⟨a, cs, ⟨hkey, hvalue⟩, hnil, hdrop⟩ := List.forall₂_cons_right_iff.1 hbs
    rw [hdrop, List.forall₂_nil_right_iff.1 hnil]
    have hnew : attributes.has styleName = false := by
      refine Bool.eq_false_iff.2 fun h => hempty ?_
      rw [hstyle h]
      rfl
    replace hkey : Flavor.key .jsx a.name = styleName := hkey
    replace hvalue : AttrMeaning.of styleName a.value = .declarations style := hvalue
    have hadd {t : TagContent} (hattrs : t.attributes = attributes) (hst : t.style = .empty) :
        (TagContent.add .jsx t a).attributes = attributes ∧
          (TagContent.add .jsx t a).style = style := by
      simp [TagContent.add, hkey, hvalue, hattrs, hst, hnew, Attrs.isEmpty, Attrs.empty]
    exact hadd hattrs hst

/-- **A printed tag is read with the attributes and the style that were printed.** -/
theorem exists_openTag (hp : p.WritesJsx) (ht : IsTagName tag)
    (ha : ∀ e ∈ attributes.entries, IsJsxAttribute e)
    (hstyle : attributes.has styleName = true → style = .empty)
    (hs : ∀ e ∈ style.entries, Style.IsObjectEntry e) (sc : Bool) (n : Nat) (rest : Text) :
    ∃ t body, contentHead .jsx (p.tagText tag attributes style sc ++ rest) =
        .ok (some (.openTag tag ('<' :: tag) body)) ∧
      openTag .jsx n tag body =
        .ok (t, n + width (p.tagText tag attributes style sc), rest) ∧
      t.closing.stop = n + width (p.tagText tag attributes style sc) ∧ t.selfClosing = sc ∧
      t.Gives tag attributes style := by
  have hread := isRead_attrTexts hp ha hs
  obtain ⟨as, start, has, hbody⟩ := exists_tagBody hread sc rest (n + 1 + width tag)
    (w := .nothing) nofun
  have hhead := head_of_attrTexts hread (head_tagEnd sc rest)
  rw [flatMap_attrTexts] at hbody hhead
  have hname := angleHead_name ht fun c hc => by
    rcases hhead c hc with rfl | rfl <;> decide
  obtain ⟨hattrs, hst⟩ := content_of_agrees hstyle has
  have hangle : '<'.utf8Size = 1 := rfl
  have hstop : n + 1 + width tag + width (p.attrs attributes style) + width (tagEnd sc) =
      n + width (p.tagText tag attributes style sc) := by
    simp [tagText, hangle]
    omega
  rw [hstop] at hbody
  refine ⟨⟨tag, ⟨n, n + 1 + width tag⟩, as,
    ⟨start, n + width (p.tagText tag attributes style sc)⟩, sc, none⟩,
    p.attrs attributes style ++ (tagEnd sc ++ rest), ?_, ?_, rfl, rfl, ⟨rfl, hattrs, hst, rfl⟩⟩
  · have htext : p.tagText tag attributes style sc ++ rest =
        '<' :: (tag ++ (p.attrs attributes style ++ (tagEnd sc ++ rest))) := by simp [tagText]
    rw [htext, contentHead, hname]
    rfl
  · simp only [openTag, hbody]
    rw [if_neg (by simp)]
    rfl

end Tag

end Printer

end MarkupSync
