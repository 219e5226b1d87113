import MarkupSync.Proofs.Document.Matching
import MarkupSync.Proofs.Document.Passage
import MarkupSync.Proofs.Document.JsxNormal

/-!
# Markup of modules as it is written

* `JsxAttr`, `JsxTag`, `Jsx`: attributes, open tags and markup with their blanks; every element may
  have content and a close tag, whatever its name;
* `Jsx.IsValid`: markup whose names, values, code and texts end where they are read to end;
* `exists_openTag_source`: a tag is read as it was written;
* **`Jsx.isCut`**: markup is cut into lexemes that match.
-/

namespace MarkupSync

open Text

/-! ## Attributes and tags -/

/-- An attribute with the blanks in front of it. -/
inductive JsxAttr
  | named (a : AttrSource)
  /-- Spread properties, with their braces. -/
  | spread (blanks code : Text)

namespace JsxAttr

/-- The text of an attribute. -/
def source : JsxAttr → Text
  | named a => a.source
  | spread blanks code => blanks ++ code

/-- A name stands behind blanks and is a word, a value is read as it is written, and spread
properties end at the brace that closes the first one. -/
def IsValid : JsxAttr → Prop
  | named a => a.blanks ≠ [] ∧ a.IsRead .jsx
  | spread blanks code => IsBlankText blanks ∧ IsClosed code

/-- What is read, wherever it stands. -/
def raw : JsxAttr → RawAttribute
  | named a => a.raw 0
  | spread _ code => ⟨code, ⟨0, 0⟩, none⟩

end JsxAttr

/-- The start of an open tag, up to its end. -/
structure JsxTag where
  name : Text
  attributes : List JsxAttr
  blanks : Text

namespace JsxTag

/-- The text of a tag. -/
def source (g : JsxTag) (selfClosing : Bool) : Text :=
  '<' :: g.name ++ (g.attributes.flatMap JsxAttr.source ++ (g.blanks ++ tagClose selfClosing))

/-- The name and the attributes are read as they are written. -/
structure IsValid (g : JsxTag) : Prop where
  name : IsTagName g.name
  attributes : ∀ a ∈ g.attributes, a.IsValid
  blanks : IsBlankText g.blanks

end JsxTag

/-- What can follow the name of a tag or an attribute. -/
def StartsNoWord (s : Text) : Prop :=
  ∀ c ∈ s.head?, isBlank c = true ∨ c = '\x7b' ∨ c = '/' ∨ c = '>'

theorem StartsNoWord.isWordChar {s : Text} (h : StartsNoWord s) :
    ∀ c ∈ s.head?, isWordChar c = false := by
  intro c hc
  obtain hc | rfl | rfl | rfl := h c hc
  · exact isWordChar_of_isBlank hc
  all_goals decide

theorem StartsNoWord.isNameChar {s : Text} (h : StartsNoWord s) :
    ∀ c ∈ s.head?, isNameChar c = false := by
  intro c hc
  obtain hc | rfl | rfl | rfl := h c hc
  · exact Bool.eq_false_iff.2 fun hname => by
      rw [not_isBlank_of_isNameChar hname] at hc
      cases hc
  all_goals decide

theorem startsNoWord_blanks {b s : Text} (hb : IsBlankText b) (hs : StartsNoWord s) :
    StartsNoWord (b ++ s) := by
  cases b with
  | nil => exact hs
  | cons d b =>
    rintro c ⟨⟩
    exact .inl (isBlankText_cons.1 hb).1

theorem startsNoWord_tagClose (sc : Bool) (rest : Text) : StartsNoWord (tagClose sc ++ rest) := by
  cases sc <;> rintro c ⟨⟩
  · exact .inr (.inr (.inr rfl))
  · exact .inr (.inr (.inl rfl))

theorem startsNoWord_attributes {as : List JsxAttr} (has : ∀ a ∈ as, a.IsValid) {s : Text}
    (hs : StartsNoWord s) : StartsNoWord (as.flatMap JsxAttr.source ++ s) := by
  cases as with
  | nil => exact hs
  | cons a as =>
    have ha := has a List.mem_cons_self
    rw [List.flatMap_cons, List.append_assoc]
    cases a with
    | named a =>
      obtain ⟨d, b, hb⟩ := List.exists_cons_of_ne_nil ha.1
      rw [JsxAttr.source, AttrSource.source, hb]
      rintro c ⟨⟩
      exact .inl (ha.2.blanks d (by rw [hb]; exact List.mem_cons_self))
    | spread blanks code =>
      obtain ⟨u, rfl, -⟩ := ha.2.exists_cons
      rw [JsxAttr.source, List.append_assoc]
      refine startsNoWord_blanks ha.1 ?_
      rintro c ⟨⟩
      exact .inr (.inl rfl)

/-- An attribute is read, whatever was read before it. -/
theorem exists_tagBody_attr {a : JsxAttr} (ha : a.IsValid) {next : Text} (hnext : StartsNoWord next)
    (n : Nat) {w : Waiting} (hw : ∀ name span, w ≠ .valueAfterEquals name span) :
    ∃ r done w', r.written = a.raw.written ∧ (∀ name span, w' ≠ .valueAfterEquals name span) ∧
      done ++ w'.valueless = [r] ∧
      tagBody .jsx n w (a.source ++ next) =
        (tagBody .jsx (n + width a.source) w' next).map (·.withFirst (w.valueless ++ done)) := by
  cases a with
  | named a =>
    obtain ⟨done, w', hw', hdone, -, htag⟩ := tagBody_attr (ha.2.before hnext.isWordChar) n hw
    refine ⟨a.raw n, done, w', ?_, hw', hdone, htag⟩
    rw [JsxAttr.raw, RawAttribute.written, RawAttribute.written, AttrSource.raw, AttrSource.raw]
    cases a.value <;> rfl
  | spread blanks code =>
    obtain ⟨u, rfl, hu⟩ := ha.2.exists_cons
    let start := n + width blanks
    let r : RawAttribute := ⟨'\x7b' :: u, ⟨start, start + width ('\x7b' :: u)⟩, none⟩
    have htake : w.take .braces u.dropLast ('\x7b' :: u) start =
        .ok (w.valueless ++ [r], .nothing) := by
      cases w with
      | valueAfterEquals name span => exact absurd rfl (hw name span)
      | nothing | value => rfl
    refine ⟨r, [r], .nothing, rfl, by rintro name span ⟨⟩, rfl, ?_⟩
    rw [JsxAttr.source, List.append_assoc, tagBody_blanks ha.1, List.cons_append,
      tagBody_value (tagHead?_braces hu next) htake, width_append, Nat.add_assoc]

/-- The attributes of a tag are read one after another. -/
theorem exists_tagBody_attributes {as : List JsxAttr} (has : ∀ a ∈ as, a.IsValid) {b : Text}
    (hb : IsBlankText b) (sc : Bool) (rest : Text) (n : Nat) {w : Waiting}
    (hw : ∀ name span, w ≠ .valueAfterEquals name span) :
    ∃ raws start, raws.map RawAttribute.written = as.map (RawAttribute.written ∘ JsxAttr.raw) ∧
      tagBody .jsx n w (as.flatMap JsxAttr.source ++ (b ++ (tagClose sc ++ rest))) =
        .ok ⟨w.valueless ++ raws,
          ⟨start, n + width (as.flatMap JsxAttr.source ++ (b ++ tagClose sc))⟩, sc, rest⟩ := by
  induction as generalizing n w with
  | nil =>
    refine ⟨[], n + width b, rfl, ?_⟩
    rw [List.flatMap_nil, List.nil_append, List.nil_append, tagBody_blanks hb, width_append,
      ← Nat.add_assoc, List.append_nil]
    cases sc <;> exact tagBody_close rfl
  | cons a as ih =>
    have has' := fun a' ha' => has a' (List.mem_cons_of_mem a ha')
    have hnext := startsNoWord_attributes has'
      (startsNoWord_blanks hb (startsNoWord_tagClose sc rest))
    obtain ⟨r, done, w', hwritten, hw', hdone, hattr⟩ :=
      exists_tagBody_attr (has a List.mem_cons_self) hnext n hw
    obtain ⟨raws, start, hraws, hbody⟩ := ih has' (n + width a.source) hw'
    refine ⟨r :: raws, start, by rw [List.map_cons, hwritten, hraws]; rfl, ?_⟩
    have hall : w.valueless ++ done ++ (w'.valueless ++ raws) = w.valueless ++ r :: raws := by
      rw [List.append_assoc, ← List.append_assoc done, hdone]
      rfl
    rw [List.flatMap_cons, List.append_assoc, hattr, hbody, List.append_assoc,
      width_append a.source, ← Nat.add_assoc, ← hall]
    rfl

theorem contentHead_source {g : JsxTag} (hg : g.IsValid) (sc : Bool) (rest : Text) :
    contentHead .jsx (g.source sc ++ rest) = .ok (some (.openTag g.name ('<' :: g.name)
      (g.attributes.flatMap JsxAttr.source ++ (g.blanks ++ (tagClose sc ++ rest))))) := by
  have hname := angleHead_name hg.name (startsNoWord_attributes hg.attributes
    (startsNoWord_blanks hg.blanks (startsNoWord_tagClose sc rest))).isNameChar
  have hsource : g.source sc ++ rest = '<' :: (g.name ++
      (g.attributes.flatMap JsxAttr.source ++ (g.blanks ++ (tagClose sc ++ rest)))) := by
    simp [JsxTag.source]
  rw [hsource, contentHead, hname]
  rfl

/-- **A tag is read as it was written.** -/
theorem exists_openTag_source {g : JsxTag} (hg : g.IsValid) (sc : Bool) (n : Nat) (rest : Text) :
    ∃ t : OpenTag, t.name = g.name ∧ t.selfClosing = sc ∧
      t.attributes.map RawAttribute.written =
        g.attributes.map (RawAttribute.written ∘ JsxAttr.raw) ∧
      (Lexeme.openTag t).stop = n + width (g.source sc) ∧
      scan .jsx n (g.source sc ++ rest) =
        (scan .jsx (n + width (g.source sc)) rest).cons (.openTag t) := by
  obtain ⟨raws, start, hraws, hbody⟩ := exists_tagBody_attributes hg.attributes hg.blanks sc rest
    (n + 1 + width g.name) (w := .nothing) nofun
  have hangle : '<'.utf8Size = 1 := rfl
  have hstop : n + 1 + width g.name +
      width (g.attributes.flatMap JsxAttr.source ++ (g.blanks ++ tagClose sc)) =
        n + width (g.source sc) := by
    rw [JsxTag.source, List.cons_append, width_cons, width_append g.name, hangle]
    omega
  rw [hstop] at hbody
  refine ⟨⟨g.name, ⟨n, n + 1 + width g.name⟩, raws, ⟨start, n + width (g.source sc)⟩, sc, none⟩,
    rfl, rfl, hraws, rfl, scan_openTag (contentHead_source hg sc rest) ?_⟩
  simp only [openTag, hbody]
  rw [if_neg (by simp)]
  rfl

/-! ## Markup -/

/-- Markup as it is written. -/
inductive Jsx
  | text (content : Text)
  /-- An expression or a comment, with its braces. -/
  | code (content : Text)
  /-- An element whose tag closes itself. -/
  | leaf (tag : JsxTag)
  /-- An element with a close tag, which has blanks behind the name. -/
  | element (tag : JsxTag) (children : List Jsx) (blanks : Text)
  | fragment (children : List Jsx)

namespace Jsx

mutual

/-- The text of markup. -/
def source : Jsx → Text
  | text content => content
  | code content => content
  | leaf tag => tag.source true
  | element tag children blanks =>
    tag.source false ++ (sources children ++ (CloseSource.mk tag.name blanks).source)
  | fragment children => ['<', '>'] ++ (sources children ++ ['<', '/', '>'])

/-- The text of children. -/
def sources : List Jsx → Text
  | [] => []
  | e :: es => source e ++ sources es

end

/-- Whether markup is text between tags. -/
def isText : Jsx → Bool
  | text _ => true
  | _ => false

/-- Whether markup is an element or a fragment. -/
def isRoot : Jsx → Bool
  | text _ | code _ => false
  | leaf _ | element .. | fragment _ => true

/-- Whether markup is an element with a close tag that has none in HTML. -/
def isVoidPair : Jsx → Bool
  | element tag _ _ => isVoid tag.name
  | text _ | code _ | leaf _ | fragment _ => false

mutual

/-- Tags and code are read as they are written, and texts stand between other things. -/
def IsValid : Jsx → Prop
  | text content => content ≠ [] ∧ content.all isPlain = true
  | code content => IsClosed content
  | leaf tag => tag.IsValid
  | element tag children blanks =>
    tag.IsValid ∧ blanks.all isCloseBlank = true ∧ AreValid children
  | fragment children => AreValid children

/-- All children are valid, and no two texts stand side by side. -/
def AreValid : List Jsx → Prop
  | [] => True
  | e :: es => e.IsValid ∧ (∀ x ∈ es.head?, e.isText = true → x.isText = false) ∧ AreValid es

end

mutual

/-- Whether some element with a close tag has none in HTML. -/
def hasVoidPair : Jsx → Bool
  | text _ | code _ | leaf _ => false
  | element tag children _ => isVoid tag.name || haveVoidPair children
  | fragment children => haveVoidPair children

/-- Whether some element of a list has a close tag and has none in HTML. -/
def haveVoidPair : List Jsx → Bool
  | [] => false
  | e :: es => hasVoidPair e || haveVoidPair es

end

theorem contentHead_close {g : JsxTag} (hg : g.IsValid) {blanks : Text}
    (hblanks : blanks.all isCloseBlank = true) (rest : Text) :
    contentHead .jsx ((CloseSource.mk g.name blanks).source ++ rest) =
      .ok (some (.closeTag g.name (CloseSource.mk g.name blanks).source rest)) :=
  contentHead_closeSource ⟨hg.name, hblanks, rfl⟩ rest

theorem opensMarkup_close {g : JsxTag} (hg : g.IsValid) {blanks : Text}
    (hblanks : blanks.all isCloseBlank = true) (rest : Text) :
    Reader.OpensMarkup ((CloseSource.mk g.name blanks).source ++ rest) :=
  ⟨_, contentHead_close hg hblanks rest, nofun⟩

/-- What is no text does not start like one. -/
theorem opensMarkup_source {e : Jsx} (he : e.IsValid) (htext : e.isText = false) (rest : Text) :
    Reader.OpensMarkup (e.source ++ rest) := by
  cases e with
  | text => cases htext
  | code content =>
    obtain ⟨u, rfl, hu⟩ := IsClosed.exists_cons he
    exact Reader.opensMarkup_expression hu rest
  | leaf tag => exact ⟨_, contentHead_source he true rest, nofun⟩
  | element tag children blanks =>
    rw [source, List.append_assoc]
    exact ⟨_, contentHead_source he.1 false _, nofun⟩
  | fragment children => exact ⟨.fragmentOpen ['<', '>'] _, rfl, nofun⟩

/-- A text at a byte, in front of another one, is cut into lexemes that match, among which there is an
element with a close tag that has none in HTML only if `pairs` says so. -/
def IsCut (s : Text) (pairs : Bool) (n : Nat) (rest : Text) : Prop :=
  ∃ ls, (scan .jsx n (s ++ rest)).lexemes = ls ++ (scan .jsx (n + width s) rest).lexemes ∧
    IsMatched ls ∧ (PairsVoid ls → pairs = true)

/-- The lexemes of an element. -/
theorem exists_lexemes_element {g : JsxTag} (hg : g.IsValid) {blanks : Text}
    (hblanks : blanks.all isCloseBlank = true) {inner : Text} {pairs : Bool} {n : Nat} {rest : Text}
    (hinner : IsCut inner pairs (n + width (g.source false))
      ((CloseSource.mk g.name blanks).source ++ rest)) :
    ∃ t ls span, t.name = g.name ∧ t.selfClosing = false ∧
      (Lexeme.openTag t).stop = n + width (g.source false) ∧ IsMatched ls ∧
      (PairsVoid ls → pairs = true) ∧
      span.stop = n + width (g.source false ++ (inner ++ (CloseSource.mk g.name blanks).source)) ∧
      (scan .jsx n (g.source false ++ (inner ++ (CloseSource.mk g.name blanks).source) ++
        rest)).lexemes = .openTag t :: (ls ++ .closeTag t.name span :: (scan .jsx span.stop
          rest).lexemes) := by
  obtain ⟨ls, hlexemes, hmatched, hpairs⟩ := hinner
  obtain ⟨t, hname, hself, -, hstop, hscan⟩ := exists_openTag_source hg false n
    (inner ++ ((CloseSource.mk g.name blanks).source ++ rest))
  have hclose := scan_closeTag (n := n + width (g.source false) + width inner)
    (contentHead_close hg hblanks rest)
  refine ⟨t, ls, ⟨n + width (g.source false) + width inner, n + width (g.source false) +
    width inner + width (CloseSource.mk g.name blanks).source⟩, hname, hself, hstop, hmatched,
    hpairs, by simp only [width_append, Nat.add_assoc], ?_⟩
  rw [List.append_assoc, List.append_assoc, hscan, Scan.cons, hlexemes, hclose, hname]
  rfl

/-- The lexemes of a fragment. -/
theorem exists_lexemes_fragment {inner : Text} {pairs : Bool} {n : Nat} {rest : Text}
    (hinner : IsCut inner pairs (n + width ['<', '>']) (['<', '/', '>'] ++ rest)) :
    ∃ ls span span', IsMatched ls ∧ (PairsVoid ls → pairs = true) ∧
      span'.stop = n + width (['<', '>'] ++ (inner ++ ['<', '/', '>'])) ∧
      (scan .jsx n (['<', '>'] ++ (inner ++ ['<', '/', '>']) ++ rest)).lexemes =
        .fragmentOpen span :: (ls ++ .fragmentClose span' :: (scan .jsx span'.stop
          rest).lexemes) := by
  obtain ⟨ls, hlexemes, hmatched, hpairs⟩ := hinner
  have hopen : contentHead .jsx (['<', '>'] ++ (inner ++ (['<', '/', '>'] ++ rest))) =
      .ok (some (.fragmentOpen ['<', '>'] (inner ++ (['<', '/', '>'] ++ rest)))) := rfl
  have hclose : contentHead .jsx (['<', '/', '>'] ++ rest) =
      .ok (some (.fragmentClose ['<', '/', '>'] rest)) := rfl
  refine ⟨ls, ⟨n, n + width ['<', '>']⟩, ⟨n + width ['<', '>'] + width inner,
    n + width ['<', '>'] + width inner + width ['<', '/', '>']⟩, hmatched, hpairs,
    by simp only [width_append, Nat.add_assoc], ?_⟩
  rw [List.append_assoc, List.append_assoc, scan_fragmentOpen hopen, Scan.cons, hlexemes,
    scan_fragmentClose hclose]
  rfl

mutual

/-- **Markup is cut into lexemes that match.** -/
theorem isCut {e : Jsx} (he : e.IsValid) (n : Nat) {rest : Text}
    (hrest : e.isText = true → Reader.OpensMarkup rest) :
    IsCut e.source e.hasVoidPair n rest := by
  cases e with
  | text content =>
    refine ⟨[.text content ⟨n, n + width content⟩], ?_, .text .nil, ?_⟩
    · rw [source, Reader.scan_running he.2 he.1 (hrest rfl)]
      rfl
    · rintro ⟨t, ht, -⟩
      cases List.mem_singleton.1 ht
  | code content =>
    obtain ⟨u, rfl, hu⟩ := IsClosed.exists_cons he
    have hhead := contentHead_expression (closeBraces?_congr hu rest)
    refine ⟨[.expression ('\x7b' :: u) ⟨n, n + width ('\x7b' :: u)⟩], ?_, .expression .nil, ?_⟩
    · rw [source, List.cons_append, scan_expression hhead]
      rfl
    · rintro ⟨t, ht, -⟩
      cases List.mem_singleton.1 ht
  | leaf tag =>
    obtain ⟨t, -, hself, -, -, hscan⟩ := exists_openTag_source he true n rest
    refine ⟨[.openTag t], ?_, .leaf hself .nil, ?_⟩
    · rw [source, hscan]
      rfl
    · rintro ⟨u, hu, hpaired, -⟩
      cases List.mem_singleton.1 hu
      rw [hself] at hpaired
      cases hpaired
  | element tag children blanks =>
    obtain ⟨hg, hblanks, hchildren⟩ := he
    obtain ⟨t, ls, span, hname, hself, -, hmatched, hpairs, hstop, hlexemes⟩ :=
      exists_lexemes_element hg hblanks (isCut_sources hchildren (n + width (tag.source false))
        (opensMarkup_close hg hblanks rest))
    refine ⟨.openTag t :: (ls ++ [.closeTag t.name span]), ?_, .element hself hmatched .nil, ?_⟩
    · rw [source, hlexemes, hstop]
      simp
    · rintro ⟨u, hu, hpaired, hvoid⟩
      rw [hasVoidPair, Bool.or_eq_true_iff]
      simp only [List.mem_cons, List.mem_append, Lexeme.openTag.injEq, reduceCtorEq,
        List.not_mem_nil, or_false] at hu
      obtain rfl | hu := hu
      · exact .inl (hname ▸ hvoid)
      · exact .inr (hpairs ⟨u, hu, hpaired, hvoid⟩)
  | fragment children =>
    obtain ⟨ls, span, span', hmatched, hpairs, hstop, hlexemes⟩ := exists_lexemes_fragment
      (isCut_sources he (n + width ['<', '>']) (Reader.opensMarkup_fragmentClose rest))
    refine ⟨.fragmentOpen span :: (ls ++ [.fragmentClose span']), ?_, .fragment hmatched .nil, ?_⟩
    · rw [source, hlexemes, hstop]
      simp
    · rintro ⟨u, hu, hpaired, hvoid⟩
      simp only [List.mem_cons, List.mem_append, reduceCtorEq, List.not_mem_nil, or_false,
        false_or] at hu
      exact hpairs ⟨u, hu, hpaired, hvoid⟩

/-- Children are cut into lexemes that match. -/
theorem isCut_sources {es : List Jsx} (hes : AreValid es) (n : Nat) {rest : Text}
    (hrest : Reader.OpensMarkup rest) : IsCut (sources es) (haveVoidPair es) n rest := by
  cases es with
  | nil => exact ⟨[], rfl, .nil, fun ⟨_, h, _⟩ => by cases h⟩
  | cons e es =>
    obtain ⟨he, hnext, hes⟩ := hes
    have hopens : e.isText = true → Reader.OpensMarkup (sources es ++ rest) := fun htext => by
      cases es with
      | nil => exact hrest
      | cons x es =>
        rw [sources, List.append_assoc]
        exact opensMarkup_source hes.1 (hnext x rfl htext) _
    obtain ⟨ls, hlexemes, hmatched, hpairs⟩ := isCut he n hopens
    obtain ⟨ms, hlexemes', hmatched', hpairs'⟩ := isCut_sources hes (n + width e.source) hrest
    refine ⟨ls ++ ms, ?_, hmatched.append hmatched', ?_⟩
    · rw [sources, List.append_assoc, hlexemes, hlexemes', width_append, List.append_assoc,
        Nat.add_assoc]
    · rintro ⟨t, ht, hvoid⟩
      rw [haveVoidPair, Bool.or_eq_true_iff]
      exact (List.mem_append.1 ht).imp (fun ht => hpairs ⟨t, ht, hvoid⟩)
        fun ht => hpairs' ⟨t, ht, hvoid⟩

end

end Jsx

end MarkupSync
