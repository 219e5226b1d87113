import MarkupSync.Proofs.Document.Flow
import MarkupSync.Proofs.Document.Indent
import MarkupSync.Proofs.Document.JsxSource
import MarkupSync.Proofs.Document.Spans
import MarkupSync.Proofs.Script.Grammar
import MarkupSync.Proofs.Text.Range
import MarkupSync.Script.Component

/-!
# The region of a module's markup

The markup of a module is located as an expression of its script and then read as markup.

* `Located.markup?`, `Located.componentOf?`: the markup that an expression is, and that a component
  renders;
* **`Script.located_locateMarkup`**: the bytes of a module's markup lie between its characters;
* `Document.isSound_of_readScript`: the document of a module has sound places;
* `Jsx.readRootAt_cases`: markup is read up to its end, or not at all;
* `Jsx.exists_readRootAt_void`: of an element with a close tag that has none in HTML only the open
  tag is read;
* `Document.not_region_of_readScript`: a component that is called like such an element;
* **`Document.region_of_readScript`**: otherwise the region that is read is the one that was located.
-/

namespace MarkupSync

namespace Script

variable {s : Text} {e : Expr} {r : Span}

/-! ## Components -/

theorem Located.bare (h : Located s e) : Located s e.bare := by
  fun_induction Expr.bare e with
  | case1 e ih =>
    cases h.areIn with
    | parenthesized he => exact ih ⟨he⟩
  | case2 => exact h

theorem Located.markup? (h : Located s e) (hr : e.markup? = some r) : Located s r := by
  unfold Expr.markup? at hr
  split at hr
  next span hspan =>
    cases hr
    have hbare := h.bare
    rw [hspan] at hbare
    cases hbare.areIn with
    | markup h => exact ⟨h⟩
  next => cases hr

/-- The markup that a function body returns. -/
theorem Located.finalMarkup? {body : List Stmt} (h : Located s body)
    (hr : finalMarkup? body = some r) : Located s r := by
  unfold Script.finalMarkup? at hr
  split at hr
  next e he =>
    obtain ⟨stmt, hstmt, hreturned⟩ := List.exists_of_findSome?_eq_some he
    have hstmt := h.areIn stmt (List.mem_reverse.1 hstmt)
    unfold Stmt.returned? at hreturned
    split at hreturned
    next =>
      cases hreturned
      cases hstmt with
      | returns ho => exact Located.markup? ⟨ho e rfl⟩ hr
    next => cases hreturned
  next => cases hr

/-- The markup that a function returns, if it has a body. -/
theorem Located.bind_finalMarkup? {body : Option (List Stmt)} (h : Located s body)
    (hr : body.bind Script.finalMarkup? = some r) : Located s r := by
  obtain ⟨b, rfl, hr⟩ := Option.bind_eq_some_iff.1 hr
  exact h.of_some.finalMarkup? hr

instance : HasPlaces Declared where
  areIn
    | source, .function _ body => HasPlaces.areIn source body
    | source, .bound _ value => HasPlaces.areIn source value

theorem Located.of_find? {declared : List Declared} {d : Declared} {p : Declared → Bool}
    (h : Located s declared) (hd : declared.find? p = some d) : Located s d :=
  h.of_mem (List.mem_of_find?_eq_some hd)

/-- The markup of a component. -/
theorem Located.componentOf? {declared : List Declared} (hdeclared : Located s declared) {n : Nat}
    (h : Located s e) (hr : componentOf? declared n e = some r) : Located s r := by
  induction n using Nat.strongRecOn generalizing e r with
  | _ n ih =>
    have hbare : e.bare.StandsIn s := h.bare.areIn
    unfold Script.componentOf? at hr
    split at hr
    case h_1 x he =>
      rw [he] at hbare
      have .arrow (.expression hx) := hbare
      exact Located.markup? ⟨hx⟩ hr
    case h_2 body he =>
      rw [he] at hbare
      have .arrow (.block hbody) := hbare
      exact Located.finalMarkup? ⟨hbody⟩ hr
    case h_3 body he =>
      rw [he] at hbare
      have .function hbody := hbare
      exact Located.finalMarkup? ⟨hbody⟩ hr
    case h_4 arguments he =>
      rw [he] at hbare
      have .call harguments := hbare
      split at hr
      · cases hr
      next m =>
        obtain ⟨a, ha, hr⟩ := List.exists_of_findSome?_eq_some hr
        obtain ⟨b, hb, hab⟩ := List.mem_filterMap.1 ha
        have hb := harguments b (List.mem_reverse.1 hb)
        unfold plainArgument? at hab
        split at hab
        · cases hab
        · cases hab
          exact ih m (Nat.lt_succ_self m) ⟨hb⟩ hr
    case h_5 properties he =>
      rw [he] at hbare
      have .object hproperties := hbare
      split at hr
      · cases hr
      next m =>
        obtain ⟨a, ha, hr⟩ := List.exists_of_findSome?_eq_some hr
        obtain ⟨b, hb, hab⟩ := List.mem_filterMap.1 ha
        have hb := hproperties b hb
        unfold renderValue? at hab
        split at hab
        · split at hab
          · cases hab
            have .named _ hvalue := hb
            exact ih m (Nat.lt_succ_self m) ⟨hvalue⟩ hr
          · cases hab
        · cases hab
    case h_6 name he =>
      split at hr
      next hfind => exact Located.bind_finalMarkup? ⟨(hdeclared.of_find? hfind).areIn⟩ hr
      next m hfind =>
        obtain ⟨value, rfl, hr⟩ := Option.bind_eq_some_iff.1 hr
        exact ih m (Nat.lt_succ_self m) ⟨(hdeclared.of_find? hfind).areIn value rfl⟩ hr
      next => cases hr
    case h_7 => cases hr

/-! ## Modules -/

theorem Located.ofDeclaration {stmt : Stmt} (h : Located s stmt) :
    Located s (Declared.ofDeclaration stmt) := by
  refine ⟨fun d hd => ?_⟩
  unfold Declared.ofDeclaration at hd
  split at hd
  next name body =>
    obtain rfl := List.mem_singleton.1 hd
    have .function _ hbody : Stmt.StandsIn s _ := h.areIn
    exact hbody
  next ds =>
    obtain ⟨⟨name, value⟩, hmem, rfl⟩ := List.mem_map.1 hd
    have .variables hds : Stmt.StandsIn s _ := h.areIn
    have .mk _ hvalue := hds _ hmem
    exact hvalue
  next => cases hd

theorem Located.ofStatement {stmt : Stmt} (h : Located s stmt) :
    Located s (Declared.ofStatement stmt) := by
  unfold Declared.ofStatement
  split
  next =>
    have .exported hdeclaration : Stmt.StandsIn s _ := h.areIn
    exact Located.ofDeclaration ⟨hdeclaration⟩
  next => exact h.ofDeclaration

/-- The markup of a module. -/
theorem Located.moduleMarkup? {statements : List Stmt} (h : Located s statements)
    (hr : moduleMarkup? statements = some r) : Located s r := by
  unfold Script.moduleMarkup? at hr
  extract_lets declared at hr
  have hdeclared : Located s declared := by
    refine ⟨fun d hd => ?_⟩
    obtain ⟨stmt, hstmt, hd⟩ := List.mem_flatMap.1 hd
    exact (h.of_mem hstmt).ofStatement.areIn d hd
  obtain hr | ⟨-, hr⟩ := Option.or_eq_some_iff.1 hr
  · obtain ⟨e, he, hr⟩ := Option.bind_eq_some_iff.1 hr
    obtain ⟨stmt, hstmt, hexport⟩ := List.exists_of_findSome?_eq_some he
    have hstmt := h.areIn stmt hstmt
    unfold Stmt.defaultExport? at hexport
    split at hexport
    next =>
      cases hexport
      have .exportedDefault hexported : Stmt.StandsIn s _ := hstmt
      unfold DefaultExport.markup? at hr
      split at hr
      next =>
        have .function hbody := hexported
        exact Located.bind_finalMarkup? ⟨hbody⟩ hr
      next =>
        have .expression hx := hexported
        exact hdeclared.componentOf? ⟨hx⟩ hr
      next => cases hr
    next => cases hexport
  · obtain ⟨d, hd, hr⟩ := List.exists_of_findSome?_eq_some hr
    have hd := hdeclared.areIn d (List.mem_reverse.1 hd)
    unfold Declared.markup? at hr
    split at hr
    next => exact Located.bind_finalMarkup? ⟨hd⟩ hr
    next =>
      obtain ⟨value, rfl, hr⟩ := Option.bind_eq_some_iff.1 hr
      exact hdeclared.componentOf? ⟨hd value rfl⟩ hr

/-- **The bytes of a module's markup lie between its characters.** -/
theorem located_locateMarkup (h : locateMarkup s = .ok r) :
    Text.Boundary r.start s ∧ Text.Boundary r.stop s := by
  unfold locateMarkup at h
  split at h
  · cases h
  next statements hstatements =>
    split at h
    · cases h
    next hr =>
      cases h
      exact ((located_readModule? hstatements).moduleMarkup? hr).areIn

end Script

namespace Document

/-- No element starts with an empty text. -/
theorem lt_of_readRootWithin {flavor : Flavor} {region : Span} {s : Text} {x : Document × Nat}
    (h : readRootWithin flavor region s = .ok x) : region.start < region.stop := by
  by_contra hle
  have hnil : s.at region = [] := by
    rw [Text.at, Text.slice, Nat.sub_eq_zero_of_le (Nat.le_of_not_lt hle)]
    exact Text.before_zero _
  rw [readRootWithin, hnil, readRootAt, scan_nil] at h
  cases h

/-- The document of a module has sound places. -/
theorem isSound_of_readScript {s : Text} {d : Document} {r : Span} (h : readScript s = .ok (d, r)) :
    ∃ region, d.IsSound .jsx s region := by
  rw [readScript] at h
  split at h
  · cases h
  next region hregion =>
    split at h
    · cases h
    next d' stop hread =>
      cases h
      obtain ⟨hstart, hstop⟩ := Script.located_locateMarkup hregion
      refine ⟨region, isSound_readRootWithin ?_ hstart hstop hread⟩
      exact Nat.le_of_lt (lt_of_readRootWithin hread)

end Document

/-! ## Markup that is read where it was located -/

open Text

/-- What is read of a text, by what its lexemes are read up to. -/
theorem Document.readRootAt_cases {n : Nat} {s : Text} {l last : Lexeme} {ls : List Lexeme} {P : Prop}
    (hls : (scan .jsx n s).lexemes = l :: ls) (hl : l.OpensRoot)
    (h : (∃ nodes, Reader.start.untilClosed .jsx (scan .jsx n s).fault (l :: ls) =
        .ok (nodes, last)) ∨
      P ∧ ∃ e, Reader.start.untilClosed .jsx (scan .jsx n s).fault (l :: ls) = .error e) :
    (∃ d, readRootAt .jsx n s = .ok (d, last.stop)) ∨ P ∧ ∀ d, readRootAt .jsx n s ≠ .ok d := by
  rw [← hls] at h
  obtain ⟨nodes, hread⟩ | ⟨hp, e, hread⟩ := h
  · obtain ⟨d, hd, -⟩ := exists_readRootAt hls hl hread
    exact .inl ⟨d, hd⟩
  · refine .inr ⟨hp, fun (d, stop) hd => ?_⟩
    obtain ⟨_, _, nodes, last', -, -, hread', -⟩ := exists_of_readRootAt hd
    rw [hread] at hread'
    cases hread'

namespace Jsx

/-- Markup that starts with a tag or a fragment is read up to its end, or the close tag of an element
that has none in HTML is refused. -/
theorem readRootAt_cases {e : Jsx} (he : e.IsValid) (hroot : e.isRoot = true)
    (hvoid : e.isVoidPair = false) (n : Nat) :
    (∃ d, Document.readRootAt .jsx n e.source = .ok (d, n + width e.source)) ∨
      e.hasVoidPair = true ∧ ∀ d, Document.readRootAt .jsx n e.source ≠ .ok d := by
  cases e with
  | text | code => cases hroot
  | leaf tag =>
    obtain ⟨t, -, hself, -, hstop, hscan⟩ := exists_openTag_source he true n []
    rw [List.append_nil] at hscan
    rw [source, ← hstop]
    exact Document.readRootAt_cases (congrArg Scan.lexemes hscan) trivial
      (.inl (Reader.untilClosed_leaf (Bool.or_eq_true_iff.2 (.inl hself)) _ _))
  | element tag children blanks =>
    obtain ⟨hg, hblanks, hchildren⟩ := he
    obtain ⟨t, ls, span, hname, hself, -, hmatched, hpairs, hstop, hlexemes⟩ :=
      exists_lexemes_element hg hblanks (isCut_sources hchildren (n + width (tag.source false))
        (opensMarkup_close hg hblanks []))
    have hleaf : (t.selfClosing || isVoid t.name) = false :=
      Bool.or_eq_false_iff.2 ⟨hself, hname ▸ hvoid⟩
    rw [List.append_nil] at hlexemes
    rw [source, ← hstop]
    have hpair (h : PairsVoid ls) : (element tag children blanks).hasVoidPair = true := by
      rw [hasVoidPair, hpairs h, Bool.or_true]
    exact Document.readRootAt_cases hlexemes trivial
      ((Reader.untilClosed_element hleaf hmatched _ _).imp_right (And.imp_left hpair))
  | fragment children =>
    obtain ⟨ls, span, span', hmatched, hpairs, hstop, hlexemes⟩ := exists_lexemes_fragment
      (isCut_sources he (n + width ['<', '>']) (Reader.opensMarkup_fragmentClose []))
    rw [List.append_nil] at hlexemes
    rw [source, ← hstop]
    exact Document.readRootAt_cases hlexemes trivial
      ((Reader.untilClosed_fragment hmatched _ _).imp_right (And.imp_left hpairs))

/-- Of an element with a close tag that has none in HTML only the open tag is read. -/
theorem exists_readRootAt_void {tag : JsxTag} (htag : tag.IsValid) (hvoid : isVoid tag.name = true)
    (n : Nat) (rest : Text) :
    ∃ d, Document.readRootAt .jsx n (tag.source false ++ rest) =
      .ok (d, n + width (tag.source false)) := by
  obtain ⟨t, hname, -, -, hstop, hscan⟩ := exists_openTag_source htag false n rest
  rw [← hstop]
  obtain h | ⟨h, -⟩ := Document.readRootAt_cases (P := False) (congrArg Scan.lexemes hscan) trivial
    (.inl (Reader.untilClosed_leaf (Bool.or_eq_true_iff.2 (.inr (hname ▸ hvoid))) _ _))
  · exact h
  · exact h.elim

end Jsx

namespace Document

variable {s : Text} {region : Span} {e : Jsx}

/-- What is read of a module whose markup was located. -/
theorem readScript_eq (hlocate : Script.locateMarkup s = .ok region)
    (hs : s.Holds region e.source) :
    readScript s = (readRootAt .jsx region.start e.source).map fun (d, stop) =>
      (d, ⟨region.start, stop⟩) := by
  rw [readScript, hlocate]
  simp only [readRootWithin, hs.at_eq]
  cases readRootAt .jsx region.start e.source <;> rfl

/-- A component with the name of an element that has no close tag in HTML: its markup is taken to end
behind the open tag. -/
theorem not_region_of_readScript :
    let s : Text := "const A = () => <Link>Go</Link>;".toList
    ∃ (e : Jsx) (region : Span) (d : Document) (r : Span), e.IsValid ∧ e.isRoot = true ∧
      Script.locateMarkup s = .ok region ∧ s.Holds region e.source ∧
      readScript s = .ok (d, r) ∧ r ≠ region := by
  intro s
  have hlocate : (Script.locateMarkup s).toOption = some ⟨16, 31⟩ := by decide +kernel
  have hread : (readScript s).toOption.map Prod.snd = some ⟨16, 22⟩ := by decide +kernel
  obtain ⟨⟨d, r⟩, hd, rfl⟩ := Option.map_eq_some_iff.1 hread
  refine ⟨.element ⟨"Link".toList, [], []⟩ [.text "Go".toList] [], ⟨16, 31⟩, d, _, ?_, rfl,
    eq_ok_of_toOption hlocate, ⟨"const A = () => ".toList, [';'], rfl, rfl⟩,
    eq_ok_of_toOption hd, by decide⟩
  exact ⟨⟨⟨by decide, by decide⟩, nofun, nofun⟩, rfl, ⟨by decide, by decide⟩, nofun, trivial⟩

/-- **The region that is read is the one that was located**, and all of its markup is read if no
element has a close tag that has none in HTML. If the markup itself is such an element, in whatever
letter case, only its open tag is read. -/
theorem region_of_readScript (hlocate : Script.locateMarkup s = .ok region) (he : e.IsValid)
    (hroot : e.isRoot = true) (hs : s.Holds region e.source) :
    (e.isVoidPair = false → ∀ d r, readScript s = .ok (d, r) → r = region) ∧
    (e.hasVoidPair = false → ∃ d, readScript s = .ok (d, region)) ∧
    ∀ tag children blanks, e = .element tag children blanks → isVoid tag.name = true →
      ∃ d r, readScript s = .ok (d, r) ∧ s.Holds r (tag.source false) := by
  rw [readScript_eq hlocate hs]
  have hregion : region = ⟨region.start, region.start + width e.source⟩ := by
    rw [← hs.stop_eq]
  refine ⟨fun hvoid d r h => ?_, fun hpairs => ?_, ?_⟩
  · obtain ⟨d', hd'⟩ | ⟨-, hrefused⟩ := Jsx.readRootAt_cases he hroot hvoid region.start
    · rw [hd'] at h
      cases h
      exact hregion.symm
    · cases hread : readRootAt .jsx region.start e.source with
      | error f =>
        rw [hread] at h
        cases h
      | ok x => exact absurd hread (hrefused x)
  · have hvoid : e.isVoidPair = false := by
      cases e with
      | element => exact (Bool.or_eq_false_iff.1 hpairs).1
      | text | code | leaf | fragment => rfl
    obtain ⟨d, hd⟩ | ⟨hpairs', -⟩ := Jsx.readRootAt_cases he hroot hvoid region.start
    · rw [hd]
      exact ⟨d, congrArg (fun r => Except.ok (d, r)) hregion.symm⟩
    · rw [hpairs] at hpairs'
      cases hpairs'
  · rintro tag children blanks rfl hvoid
    obtain ⟨d, hd⟩ := Jsx.exists_readRootAt_void he.1 hvoid region.start
      (Jsx.sources children ++ (CloseSource.mk tag.name blanks).source)
    rw [Jsx.source, hd]
    exact ⟨d, _, rfl, hs.left⟩

/-- A component with an attribute, spread properties, a text, code and an element that closes
itself. -/
theorem region_of_readScript_card :
    let s : Text :=
      "const A = () => <Card id=\"a\"\x7b...x\x7d>Go \x7bn\x7d<br /></Card >;".toList
    ∃ (e : Jsx) (region : Span), e.IsValid ∧ e.isRoot = true ∧ Script.locateMarkup s = .ok region ∧
      s.Holds region e.source ∧ ∃ d, readScript s = .ok (d, region) := by
  intro s
  have hlocate : (Script.locateMarkup s).toOption = some ⟨16, 55⟩ := by decide +kernel
  have hblank : IsBlankText [' '] := isBlankText_cons.2 ⟨rfl, isBlankText_nil⟩
  let id : AttrSource := ⟨[' '], "id".toList, some ⟨[], [], .double, ['a']⟩⟩
  have hquotes : Quoting.double.Admits ['a'] := show '"' ∉ ['a'] by decide
  have hid : id.IsValid :=
    ⟨nofun, hblank, nofun, by decide, by
      rintro _ ⟨⟩
      exact ⟨isBlankText_nil, isBlankText_nil, hquotes⟩⟩
  let card : JsxTag := ⟨"Card".toList, [.named id, .spread [] "\x7b...x\x7d".toList], []⟩
  have hspread : (JsxAttr.spread [] "\x7b...x\x7d".toList).IsValid :=
    ⟨isBlankText_nil, show IsClosed _ by decide⟩
  have hcard : card.IsValid :=
    ⟨⟨by decide, by decide⟩, List.forall_mem_cons.2 ⟨⟨nofun, hid.isRead .jsx⟩,
      List.forall_mem_cons.2 ⟨hspread, nofun⟩⟩, isBlankText_nil⟩
  let e : Jsx := .element card
    [.text "Go ".toList, .code "\x7bn\x7d".toList, .leaf ⟨"br".toList, [], [' ']⟩] [' ']
  have hcode : (Jsx.code "\x7bn\x7d".toList).IsValid := show IsClosed _ by decide
  have hbreak : (Jsx.leaf ⟨"br".toList, [], [' ']⟩).IsValid :=
    ⟨⟨by decide, by decide⟩, nofun, hblank⟩
  have he : e.IsValid :=
    ⟨hcard, rfl, ⟨nofun, by decide⟩, by decide, hcode, by decide, hbreak, nofun, trivial⟩
  have hs : s.Holds ⟨16, 55⟩ e.source :=
    ⟨"const A = () => ".toList, [';'], by decide +kernel, by decide +kernel⟩
  have hregion := region_of_readScript (eq_ok_of_toOption hlocate) he rfl hs
  exact ⟨e, _, he, rfl, eq_ok_of_toOption hlocate, hs, hregion.2.1 rfl⟩

end Document

end MarkupSync
