import MarkupSync.Proofs.Document.JsxSource
import MarkupSync.Proofs.Document.Marks
import MarkupSync.Proofs.Printer.JsxDocument

/-!
# Printing keeps data and code apart

* `Adds`: a text that says something wherever it stands, literals cut into their letters;
* `adds_running`, `adds_expression`, `adds_openTag`, `adds_closeTag`: running text, expressions and
  tags;
* `Printer.jsxTag`: a printed tag as it is read (`attrMarks_jsxTag`);
* `Printer.adds_node`: a printed tree;
* **`Document.marks_print`**: what is printed of a document says what the markup says that the
  document was read from, if nothing but code looks like code in it;
* `Document.not_marks_print`: a literal in braces is printed as code, and the object of a style can
  be left open.
-/

namespace MarkupSync

open Text

/-! ## Texts that say something -/

/-- Wherever the text stands, it says `ms`, with literals cut into their letters. -/
def Adds (x : Text) (ms : List Mark) : Prop :=
  ∀ n rest, (scan .jsx n (x ++ rest)).fault = (scan .jsx (n + width x) rest).fault ∧
    (marks (scan .jsx n (x ++ rest)).lexemes).flatMap Mark.letters =
      ms.flatMap Mark.letters ++
        (marks (scan .jsx (n + width x) rest).lexemes).flatMap Mark.letters

variable {x y : Text} {ms ks : List Mark}

theorem adds_nil : Adds [] [] := fun _ _ => ⟨rfl, rfl⟩

theorem Adds.append (hx : Adds x ms) (hy : Adds y ks) : Adds (x ++ y) (ms ++ ks) := by
  intro n rest
  obtain ⟨hfault, hmarks⟩ := hx n (y ++ rest)
  obtain ⟨hfault', hmarks'⟩ := hy (n + width x) rest
  rw [List.append_assoc, width_append, ← Nat.add_assoc, List.flatMap_append, List.append_assoc]
  exact ⟨hfault.trans hfault', by rw [hmarks, hmarks']⟩

/-- A lexeme that is no text. -/
theorem adds_lexeme {l : Lexeme} {n : Nat} {rest : Text}
    (hscan : scan .jsx n (x ++ rest) = (scan .jsx (n + width x) rest).cons l)
    (hl : ∀ content span, l ≠ .text content span) :
    (scan .jsx n (x ++ rest)).fault = (scan .jsx (n + width x) rest).fault ∧
      (marks (scan .jsx n (x ++ rest)).lexemes).flatMap Mark.letters =
        l.marks.flatMap Mark.letters ++
          (marks (scan .jsx (n + width x) rest).lexemes).flatMap Mark.letters := by
  refine ⟨by rw [hscan]; rfl, ?_⟩
  rw [hscan, Scan.cons, marks, marksFrom_cons hl, literalMarks_nil, List.nil_append,
    List.flatMap_append, marks]

/-! ## Running text -/

/-- A text starts with its running text, if there is any. -/
theorem scan_textRun (n : Nat) (s : Text) : textRun .jsx s = ([], s) ∨
    scan .jsx n s = (scan .jsx (n + width (textRun .jsx s).1) (textRun .jsx s).2).cons
      (.text (textRun .jsx s).1 ⟨n, n + width (textRun .jsx s).1⟩) := by
  by_cases h : ∃ p r, contentHead .jsx s = .ok (some (.plain p r))
  · obtain ⟨p, r, h⟩ := h
    rw [textRun_plain h]
    exact .inr (scan_plain h)
  · exact .inl (textRun_of_ne_plain fun p r hp => h ⟨p, r, hp⟩)

theorem contentHead_running_append (hx : x.all isPlain = true) (hne : x ≠ []) (rest : Text) :
    contentHead .jsx (x ++ rest) =
      .ok (some (.plain (x ++ rest.takeWhile isPlain) (rest.dropWhile isPlain))) := by
  obtain ⟨c, x, rfl⟩ := List.exists_cons_of_ne_nil hne
  obtain ⟨hc, hx⟩ := List.forall_mem_cons.1 (List.all_eq_true.1 hx)
  rw [List.cons_append, contentHead_of_isPlain hc, List.takeWhile_append_of_pos hx,
    List.dropWhile_append_of_pos hx, List.cons_append]

/-- Running text goes on with the running text behind it. -/
theorem textRun_running (hx : x.all isPlain = true) (hne : x ≠ []) (rest : Text) :
    textRun .jsx (x ++ rest) = (x ++ (textRun .jsx rest).1, (textRun .jsx rest).2) := by
  rw [textRun_plain (contentHead_running_append hx hne rest)]
  cases rest with
  | nil => simp
  | cons c rest =>
    cases hc : isPlain c with
    | false => simp [hc]
    | true =>
      rw [textRun_plain (contentHead_of_isPlain hc rest)]
      simp [hc]

theorem scan_running_append (hx : x.all isPlain = true) (hne : x ≠ []) (n : Nat) (rest : Text) :
    scan .jsx n (x ++ rest) =
      (scan .jsx (n + width (x ++ (textRun .jsx rest).1)) (textRun .jsx rest).2).cons
        (.text (x ++ (textRun .jsx rest).1) ⟨n, n + width (x ++ (textRun .jsx rest).1)⟩) := by
  have hrun := textRun_running hx hne rest
  obtain h | h := scan_textRun n (x ++ rest)
  · rw [hrun] at h
    exact absurd (List.append_eq_nil_iff.1 (Prod.mk.inj h).1).1 hne
  · rwa [hrun] at h

/-- **Running text adds its letters**, whatever text follows it. -/
theorem adds_running (hx : x.all isPlain = true) (hapart : x.IsReadApart)
    (hms : ms.flatMap Mark.letters = (letters (decodeEntities x)).map fun c => .literal [c]) :
    Adds x ms := by
  intro n rest
  by_cases hne : x = []
  · subst hne
    rw [hms]
    exact ⟨rfl, rfl⟩
  have hscan := scan_running_append hx hne n rest
  rw [width_append, ← Nat.add_assoc] at hscan
  rw [hscan, hms]
  obtain h | h := scan_textRun (n + width x) rest
  · refine ⟨by rw [h]; rfl, ?_⟩
    have := letters_marksFrom hapart [] (scan .jsx (n + width x) rest).lexemes
    rw [List.append_nil] at this
    rw [h]
    simpa [Scan.cons, marks, marksFrom] using this
  · refine ⟨by rw [h]; rfl, ?_⟩
    rw [h]
    exact letters_marksFrom hapart _ _

/-- A written text adds the text. -/
theorem adds_escapeExpressionText (t : Text) : Adds (escapeExpressionText t) [.literal t] := by
  refine adds_running (isPlain_escapeExpressionText t) (isReadApart_escapeExpressionText t) ?_
  rw [decodeEntities_escapeExpressionText, List.flatMap_singleton, Mark.letters]

/-- Blanks add nothing. -/
theorem adds_blank (hx : x.all isPlain = true) (hblank : IsBlankText x) : Adds x [] := by
  refine adds_running hx (isReadApart_of_blank hblank) ?_
  rw [decodeEntities_of_blank hblank, letters_of_blank hblank]
  rfl

/-! ## Expressions and tags -/

/-- Code adds itself. -/
theorem adds_expression {t : Text} (ht : IsClosed t) : Adds t [.code t] := by
  intro n rest
  obtain ⟨s, rfl, hs⟩ := ht.exists_cons
  have hhead := contentHead_expression (closeBraces?_congr hs rest)
  exact adds_lexeme (scan_expression hhead) nofun

theorem adds_closeTag {tag : Text} (htag : IsTagName tag) :
    Adds (CloseSource.mk tag []).source [.closed] := by
  intro n rest
  have hhead : contentHead .jsx ((CloseSource.mk tag []).source ++ rest) =
      .ok (some (.closeTag tag (CloseSource.mk tag []).source rest)) :=
    contentHead_closeSource ⟨htag, rfl, rfl⟩ rest
  exact adds_lexeme (scan_closeTag hhead) nofun

theorem adds_fragmentOpen : Adds ['<', '>'] [] := fun n rest =>
  adds_lexeme (scan_fragmentOpen (r := rest) rfl) nofun

theorem adds_fragmentClose : Adds ['<', '/', '>'] [] := fun n rest =>
  adds_lexeme (scan_fragmentClose (r := rest) rfl) nofun

/-- What an attribute says does not depend on where it stands. -/
theorem RawAttribute.mark_congr {a b : RawAttribute} (h : a.written = b.written) :
    a.mark = b.mark := by
  obtain ⟨name, _, value⟩ := a
  obtain ⟨name', _, value'⟩ := b
  obtain ⟨rfl, hvalue⟩ := Prod.mk.inj h
  cases value <;> cases value' <;> simp_all [mark, isCode, AttrMeaning.of]

theorem attrMarks_congr {as bs : List RawAttribute} {seen : List Text}
    (h : as.map RawAttribute.written = bs.map RawAttribute.written) :
    attrMarks seen as = attrMarks seen bs := by
  induction as generalizing bs seen with
  | nil => rw [List.map_eq_nil_iff.1 h.symm]
  | cons a as ih =>
    cases bs with
    | nil => cases h
    | cons b bs =>
      obtain ⟨hhead, htail⟩ := List.cons.inj h
      rw [attrMarks, attrMarks, RawAttribute.mark_congr hhead, ih htail, ih htail]

/-- A tag adds what it says. -/
theorem adds_openTag {g : JsxTag} (hg : g.IsValid) (sc : Bool) :
    Adds (g.source sc) (.opened g.name (attrMarks [styleName] (g.attributes.map JsxAttr.raw)) ::
      if sc || isVoid g.name then [.closed] else []) := by
  intro n rest
  obtain ⟨t, hname, hself, hwritten, -, hscan⟩ := exists_openTag_source hg sc n rest
  rw [← List.map_map] at hwritten
  have := adds_lexeme hscan nofun
  rwa [Lexeme.marks, OpenTag.attrMarks, attrMarks_congr hwritten, hname, hself] at this

/-! ## Printed tags -/

/-- Code is read as a value. -/
theorem IsClosed.isRead {t : Text} (h : IsClosed t) :
    ValueSource.IsRead .jsx ⟨[], [], .braces, t.tail.dropLast⟩ := by
  obtain ⟨s, rfl, hs⟩ := h.exists_cons
  obtain ⟨u, rfl⟩ := exists_of_closeFrom hs
  rw [List.tail_cons, List.dropLast_concat]
  exact isRead_braces hs

/-- Entries with different names say themselves, and styles say nothing. -/
theorem attrMarks_entries {f : Entry → RawAttribute} {es : List Entry} {styles : List RawAttribute}
    {seen : List Text} (hkey : ∀ e ∈ es, (f e).mark.key = e.1)
    (hmark : ∀ e ∈ es, e.1 ≠ styleName → (f e).mark = ⟨e.1, isExpression e.2, e.2⟩)
    (hstyles : ∀ a ∈ styles, a.mark.key = styleName) (hnodup : (names es).Nodup)
    (hseen : styleName ∈ seen) (hnew : ∀ e ∈ es, e.1 ∈ seen → e.1 = styleName) :
    attrMarks seen (es.map f ++ styles) =
      (es.filter (·.1 != styleName)).map fun e => ⟨e.1, isExpression e.2, e.2⟩ := by
  induction es generalizing seen with
  | nil =>
    induction styles with
    | nil => rfl
    | cons a as ih =>
      obtain ⟨ha, has⟩ := List.forall_mem_cons.1 hstyles
      rw [List.map_nil, List.nil_append, attrMarks_cons_of_mem (ha ▸ hseen)]
      exact ih has
  | cons e es ih =>
    obtain ⟨hname, hnodup⟩ := List.nodup_cons.1 hnodup
    obtain ⟨hkey, hkeys⟩ := List.forall_mem_cons.1 hkey
    obtain ⟨hmark, hmarks⟩ := List.forall_mem_cons.1 hmark
    obtain ⟨hnew, hnews⟩ := List.forall_mem_cons.1 hnew
    rw [List.map_cons, List.cons_append]
    by_cases hs : e.1 = styleName
    · rw [attrMarks_cons_of_mem (by rwa [hkey, hs]), ih hkeys hmarks hnodup hseen hnews,
        List.filter_cons_of_neg (by simp [hs])]
    · rw [attrMarks_cons_of_not_mem (by rw [hkey]; exact mt hnew hs), hkey, hmark hs,
        List.filter_cons_of_pos (by simp [hs]), List.map_cons]
      refine congrArg _ (ih hkeys hmarks hnodup (List.mem_cons_of_mem _ hseen) fun d hd hmem => ?_)
      obtain heq | hmem := List.mem_cons.1 hmem
      · exact absurd (heq ▸ List.mem_map_of_mem hd) hname
      · exact hnews d hd hmem

namespace Printer

variable (p : Printer)

/-- A printed attribute as it is read. -/
def jsxAttr (e : Entry) : JsxAttr :=
  if e.1.head? = some '\x7b' then .spread [' '] e.1
  else .named ⟨[' '], Flavor.written .jsx e.1,
    if e.2 = [] then none
    else some (if isExpression e.2 then ⟨[], [], .braces, e.2.tail.dropLast⟩
      else p.valueSource e.2)⟩

/-- The printed attribute of a style as it is read. -/
def jsxStyle (style : Attrs) : JsxAttr :=
  .named ⟨[' '], styleName, some ⟨[], [], .braces, (Style.writeObject p.quote style).tail.dropLast⟩⟩

/-- A printed tag as it is read. -/
def jsxTag (tag : Text) (attributes style : Attrs) (selfClosing : Bool) : JsxTag :=
  ⟨tag, attributes.entries.map p.jsxAttr ++ if style.isEmpty then [] else [p.jsxStyle style],
    if selfClosing then [' '] else []⟩

/-- The object that a style is printed as ends at the brace that closes the first one. -/
def ClosesStyle (_tag : Text) (_attributes style : Attrs) (_children : List Node) : Prop :=
  style.isEmpty = false → IsClosed (Style.writeObject p.quote style)

instance (tag : Text) (attributes style : Attrs) (children : List Node) :
    Decidable (p.ClosesStyle tag attributes style children) :=
  inferInstanceAs (Decidable (_ → _))

variable {p} {e : Entry}

theorem jsxAttr_of_isSpread (he : IsSpread e) : p.jsxAttr e = .spread [' '] e.1 := if_pos he.1.1

theorem jsxAttr_of_isWord (he : IsWord e.1) : p.jsxAttr e =
    .named ⟨[' '], Flavor.written .jsx e.1,
      if e.2 = [] then none
      else some (if isExpression e.2 then ⟨[], [], .braces, e.2.tail.dropLast⟩
        else p.valueSource e.2)⟩ := if_neg (head?_of_isWord he)

theorem source_jsxAttr (hp : p.WritesJsx) (he : IsSpread e ∨ IsJsxWord e) :
    (p.jsxAttr e).source = ' ' :: p.attr e.1 e.2 := by
  obtain he | he := he
  · rw [jsxAttr_of_isSpread he, attr, if_pos he.1.1]
    rfl
  · rw [jsxAttr_of_isWord he.name, attr, if_neg (head?_of_isWord he.name), hp.flavor,
      JsxAttr.source, AttrSource.source]
    by_cases hnil : e.2 = []
    · simp [hnil]
    cases hexpr : isExpression e.2 with
    | true =>
      have hvalue := eq_of_isExpression hexpr
      simp only [hnil, if_false, if_true, ValueSource.source, ValueSource.quoted, Quoting.wrap]
      simp [← hvalue]
    | false =>
      have hquoted := quoted_valueSource hp.quote e.2
      rw [valueSource] at hquoted
      simp [hnil, ValueSource.source, valueSource, hquoted]

theorem isValid_jsxAttr (hp : p.WritesJsx) (he : IsSpread e ∨ IsJsxWord e)
    (hcode : isExpression e.2 = true → IsClosed e.2) : (p.jsxAttr e).IsValid := by
  obtain he | he := he
  · rw [jsxAttr_of_isSpread he]
    exact ⟨isBlankText_space, he.1⟩
  · rw [jsxAttr_of_isWord he.name]
    obtain ⟨hne, hword⟩ := written_word he.name.1 he.name.2
    refine ⟨List.cons_ne_nil _ _, isBlankText_space, hne, hword, fun v hv => ?_⟩
    obtain ⟨-, ⟨⟩⟩ := Option.ite_none_left_eq_some.1 hv
    split
    next hexpr => exact (hcode hexpr).isRead
    next => exact (isValid_valueSource hp.quote e.2).isRead .jsx

theorem key_jsxAttr (he : IsSpread e ∨ IsJsxWord e) : (p.jsxAttr e).raw.mark.key = e.1 := by
  obtain he | he := he
  · rw [jsxAttr_of_isSpread he]
    exact Flavor.key_of_isClosed he.1
  · rw [jsxAttr_of_isWord he.name]
    exact key_written he.not_renamed

/-- An attribute other than a style is read as it was printed. -/
theorem mark_jsxAttr (he : IsSpread e ∨ IsJsxWord e) (hstyle : e.1 ≠ styleName) :
    (p.jsxAttr e).raw.mark = ⟨e.1, isExpression e.2, e.2⟩ := by
  have hkey := key_jsxAttr (p := p) he
  have heq {a : RawAttribute} (ha : a.mark.key = e.1) (hcode : a.isCode = isExpression e.2)
      (hvalue : AttrMeaning.of e.1 a.value = .value e.2) :
      a.mark = ⟨e.1, isExpression e.2, e.2⟩ := by
    rw [← ha] at hvalue
    rw [a.mark_eq hvalue, hcode, ← ha]
    rfl
  obtain he | he := he
  · rw [jsxAttr_of_isSpread he] at hkey ⊢
    exact heq hkey (by rw [he.2]; rfl) (by rw [he.2]; rfl)
  rw [jsxAttr_of_isWord he.name] at hkey ⊢
  refine heq hkey ?_ ?_
  · by_cases hnil : e.2 = []
    · simp [JsxAttr.raw, AttrSource.raw, RawAttribute.isCode, hnil, isExpression]
    cases hexpr : isExpression e.2 with
    | true => simp [JsxAttr.raw, AttrSource.raw, RawAttribute.isCode, hnil]
    | false =>
      simp [JsxAttr.raw, AttrSource.raw, RawAttribute.isCode, hnil, valueSource,
        p.quoting_ne_braces]
  · by_cases hnil : e.2 = []
    · simp [JsxAttr.raw, AttrSource.raw, AttrMeaning.of, hnil]
    cases hexpr : isExpression e.2 with
    | true =>
      have hvalue := eq_of_isExpression hexpr
      simp [JsxAttr.raw, AttrSource.raw, AttrMeaning.of, hnil, hstyle, ← hvalue]
    | false =>
      simp only [JsxAttr.raw, AttrSource.raw, AttrMeaning.of, valueSource, hnil, hstyle, if_false,
        Option.map_some, p.quoting_ne_braces, decodeEntities_escapeQuoted, Bool.false_eq_true]
      split_ifs with hclass
      · rw [he.classes hclass hexpr]
      · rfl

section Tag

variable {tag : Text} {attributes style : Attrs} (hp : p.WritesJsx)
  (hentries : ∀ e ∈ attributes.entries, IsSpread e ∨ IsJsxWord e)
  (hstyle : style.isEmpty = false → IsClosed (Style.writeObject p.quote style))
include hp hentries hstyle

theorem source_jsxTag (sc : Bool) :
    (p.jsxTag tag attributes style sc).source sc = p.tagText tag attributes style sc := by
  have hattrs : (attributes.entries.flatMap fun e => (p.jsxAttr e).source) =
      attributes.entries.flatMap fun e => ' ' :: p.attr e.1 e.2 :=
    List.flatMap_congr fun e he => source_jsxAttr hp (hentries e he)
  have hstyles : (if style.isEmpty then [] else [p.jsxStyle style]).flatMap JsxAttr.source =
      if style.isEmpty then [] else ' ' :: p.styleAttribute style := by
    split
    · rfl
    next hne =>
      have hobject := eq_of_isExpression (hstyle (Bool.eq_false_iff.2 hne)).isExpression
      simp only [List.flatMap_singleton, jsxStyle, JsxAttr.source, AttrSource.source,
        ValueSource.source, ValueSource.quoted, Quoting.wrap, styleAttribute, hp.flavor]
      simp [← hobject]
  have hend : (if sc then [' '] else []) ++ tagClose sc = tagEnd sc := by cases sc <;> rfl
  rw [JsxTag.source, jsxTag, List.flatMap_append, List.flatMap_map, hstyles, hend, tagText, attrs,
    ← hattrs]
  simp

theorem isValid_jsxTag (htag : IsTagName tag)
    (hcode : ∀ e ∈ attributes.entries, isExpression e.2 = true → IsClosed e.2) (sc : Bool) :
    (p.jsxTag tag attributes style sc).IsValid := by
  refine ⟨htag, List.forall_mem_append.2 ⟨List.forall_mem_map.2 fun e he =>
    isValid_jsxAttr hp (hentries e he) (hcode e he), ?_⟩, ?_⟩
  · split
    · exact List.forall_mem_nil _
    next hne =>
      refine List.forall_mem_singleton.2 ⟨List.cons_ne_nil _ _, isBlankText_space,
        List.cons_ne_nil _ _, rfl, ?_⟩
      rintro v ⟨⟩
      exact (hstyle (Bool.eq_false_iff.2 hne)).isRead
  · cases sc
    · exact isBlankText_nil
    · exact isBlankText_space

/-- **A printed tag adds what the element says.** -/
theorem adds_tagText (htag : IsTagName tag)
    (hcode : ∀ e ∈ attributes.entries, isExpression e.2 = true → IsClosed e.2) (sc : Bool) :
    Adds (p.tagText tag attributes style sc)
      (.opened tag attributes.marks :: if sc || isVoid tag then [.closed] else []) := by
  have hmarks : attrMarks [styleName]
      ((p.jsxTag tag attributes style sc).attributes.map JsxAttr.raw) = attributes.marks := by
    rw [jsxTag, List.map_append, List.map_map]
    refine attrMarks_entries (fun e he => key_jsxAttr (hentries e he))
      (fun e he => mark_jsxAttr (hentries e he)) ?_ attributes.nodup List.mem_cons_self
      fun e _ hmem => List.mem_singleton.1 hmem
    split
    · exact List.forall_mem_nil _
    · exact List.forall_mem_singleton.2 rfl
  have hadds := adds_openTag (isValid_jsxTag hp hentries hstyle htag hcode sc) sc
  rwa [source_jsxTag hp hentries hstyle, hmarks] at hadds

end Tag

/-! ## Printed trees -/

theorem adds_newline (hp : p.WritesJsx) (level : Nat) : Adds (p.newline level) [] := by
  have hblank := isBlankText_of_isIndent (all_isIndent_replicate hp.unit level)
  exact adds_blank (isPlain_newline hp level) (isBlankText_cons.2 ⟨rfl, hblank⟩)

/-- Children add what they say, in either layout. -/
theorem adds_content (hp : p.WritesJsx) {ns : List Node}
    (h : ∀ n ∈ ns, ∀ level, Adds (p.printNode level false n) n.marks) (level : Nat)
    (isOneLine : Bool) :
    Adds (p.content level isOneLine (p.printAll (contentLevel level isOneLine) false ns))
      (Node.marksAll ns) := by
  have hall {front : Text} (hfront : Adds front []) (k : Nat) :
      Adds ((p.printAll k false ns).flatMap (front ++ ·)) (Node.marksAll ns) := by
    induction ns with
    | nil => exact adds_nil
    | cons n ns ih =>
      obtain ⟨hn, hns⟩ := List.forall_mem_cons.1 h
      rw [printAll, List.flatMap_cons, Node.marksAll, ← List.nil_append n.marks]
      exact (hfront.append (hn k)).append (ih hns)
  cases isOneLine with
  | true =>
    have := hall adds_nil level
    rwa [show (fun t : Text => [] ++ t) = id from rfl, List.flatMap_id] at this
  | false =>
    have := (hall (adds_newline hp (level + 1)) (level + 1)).append (adds_newline hp level)
    rwa [List.append_nil] at this

/-- An element whose printed text is read: it was read from JSX, and its style is closed. -/
def IsRereadTag (p : Printer) (tag : Text) (attributes style : Attrs) (children : List Node) :
    Prop :=
  Node.IsJsxReadTag tag attributes style children ∧ p.ClosesStyle tag attributes style children

mutual

/-- **A printed node adds what the node says.** -/
theorem adds_node (hp : p.WritesJsx) {n : Node} (hn : n.Everywhere p.IsRereadTag)
    (hcode : ∀ m ∈ n.marks, m.ClosesCode) (level : Nat) :
    Adds (p.printNode level false n) n.marks := by
  cases n with
  | text t =>
    rw [Node.marks] at hcode ⊢
    rw [printNode, text, hp.flavor]
    cases hexpr : isExpression t with
    | true =>
      simp only [hexpr, if_true] at hcode ⊢
      exact adds_expression (hcode _ List.mem_cons_self)
    | false => exact adds_escapeExpressionText t
  | element tag attributes style children =>
    obtain ⟨⟨hread, hstyle⟩, hchildren⟩ := hn
    rw [Node.marks, if_neg hread.name.ne_rootTag] at hcode ⊢
    obtain ⟨hattrs, hrest⟩ := List.forall_mem_cons.1 hcode
    obtain ⟨hrest, -⟩ := List.forall_mem_append.1 hrest
    have hentries : ∀ e ∈ attributes.entries, isExpression e.2 = true → IsClosed e.2 := by
      intro e he hexpr
      by_cases hs : e.1 = styleName
      · obtain h | h := hread.entries e he
        · rw [h.2] at hexpr
          cases hexpr
        · exact h.style hs hexpr
      · exact hattrs ⟨e.1, isExpression e.2, e.2⟩
          (List.mem_map_of_mem (List.mem_filter.2 ⟨he, by simpa using hs⟩)) hexpr
    have hopen := adds_tagText hp hread.entries hstyle hread.name hentries
    rw [printNode_element hp hread.name]
    by_cases hc : children = []
    · rw [if_pos hc, hc]
      exact hopen true
    · have hvoid : isVoid tag = false := Bool.eq_false_iff.2 fun h => hc (hread.void h)
      have htag := hopen false
      rw [hvoid, Bool.or_false, if_neg Bool.false_ne_true] at htag
      rw [if_neg hc]
      exact htag.append ((adds_content hp (adds_of_mem hp hchildren hrest) level _).append
        (adds_closeTag hread.name))

theorem adds_of_mem (hp : p.WritesJsx) {ns : List Node} (hns : Node.AllEverywhere p.IsRereadTag ns)
    (hcode : ∀ m ∈ Node.marksAll ns, m.ClosesCode) :
    ∀ n ∈ ns, ∀ level, Adds (p.printNode level false n) n.marks := by
  cases ns with
  | nil => exact nofun
  | cons n ns =>
    obtain ⟨hn, hrest⟩ := List.forall_mem_append.1 hcode
    exact List.forall_mem_cons.2 ⟨adds_node hp hns.1 hn, adds_of_mem hp hns.2 hrest⟩

end

/-- A printed document adds what its top-level nodes say. -/
theorem adds_print (hp : p.WritesJsx) {ns : List Node}
    (hns : Node.AllEverywhere Node.IsJsxReadTag ns)
    (hstyles : (Node.ofTopLevel ns).Everywhere p.ClosesStyle)
    (hcode : ∀ m ∈ Node.marksAll ns, m.ClosesCode) (level : Nat) :
    Adds (p.print (Node.ofTopLevel ns) level) (Node.marksAll ns) := by
  rw [Node.ofTopLevel.eq_def] at hstyles ⊢
  split at hstyles
  · rw [Node.marksAll, Node.marksAll, List.append_nil] at hcode ⊢
    exact adds_node hp (hns.1.and hstyles) hcode level
  · have hnodes := adds_of_mem hp (hns.and hstyles.2) hcode
    have hchildren := adds_content hp hnodes level (p.isInline ns)
    have := adds_fragmentOpen.append (hchildren.append adds_fragmentClose)
    rwa [List.nil_append, List.append_nil, ← print_root hp] at this

end Printer

/-- **What is printed of a document says what the markup says that it was read from**: the same tags
with the same attributes, values and code, and between them the same code and the same letters of
text. This holds if nothing but code looks like code in the markup, and if the printed objects of
styles end where they should. -/
theorem Document.marks_print {p : Printer} (hp : p.WritesJsx) {start stop : Nat} {s : Text}
    {d : Document} (h : readRootAt .jsx start s = .ok (d, stop))
    (hevident : ∀ m ∈ marks ((scan .jsx start s).upTo stop), m.isEvident = true)
    (hstyles : d.root.Everywhere p.ClosesStyle) (level : Nat) :
    (scanAll .jsx (p.print d.root level)).fault = none ∧
      (marks (scanAll .jsx (p.print d.root level)).lexemes).flatMap Mark.letters =
        (marks ((scan .jsx start s).upTo stop)).flatMap Mark.letters := by
  have hmarks := marks_root h hevident
  have hcode := Scan.closesCode_marks_upTo start stop s
  obtain ⟨ns, hroot, hns⟩ := everywhere_of_readRootAt h
  rw [hroot] at hstyles hmarks ⊢
  rw [Node.marks_ofTopLevel] at hmarks
  rw [← hmarks] at hcode ⊢
  obtain ⟨hfault, hadds⟩ := Printer.adds_print hp hns hstyles hcode level 0 []
  rw [List.append_nil, scan_nil] at hfault hadds
  exact ⟨hfault, hadds.trans (List.append_nil _)⟩

/-- A component with a renamed attribute, a spread, code with a brace in a string, an attribute of a
name that is there, a style, a text with references, and a fragment. -/
theorem Document.marks_print_component :
    let s := ("<Card className=\"a  b\" \x7b...rest\x7d on=\x7bf('\x7d')\x7d title=\"&#123;x\" " ++
      "a=\x7b1\x7d a=\"2\" style=\"a: 1px; b: 'x'\">\n  x &lt; &#123;y&#125;&nbsp;" ++
      "<>\x7bn\x7d<i>b</i></>\n <br></Card>!").toList
    let p : Printer := ⟨.jsx, ['\t'], '\''⟩
    p.WritesJsx ∧ ∃ d stop, readRootAt .jsx 2 s = .ok (d, stop) ∧
      (∀ m ∈ marks ((scan .jsx 2 s).upTo stop), m.isEvident = true) ∧
      d.root.Everywhere p.ClosesStyle ∧
      (scanAll .jsx (p.print d.root 1)).fault = none ∧
      (marks (scanAll .jsx (p.print d.root 1)).lexemes).flatMap Mark.letters =
        (marks ((scan .jsx 2 s).upTo stop)).flatMap Mark.letters := by
  intro s p
  have hp : p.WritesJsx := ⟨rfl, rfl, .inr rfl⟩
  have hread : ((readRootAt .jsx 2 s).toOption.map fun r : Document × Nat =>
      decide ((∀ m ∈ marks ((scan .jsx 2 s).upTo r.2), m.isEvident = true) ∧
        r.1.root.Everywhere p.ClosesStyle)) = some true := by
    decide +kernel
  obtain ⟨⟨d, stop⟩, hd, hconditions⟩ := Option.map_eq_some_iff.1 hread
  obtain ⟨hevident, hstyles⟩ := of_decide_eq_true hconditions
  have hd := eq_ok_of_toOption hd
  exact ⟨hp, d, stop, hd, hevident, hstyles, marks_print hp hd hevident hstyles 1⟩

/-- A text whose references stand for braces around it is printed as an expression, and a value in
quotes that has braces around it as code. A backslash at the end of a declaration takes the quote
behind it into the object that is printed, which then does not end. -/
theorem Document.not_marks_print :
    let p : Printer := ⟨.jsx, [' ', ' '], '"'⟩
    let IsTurned (s : Text) (source printed : List Mark) : Prop := ∃ d stop,
      readRootAt .jsx 0 s = .ok (d, stop) ∧ marks ((scan .jsx 0 s).upTo stop) = source ∧
        marks (scanAll .jsx (p.print d.root 0)).lexemes = printed
    let x := "\x7bx\x7d".toList
    IsTurned "<p>&#123;x&#125;</p>".toList
        [.opened ['p'] [], .literal x, .closed] [.opened ['p'] [], .code x, .closed] ∧
      IsTurned "<p title=\"\x7bx\x7d\" />".toList
        [.opened ['p'] [⟨"title".toList, false, x⟩], .closed]
        [.opened ['p'] [⟨"title".toList, true, x⟩], .closed] ∧
      ∃ d stop, readRootAt .jsx 0 "<p style=\"a: \\\">b</p>".toList = .ok (d, stop) ∧
        (scanAll .jsx (p.print d.root 0)).fault ≠ none := by
  intro p IsTurned x
  have turned {s : Text} {source printed : List Mark}
      (h : ((readRootAt .jsx 0 s).toOption.map fun r : Document × Nat => decide
        (marks ((scan .jsx 0 s).upTo r.2) = source ∧
          marks (scanAll .jsx (p.print r.1.root 0)).lexemes = printed)) = some true) :
      IsTurned s source printed := by
    obtain ⟨⟨d, stop⟩, hd, hmarks⟩ := Option.map_eq_some_iff.1 h
    exact ⟨d, stop, eq_ok_of_toOption hd, of_decide_eq_true hmarks⟩
  have hopen : ((readRootAt .jsx 0 "<p style=\"a: \\\">b</p>".toList).toOption.map
      fun r : Document × Nat => decide ((scanAll .jsx (p.print r.1.root 0)).fault ≠ none)) =
        some true := by
    decide +kernel
  obtain ⟨⟨d, stop⟩, hd, hfault⟩ := Option.map_eq_some_iff.1 hopen
  exact ⟨turned (by decide +kernel), turned (by decide +kernel), d, stop, eq_ok_of_toOption hd,
    of_decide_eq_true hfault⟩

end MarkupSync
