import MarkupSync.Proofs.Document.Pieces
import MarkupSync.Proofs.Section.Mark
import MarkupSync.Proofs.Tree.Everywhere

/-!
# Markup without marks of templates

* `Node.IsUnmarked`: trees whose tags, attributes, declarations and kept texts have no marks
  (`Section.hasMark`);
* `Written.HidesNoMark`, `Content.HidesNoMark`: markup that has no marks where they leave no trace in
  the tree, in comments and in what is no declaration of a style;
* **`Content.hasMark_source`**: such markup of such trees has no marks at all;
* `Content.hidesNoMark_ofPieces`, `hidesNoMark_between`: pieces with gaps around them.
-/

namespace MarkupSync

open Text

/-! ## Runs between tags -/

namespace Section

variable {c : Char} {s t x p r : Text}

/-- A letter behind an angle opens something, also behind a slash. -/
theorem opensNothing_letter (h : isNameStart c = true) (s : Text) :
    opensNothing (c :: s) = false ∧ opensNothing ('/' :: c :: s) = false := by
  have hne : c ≠ '!' ∧ c ≠ '?' ∧ c ≠ '/' ∧ c ≠ '>' := by
    refine ⟨?_, ?_, ?_, ?_⟩
    all_goals
      rintro rfl
      exact absurd h (by decide)
  obtain ⟨h1, h2, h3, h4⟩ := hne
  constructor
  · unfold opensNothing
    split <;> simp_all
  · rw [opensNothing, h]
    · rfl
    · exact h4

/-- An angle that opens nothing starts no mark. -/
theorem isMark_of_opensNothing (h : opensNothing s = true) : isMark ('<' :: s) = false := by
  rw [← Bool.not_eq_true]
  intro hm
  have hcons (c : Char) (s : Text) : lower (c :: s) = c.toLower :: lower s := rfl
  have key {s : Text} (h : startsWith SectionKind.template.tag (lower s) = true) :
      ∃ c u, s = c :: u ∧ isNameStart c = true := by
    have htag : SectionKind.template.tag = 't' :: SectionKind.template.tag.tail := by decide
    cases s with
    | nil => exact absurd h (by decide)
    | cons c u =>
      rw [hcons, htag, startsWith_cons, Bool.and_eq_true, beq_iff_eq] at h
      exact ⟨c, u, rfl, isAlpha_of_toLower_eq (d := 't') (by decide) h.1.symm⟩
  rw [isMark, closes, hcons, startsWith_cons, startsWith_cons, Bool.or_eq_true, Bool.and_eq_true,
    Bool.and_eq_true] at hm
  obtain ⟨-, hm⟩ | ⟨-, hm⟩ := hm
  · obtain ⟨c, u, rfl, hc⟩ := key hm
    rw [(opensNothing_letter hc u).1] at h
    cases h
  · cases s with
    | nil => cases hm
    | cons d s =>
      rw [hcons, startsWith_cons, Bool.and_eq_true, beq_iff_eq] at hm
      obtain rfl := eq_of_toLower_eq (by decide) hm.1.symm
      obtain ⟨c, u, rfl, hc⟩ := key hm.2
      rw [(opensNothing_letter hc u).2] at h
      cases h

/-- Plain text has no marks. -/
theorem hasMark_of_allPlain (h : AllPlain s t) : hasMark (s ++ t) = hasMark t := by
  induction s with
  | nil => rfl
  | cons c s ih =>
    rw [List.cons_append]
    by_cases hc : c = '<'
    · rw [hc, hasMark, isMark_of_opensNothing (h.1 hc), Bool.false_or, ih h.2]
    · rw [hasMark_cons_of_ne hc, ih h.2]

/-- What ends with a closing angle is part of no mark behind it. -/
theorem hasMark_append_of_getLast? (h : s.getLast? = some '>') (t : Text) :
    hasMark (s ++ t) = (hasMark s || hasMark t) := by
  obtain ⟨u, rfl⟩ := List.getLast?_eq_some_iff.1 h
  rw [List.append_assoc, List.singleton_append, hasMark_append_cons (by decide) (by decide),
    hasMark_concat (by decide)]

/-- Comments, declarations and instructions end with a closing angle. -/
theorem getLast?_of_skipped (h : angleHead s = .ok (.skipped p r)) : p.getLast? = some '>' := by
  have skip {stop start s : Text} (hstop : stop.getLast? = some '>')
      (h : skipTo stop start s = .ok (.skipped p r)) : p.getLast? = some '>' := by
    rw [skipTo] at h
    split at h
    · cases h
      rw [List.getLast?_append, hstop]
      rfl
    · cases h
  revert h
  fun_cases angleHead s with
  | case1 s q r' hc =>
    intro h
    cases h
    rw [List.getLast?_append]
    rfl
  | case3 c s hne hc => exact skip rfl
  | case5 s => exact skip rfl
  | case7 c s =>
    intro h
    simp only [closeHead] at h
    split at h <;> cases h
  | _ => intro h; cases h

/-- **No mark arises where runs are put together**, unless an open angle at the end of the first
comes to open something. -/
theorem hasMark_append_run (hs : stripped? s = some x) (h : '<' ∉ x ∨ IsSoft t) :
     hasMark (s ++ t) = (hasMark s || hasMark t) := by
  induction hn : s.length using Nat.strongRecOn generalizing s x with
  | _ n ih =>
    subst hn
    cases s with
    | nil => rfl
    | cons c s =>
      by_cases hc : c = '<'
      · subst hc
        obtain ⟨p, r, hp, hr⟩ | ⟨ho, x, hx, rfl⟩ := stripped?_angle_eq_some hs
        · have hlast := getLast?_of_skipped hp
          obtain ⟨q, rfl, rfl, -⟩ := angleHead_skipped hp
          have hlt : r.length < ('<' :: (q ++ r)).length := by
            simp only [List.length_append, List.length_cons]
            omega
          rw [← List.cons_append, List.append_assoc, hasMark_append_of_getLast? hlast,
            hasMark_append_of_getLast? hlast, ih _ hlt hr h rfl, Bool.or_assoc]
        · have ho' := opensNothing_append ho (h.resolve_left (by simp))
          rw [List.cons_append, hasMark, hasMark, isMark_of_opensNothing ho,
            isMark_of_opensNothing ho', ih _ (by simp) hx (.inr (h.resolve_left (by simp))) rfl,
            Bool.false_or, Bool.false_or]
      · obtain ⟨x, hx, rfl⟩ := stripped?_cons_eq_some hc hs
        rw [List.cons_append, hasMark_cons_of_ne hc, hasMark_cons_of_ne hc,
          ih _ (by simp) hx (h.imp_left fun h hm => h (List.mem_cons_of_mem _ hm)) rfl]

/-- No mark arises behind a gap. -/
theorem hasMark_gap_append {g : Text} (hg : IsGap g) (s : Text) :
    hasMark (g ++ s) = (hasMark g || hasMark s) := by
  obtain ⟨x, hx, hb⟩ := hg
  exact hasMark_append_run hx (.inl (not_mem_of_blank hb))

/-- No mark arises in front of a gap. -/
theorem hasMark_append_gap (hs : (stripped? s).isSome) {g : Text} (hg : IsGap g) :
    hasMark (s ++ g) = (hasMark s || hasMark g) := by
  obtain ⟨x, hx⟩ := Option.isSome_iff_exists.1 hs
  exact hasMark_append_run hx (.inr hg.isSoft)

end Section

open Section

/-! ## Trees -/

/-- No string of attributes or declarations has marks. -/
def Attrs.IsUnmarked (m : Attrs) : Prop :=
  ∀ e ∈ m.entries, hasMark e.1 = false ∧ hasMark e.2 = false

/-- No tag of a tree has marks, no string of its attributes and declarations, and no text that is
written as it is. -/
def Node.IsUnmarked (n : Node) : Prop :=
  n.Everywhere fun tag as st cs => hasMark ('<' :: tag) = false ∧ as.IsUnmarked ∧ st.IsUnmarked ∧
    (isRaw tag = true → ∀ t, .text t ∈ cs → hasMark t = false)

theorem Attrs.IsUnmarked.same {as bs : Attrs} (h : as.IsUnmarked) (hs : as.Same bs) :
    bs.IsUnmarked := fun e he => h e (hs.entries.2 he)

theorem Node.IsUnmarked.same {n m : Node} (h : n.IsUnmarked) (hs : n.Same m) : m.IsUnmarked :=
  Everywhere.same (fun has hst hcs ⟨h1, h2, h3, h4⟩ =>
    ⟨h1, h2.same has, h3.same hst, fun hraw t ht => h4 hraw t (hcs.mem_text.2 ht)⟩) h hs

/-! ## Markup -/

/-- An attribute that declares a style has no marks but in its declarations. -/
def AttrSource.HidesNoMark (a : AttrSource) : Prop :=
  ∀ st, a.meaning = .declarations st → st.IsUnmarked → ∀ v ∈ a.value, hasMark v.text = false

/-- No attribute of a tag hides marks. -/
def TagSource.HidesNoMark (g : TagSource) : Prop := ∀ a ∈ g.attributes, a.HidesNoMark

mutual

/-- No marks are hidden in an element. -/
def Written.HidesNoMark : Written → Prop
  | .leaf tag => tag.HidesNoMark
  | .raw tag _ _ => tag.HidesNoMark
  | .full tag content _ => tag.HidesNoMark ∧ content.HidesNoMark

/-- No marks are hidden in content: there are none in its comments. -/
def Content.HidesNoMark : Content → Prop
  | .flow s => hasMark s = false
  | .cons s w rest => hasMark s = false ∧ w.HidesNoMark ∧ rest.HidesNoMark

end

/-- No marks are hidden in a piece. -/
def Piece.HidesNoMark : Piece → Prop
  | .run _ s => hasMark s = false
  | .element w => w.HidesNoMark

/-- No marks are hidden in pieces and in the texts in front of them. -/
def HideNoMark (ps : List (Text × Piece)) : Prop :=
  ∀ p ∈ ps, hasMark p.1 = false ∧ p.2.HidesNoMark

theorem hasMark_of_blank {s : Text} (h : IsBlankText s) : hasMark s = false :=
  hasMark_of_not_mem (isBlankText_of_not_mem h)

/-! ### Tags -/

namespace AttrSource

/-- **An attribute has no marks** if its value or its declarations have none. -/
theorem hasMark_source {a : AttrSource} (ha : a.IsValid) (hhides : a.HidesNoMark)
    (hvalue : ∀ v, a.meaning = .value v → hasMark v = false)
    (hstyle : ∀ st, a.meaning = .declarations st → st.IsUnmarked) : hasMark a.source = false := by
  have hname : hasMark a.name = false := hasMark_of_not_mem fun hm =>
    absurd (List.all_eq_true.1 ha.name _ hm) (by decide)
  have hblanks : '<' ∉ a.blanks := isBlankText_of_not_mem ha.blanks
  rw [source, List.append_assoc, hasMark_append_of_not_mem hblanks]
  cases hv : a.value with
  | none => rwa [List.append_nil]
  | some v =>
    obtain ⟨hfront, hback, hadmits⟩ := ha.value v hv
    have htext : hasMark v.text = false := by
      cases hm : a.meaning with
      | declarations st => exact hhides st hm (hstyle st hm) v hv
      | value w =>
        have hw := hvalue w hm
        have hbraces : v.quoting ≠ .braces := fun h => by rw [h] at hadmits; exact hadmits
        simp only [meaning, raw, hv, Option.map_some, AttrMeaning.of, hbraces, if_false] at hm
        split_ifs at hm
        · cases hm
          exact hasMark_of_decodeEntities (hasMark_collapse _ ▸ hw)
        · cases hm
          exact hasMark_of_decodeEntities hw
    have hquoted : hasMark v.quoted = false := by
      rw [ValueSource.quoted]
      cases v.quoting with
      | double =>
        rw [Quoting.wrap, List.cons_append, hasMark_cons_of_ne (by decide), hasMark_concat (by decide),
          htext]
      | single =>
        rw [Quoting.wrap, List.cons_append, hasMark_cons_of_ne (by decide), hasMark_concat (by decide),
          htext]
      | bare => exact htext
      | braces =>
        rw [Quoting.wrap, List.cons_append, hasMark_cons_of_ne (by decide), hasMark_concat (by decide),
          htext]
    have hhead : ∀ d ∈ v.source.head?, continuesMark d = false := by
      intro d hd
      rw [ValueSource.source] at hd
      cases hf : v.front with
      | nil =>
        rw [hf] at hd
        cases hd
        decide
      | cons e f =>
        rw [hf] at hd hfront
        cases hd
        exact continuesMark_of_isBlank (isBlankText_cons.1 hfront).1
    have hnot : '<' ∉ v.front ++ '=' :: v.back := by
      simp [isBlankText_of_not_mem hfront, isBlankText_of_not_mem hback]
    rw [hasMark_append hhead, hname, ValueSource.source, hasMark_append_of_not_mem hnot, hquoted]
    rfl

end AttrSource

theorem hasMark_append_blank {blanks : Text} (h : IsBlankText blanks) (s : Text) :
    hasMark (s ++ blanks) = hasMark s := by
  rw [hasMark_append (fun c hc => continuesMark_of_isBlank (h c (List.mem_of_head? hc))),
    hasMark_of_blank h, Bool.or_false]

/-- Attributes start with blanks, so that no mark arises between them. -/
theorem hasMark_append_attributes {as : List AttrSource} (has : ∀ a ∈ as, a.IsValid)
    (hnone : ∀ a ∈ as, hasMark a.source = false) {blanks : Text} (hblanks : IsBlankText blanks)
    (s : Text) : hasMark (s ++ (as.flatMap AttrSource.source ++ blanks)) = hasMark s := by
  induction as generalizing s with
  | nil =>
    rw [List.flatMap_nil, List.nil_append, hasMark_append_blank hblanks]
  | cons a as ih =>
    obtain ⟨ha, has⟩ := List.forall_mem_cons.1 has
    obtain ⟨hmark, hnone⟩ := List.forall_mem_cons.1 hnone
    have hhead : ∀ c ∈ a.source.head?, continuesMark c = false := by
      intro c hc
      rw [AttrSource.source, List.append_assoc, List.head?_append_of_ne_nil _ ha.blanks_ne] at hc
      exact continuesMark_of_isBlank (ha.blanks c (List.mem_of_head? hc))
    rw [List.flatMap_cons, List.append_assoc, ← List.append_assoc, ih has hnone, hasMark_append hhead,
      hmark, Bool.or_false]

namespace TagSource

variable {g : TagSource}

theorem getLast?_source (g : TagSource) : g.source.getLast? = some '>' := by
  have hclose : (tagClose g.selfClosing).getLast? = some '>' := by
    cases g.selfClosing <;> rfl
  rw [source, body, ← List.append_assoc, ← List.append_assoc, List.getLast?_append, hclose]
  rfl

/-- **An open tag has no marks** if what it says has none. -/
theorem hasMark_source (hg : g.IsValid) (hhides : g.HidesNoMark)
    (hname : hasMark ('<' :: g.name) = false) (hattrs : g.attrs.IsUnmarked)
    (hstyle : g.style.IsUnmarked) : hasMark g.source = false := by
  have hattr : ∀ a ∈ g.attributes, hasMark a.source = false := by
    intro a ha
    refine a.hasMark_source (hg.attributes a ha) (hhides a ha) (fun v hv => ?_) fun st hst => ?_
    · have he : (a.name, v) ∈ g.attrs.entries := by
        rw [g.entries_attrs hg, List.mem_filterMap]
        exact ⟨a, ha, by rw [AttrSource.namedValue?, hv]⟩
      exact (hattrs _ he).2
    · exact hg.style_of_mem ha hst ▸ hstyle
  have hclose (s : Text) : hasMark (s ++ tagClose g.selfClosing) = hasMark s := by
    cases g.selfClosing with
    | false => exact hasMark_concat (by decide) s
    | true =>
      have : s ++ tagClose true = s ++ ['/'] ++ ['>'] := by simp [tagClose]
      rw [this, hasMark_concat (by decide), hasMark_concat (by decide)]
  have hsource : g.source = '<' :: g.name ++
      (g.attributes.flatMap AttrSource.source ++ g.blanks) ++ tagClose g.selfClosing := by
    simp [source, body]
  rw [hsource, hclose, hasMark_append_attributes hg.attributes hattr hg.blanks, hname]

end TagSource

/-- **A close tag has no marks** if the open tag of its element has none. -/
theorem CloseSource.hasMark_source {k : CloseSource} {tag : Text} (hk : k.Closes tag)
    (h : hasMark ('<' :: tag) = false) : hasMark k.source = false := by
  have hname : '<' ∉ k.name := fun hm => absurd (hk.name.isNameChar _ hm) (by decide)
  have hblanks : IsBlankText k.blanks := fun c hc =>
    isBlank_of_isCloseBlank (List.all_eq_true.1 hk.blanks c hc)
  have hsource : k.source = '<' :: '/' :: k.name ++ k.blanks ++ ['>'] := by
    simp [CloseSource.source]
  rw [hsource, hasMark_concat (by decide), hasMark_append_blank hblanks, hasMark,
    hasMark_cons_of_ne (by decide), hasMark_of_not_mem hname, Bool.or_false]
  have hcons (c : Char) (s : Text) : lower (c :: s) = c.toLower :: lower s := rfl
  have hangle : '<'.toLower = '<' := by decide
  have hslash : '/'.toLower = '/' := by decide
  have hmark : startsWith SectionKind.template.tag (lower k.name) = false := by
    rw [hasMark, Bool.or_eq_false_iff, isMark, Bool.or_eq_false_iff, hcons, hangle, startsWith_cons,
      hk.lower] at h
    simpa using h.1.1
  have hother : startsWith SectionKind.template.tag ('/' :: lower k.name) = false := by
    have htag : SectionKind.template.tag = 't' :: SectionKind.template.tag.tail := by decide
    rw [htag, startsWith_cons]
    rfl
  rw [isMark, closes, hcons, hcons, hangle, hslash, startsWith_cons, startsWith_cons, startsWith_cons,
    hmark, hother]
  rfl

/-! ### Elements and content -/

theorem CloseSource.getLast?_source (k : CloseSource) : k.source.getLast? = some '>' := by
  rw [source, ← List.append_assoc, List.getLast?_concat]

theorem Written.getLast?_source (w : Written) : w.source.getLast? = some '>' := by
  cases w with
  | leaf tag => exact tag.getLast?_source
  | raw tag content close | full tag content close =>
    rw [source, List.getLast?_append, List.getLast?_append, close.getLast?_source]
    rfl

theorem Written.hasMark_append (w : Written) (s : Text) :
    hasMark (w.source ++ s) = (hasMark w.source || hasMark s) :=
  hasMark_append_of_getLast? w.getLast?_source s

theorem hasMark_append_angle (s t : Text) :
    hasMark (s ++ '<' :: t) = (hasMark s || hasMark ('<' :: t)) :=
  Section.hasMark_append (fun c hc => by cases hc; decide) s

theorem hasMark_rawNodes {content : Text} (h : ∀ t, .text t ∈ rawNodes content → hasMark t = false) :
    hasMark content = false := by
  obtain ⟨a, b, heq, ha, hb, -⟩ := exists_trim content
  have hkept : hasMark (trim isBlank content) = false := by
    by_cases ht : trim isBlank content = []
    · rw [ht]
      rfl
    · exact h _ (by rw [rawNodes, if_neg ht]; exact List.mem_singleton_self _)
  rw [heq, hasMark_append_blank hb, hasMark_append_of_not_mem (isBlankText_of_not_mem ha), hkept]

mutual

/-- **Markup that hides no marks has none** if its element has none. -/
theorem Written.hasMark_source {w : Written} (hw : w.IsValid) (hhides : w.HidesNoMark)
    (h : w.node.IsUnmarked) : hasMark w.source = false := by
  cases w with
  | leaf tag =>
    obtain ⟨⟨hname, hattrs, hstyle, -⟩, -⟩ := h
    exact tag.hasMark_source hw.1 hhides hname hattrs hstyle
  | raw tag content close =>
    obtain ⟨hg, -, -, hraw, -, hclose⟩ := hw
    obtain ⟨⟨hname, hattrs, hstyle, htexts⟩, -⟩ := h
    have hangle : close.source = '<' :: close.source.tail := rfl
    rw [Written.source, hasMark_append_of_getLast? tag.getLast?_source, hangle, hasMark_append_angle,
      ← hangle, tag.hasMark_source hg hhides hname hattrs hstyle, hasMark_rawNodes (htexts hraw),
      close.hasMark_source hclose hname]
    rfl
  | full tag content close =>
    obtain ⟨hg, -, -, -, hcontent, hclose⟩ := hw
    obtain ⟨⟨hname, hattrs, hstyle, -⟩, hcs⟩ := h
    have hangle : close.source = '<' :: close.source.tail := rfl
    rw [Written.source, hasMark_append_of_getLast? tag.getLast?_source, hangle, hasMark_append_angle,
      ← hangle, tag.hasMark_source hg hhides.1 hname hattrs hstyle,
      Content.hasMark_source hcontent hhides.2 (Node.allEverywhere_iff.1 hcs),
      close.hasMark_source hclose hname]
    rfl

/-- **Content that hides no marks has none** if its nodes have none. -/
theorem Content.hasMark_source {c : Content} (hc : c.IsValid) (hhides : c.HidesNoMark)
    (h : ∀ n ∈ c.nodes, n.IsUnmarked) : hasMark c.source = false := by
  cases c with
  | flow s => exact hhides
  | cons s w rest =>
    rw [Content.nodes] at h
    obtain ⟨hw, hrest⟩ := List.forall_mem_cons.1 (List.forall_mem_append.1 h).2
    obtain ⟨t, ht⟩ : ∃ t, w.source = '<' :: t := by
      cases w <;> exact ⟨_, rfl⟩
    rw [Content.source, ht, List.cons_append, hasMark_append_angle, ← List.cons_append, ← ht,
      w.hasMark_append, hhides.1, Written.hasMark_source hc.2.1 hhides.2.1 hw,
      Content.hasMark_source hc.2.2 hhides.2.2 hrest]
    rfl

end

/-! ### Pieces -/

namespace Content

theorem hidesNoMark_prepend {s : Text} (hs : (stripped? s).isSome) (hnone : hasMark s = false)
    {c : Content} (hstart : c.StartsWithGap) (hc : c.HidesNoMark) : (c.prepend s).HidesNoMark := by
  cases c with
  | flow t =>
    have ht : hasMark t = false := hc
    rw [prepend, HidesNoMark, hasMark_append_gap hs hstart, hnone, ht]
    rfl
  | cons t w rest =>
    refine ⟨?_, hc.2⟩
    rw [hasMark_append_gap hs hstart, hnone, hc.1]
    rfl

/-- **Pieces and gaps that hide no marks hide none together.** -/
theorem hidesNoMark_ofPieces {ps : List (Text × Piece)} {back : Text} (hback : IsGap back)
    (hgaps : ∀ p ∈ ps, IsGap p.1) (hps : ∀ c ∈ ps.map Prod.snd, c.IsValid)
    (hapart : TextsApart ((ps.map Prod.snd).map Piece.node)) (hnone : hasMark back = false)
    (hhides : HideNoMark ps) :
    (ofPieces ps back).HidesNoMark := by
  induction ps with
  | nil => exact hnone
  | cons p ps ih =>
    obtain ⟨hgap, hgaps'⟩ := List.forall_mem_cons.1 hgaps
    obtain ⟨hp, hps'⟩ := List.forall_mem_cons.1 hps
    obtain ⟨⟨hmark, hhide⟩, hhides'⟩ := List.forall_mem_cons.1 hhides
    have hrest := ih hgaps' hps' hapart.of_cons hhides'
    obtain ⟨gap, ⟨t, s⟩ | w⟩ := p
    · have hrun : IsRunOf t (gap ++ s) := by
        have := IsRunOf.between hp hgap isGap_nil
        rwa [List.append_nil] at this
      refine hidesNoMark_prepend hrun.isSome ?_ (startsWithGap_behind_text hback hgaps' hapart) hrest
      rw [hasMark_gap_append hgap, hmark, hhide]
      rfl
    · exact ⟨hmark, hhide, hrest⟩

/-- So do pieces with a gap between two. -/
theorem hidesNoMark_between {front gap back : Text} (hfront : IsGap front) (hgap : IsGap gap)
    (hback : IsGap back) {cs : List Piece} (hcs : ∀ c ∈ cs, c.IsValid)
    (hapart : TextsApart (cs.map Piece.node))
    (hnone : hasMark front = false ∧ hasMark gap = false ∧ hasMark back = false)
    (hhides : ∀ c ∈ cs, c.HidesNoMark) : (between front gap cs back).HidesNoMark := by
  obtain ⟨hfront', hgap', hback'⟩ := hnone
  cases cs with
  | nil =>
    rw [between, HidesNoMark, hasMark_gap_append hfront, hfront', hback']
    rfl
  | cons c cs =>
    have hsnd : ((front, c) :: cs.map fun c => (gap, c)).map Prod.snd = c :: cs := by
      simp [Function.comp_def]
    obtain ⟨hc, hhides⟩ := List.forall_mem_cons.1 hhides
    refine hidesNoMark_ofPieces hback ?_ (by rwa [hsnd]) (by rwa [hsnd]) hback' ?_
    · refine List.forall_mem_cons.2 ⟨hfront, fun q hq => ?_⟩
      obtain ⟨d, -, rfl⟩ := List.mem_map.1 hq
      exact hgap
    · refine List.forall_mem_cons.2 ⟨⟨hfront', hc⟩, fun q hq => ?_⟩
      obtain ⟨d, hd, rfl⟩ := List.mem_map.1 hq
      exact ⟨hgap', hhides d hd⟩

/-- Nor do the pieces hide any that content is made of. -/
theorem hidesNoMark_of_ofPieces {ps : List (Text × Piece)} {back : Text}
    (h : (ofPieces ps back).HidesNoMark) : hasMark back = false ∧ HideNoMark ps := by
  induction ps with
  | nil => exact ⟨h, nofun⟩
  | cons p ps ih =>
    obtain ⟨gap, ⟨t, s⟩ | w⟩ := p
    · have hprepend {c : Content} (h : (c.prepend (gap ++ s)).HidesNoMark) :
          (hasMark gap = false ∧ hasMark s = false) ∧ c.HidesNoMark := by
        cases c with
        | flow u =>
          obtain ⟨hs, hu⟩ := hasMark_of_append h
          exact ⟨hasMark_of_append hs, hu⟩
        | cons u w rest =>
          obtain ⟨hs, hu⟩ := hasMark_of_append h.1
          exact ⟨hasMark_of_append hs, hu, h.2⟩
      obtain ⟨hs, hrest⟩ := hprepend h
      exact ⟨(ih hrest).1, List.forall_mem_cons.2 ⟨hs, (ih hrest).2⟩⟩
    · obtain ⟨hgap, hw, hrest⟩ := h
      exact ⟨(ih hrest).1, List.forall_mem_cons.2 ⟨⟨hgap, hw⟩, (ih hrest).2⟩⟩

end Content

end MarkupSync
