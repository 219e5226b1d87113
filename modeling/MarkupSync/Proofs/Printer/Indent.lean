import MarkupSync.Proofs.Printer.Document
import MarkupSync.Proofs.Text.Indent
import MarkupSync.Proofs.Text.Lines

/-!
# Printed documents put further in

* `Node.indented`: a node with its own line breaks, in values and in kept texts, put further in;
* **`Node.IsNormal.indented`**, `Node.IsNormalDocument.indented`: HTML can express it as well;
* **`Printer.source_piece_indented`**, `Printer.source_documentContent_indented`: a printed node put
  further in is this node as it is printed there;
* `Node.IsUnbroken`, **`Node.IsNormalDocument.same_indented_iff`**: documents without such line
  breaks, and no others, stay as they are.
-/

namespace MarkupSync

open Text

/-! ## Texts -/

section Texts

variable {indent : Text}

theorem indented_flatMap {α : Type} (indent : Text) (f : α → Text) (l : List α) :
    indented indent (l.flatMap f) = l.flatMap fun a => indented indent (f a) := by
  induction l with
  | nil => rfl
  | cons a l ih => rw [List.flatMap_cons, indented_append, ih, List.flatMap_cons]

theorem indented_intercalate (indent gap : Text) (l : List Text) :
    indented indent (gap.intercalate l) =
      (indented indent gap).intercalate (l.map (indented indent)) := by
  induction l with
  | nil => rfl
  | cons s l ih =>
    cases l with
    | nil => simp
    | cons t l =>
      rw [List.intercalate_cons_cons, indented_append, indented_append, ih]
      simp [List.intercalate_cons_cons]

/-- Only line breaks make a difference. -/
theorem indented_eq_self_iff {s : Text} : indented indent s = s ↔ indent = [] ∨ '\n' ∉ s := by
  have hle (s : Text) : s.length ≤ (indented indent s).length := by
    induction s with
    | nil => exact Nat.le_refl 0
    | cons c s ih =>
      by_cases hc : c = '\n'
      · simp only [hc, indented_newline, List.length_cons, List.length_append]
        omega
      · simpa only [indented_cons hc, List.length_cons, Nat.add_le_add_iff_right] using ih
  induction s with
  | nil => simp
  | cons c s ih =>
    by_cases hc : c = '\n'
    · subst hc
      have : indent ++ indented indent s = s ↔ indent = [] := by
        refine ⟨fun h => ?_, fun h => ?_⟩
        · have hlen := congrArg List.length h
          have := hle s
          rw [List.length_append] at hlen
          exact List.eq_nil_of_length_eq_zero (by omega)
        · rw [ih.2 (.inl h), h, List.nil_append]
      simp [indented_newline, this]
    · simp [indented_cons hc, ih, Ne.symm hc]

/-- What is done to single characters is done to those of the indentation as well. -/
theorem indented_flatMap_chars {f : Char → Text} (hf : ∀ c, c ≠ '\n' → '\n' ∉ f c)
    (hkeep : ∀ c, c = '\n' ∨ c ∈ indent → f c = [c]) (s : Text) :
    indented indent (s.flatMap f) = (indented indent s).flatMap f := by
  have hindent : indent.flatMap f = indent := by
    rw [List.flatMap_congr fun c hc => hkeep c (.inr hc)]
    exact List.flatMap_singleton' indent
  induction s with
  | nil => rfl
  | cons c s ih =>
    rw [List.flatMap_cons, indented_append, ih]
    by_cases hc : c = '\n'
    · subst hc
      rw [hkeep _ (.inl rfl), indented_newline, indented_newline, List.flatMap_cons,
        List.flatMap_append, hkeep _ (.inl rfl), hindent]
      simp
    · rw [indented_of_not_mem (hf c hc), indented_cons hc, List.flatMap_cons]

theorem indented_escapeText (hi : indent.all isIndent = true) (s : Text) :
    indented indent (escapeText s) = escapeText (indented indent s) := by
  refine indented_flatMap_chars (fun c hc => ?_) (fun c hc => ?_) s
  · rw [escapedChar]
    split_ifs <;> first | decide | simpa using Ne.symm hc
  · rcases hc with rfl | hc
    · rfl
    · rcases isIndent_iff.1 (List.all_eq_true.1 hi c hc) with rfl | rfl <;> rfl

theorem indented_escapeQuoted (hi : indent.all isIndent = true) {q : Char}
    (hq : q = '"' ∨ q = '\'') (s : Text) :
    indented indent (escapeQuoted q s) = escapeQuoted q (indented indent s) := by
  refine indented_flatMap_chars (fun c hc => ?_) (fun c hc => ?_) s
  · rw [escapedQuotedChar]
    split_ifs <;> first | decide | simpa using Ne.symm hc
  · have : c = '\n' ∨ c = ' ' ∨ c = '\t' :=
      hc.imp_right fun hc => isIndent_iff.1 (List.all_eq_true.1 hi c hc)
    rcases hq with rfl | rfl <;> rcases this with rfl | rfl | rfl <;> rfl

/-- A text whose words have single spaces between them has no line breaks. -/
theorem not_mem_of_collapse_eq {t : Text} (h : Text.collapse t = t) : '\n' ∉ t := by
  intro hm
  rw [← h] at hm
  rcases Text.of_mem_collapse hm with hc | hc <;> revert hc <;> decide

theorem indented_of_collapse_eq {t : Text} (h : Text.collapse t = t) : indented indent t = t :=
  indented_of_not_mem (not_mem_of_collapse_eq h)

theorem trim_eq_self_iff {p : Char → Bool} {s : Text} :
    trim p s = s ↔ (∀ c ∈ s.head?, p c = false) ∧ ∀ c ∈ s.getLast?, p c = false := by
  rw [trim]
  constructor
  · intro h
    have hstart : trimStart p s = s := by
      refine (List.dropWhile_suffix p).eq_of_length_le ?_
      have := (List.rdropWhile_prefix p (s.dropWhile p)).length_le
      rw [← trim_eq, trim, h] at this
      exact this
    rw [hstart] at h
    refine ⟨fun c hc => ?_, trimEnd_eq_self_iff.1 h⟩
    rw [← hstart] at hc
    exact head?_dropWhile p _ c hc
  · rintro ⟨hhead, hlast⟩
    have hstart : trimStart p s = s := by
      cases s with
      | nil => rfl
      | cons c s => exact List.dropWhile_cons_of_neg (by simp [hhead c rfl])
    rw [hstart, trimEnd_eq_self_iff.2 hlast]

theorem getLast?_indented {s : Text} {c : Char} (hs : s.getLast? = some c) (hc : c ≠ '\n') :
    (indented indent s).getLast? = some c := by
  obtain ⟨u, rfl⟩ := List.getLast?_eq_some_iff.1 hs
  rw [indented_append, indented_cons hc, indented_nil]
  exact List.getLast?_concat

theorem head?_indented (s : Text) : (indented indent s).head? = s.head? := by
  cases s with
  | nil => rfl
  | cons c s =>
    by_cases hc : c = '\n'
    · rw [hc, indented_newline]
      rfl
    · rw [indented_cons hc]
      rfl

/-- A text that begins and ends with ink does so further in. -/
theorem trim_indented {p : Char → Bool} (hp : p '\n' = true) {s : Text} (h : trim p s = s) :
    trim p (indented indent s) = indented indent s := by
  rw [trim_eq_self_iff] at h ⊢
  refine ⟨by rw [head?_indented]; exact h.1, fun c hc => ?_⟩
  cases hs : s.getLast? with
  | none =>
    rw [List.getLast?_eq_none_iff.1 hs] at hc
    cases hc
  | some d =>
    have hd := h.2 d hs
    have hne : d ≠ '\n' := by
      rintro rfl
      rw [hp] at hd
      cases hd
    rw [getLast?_indented hs hne] at hc
    cases hc
    exact hd

theorem not_special_of_isIndent {c : Char} (h : isIndent c = true) :
    Style.isQuote c = false ∧ Style.opensGroup c = false ∧ Style.closesGroup c = false ∧
      c ≠ ';' := by
  rcases isIndent_iff.1 h with rfl | rfl <;> decide

/-- Indentation neither opens nor closes anything in a declaration. -/
theorem isWhole_indent_append (hi : ∀ c ∈ indent, isIndent c = true) {q : Option Char}
    (hq : ∀ c ∈ q, Style.isQuote c = true) {depth : Int} {s : Text}
    (h : Style.IsWhole ';' q depth s) : Style.IsWhole ';' q depth (indent ++ s) := by
  induction indent with
  | nil => exact h
  | cons c u ih =>
    obtain ⟨hquote, hopen, hclose, hsep⟩ := not_special_of_isIndent (hi c List.mem_cons_self)
    have hu := ih fun d hd => hi d (List.mem_cons_of_mem c hd)
    cases q with
    | none =>
      simp only [List.cons_append, Style.IsWhole, hquote, hopen, hclose, Bool.false_eq_true,
        if_false]
      exact ⟨fun h => hsep h.1, hu⟩
    | some q =>
      have hne : c ≠ q := by
        rintro rfl
        rw [hq c rfl] at hquote
        cases hquote
      rw [List.cons_append, Style.IsWhole, if_neg hne]
      exact hu

theorem isWhole_indented (hi : ∀ c ∈ indent, isIndent c = true) {q : Option Char}
    (hq : ∀ c ∈ q, Style.isQuote c = true) {depth : Int} {s : Text}
    (h : Style.IsWhole ';' q depth s) : Style.IsWhole ';' q depth (indented indent s) := by
  -- the step past a character, which keeps what follows whole
  have next {c : Char} {q q' : Option Char} {depth depth' : Int} {s : Text}
      (hstep : ∀ u, Style.IsWhole ';' q' depth' u → Style.IsWhole ';' q depth (c :: u))
      (hq' : ∀ c ∈ q', Style.isQuote c = true)
      (ih : Style.IsWhole ';' q' depth' (indented indent s)) :
      Style.IsWhole ';' q depth (indented indent (c :: s)) := by
    by_cases hc : c = '\n'
    · subst hc
      rw [indented_newline]
      exact hstep _ (isWhole_indent_append hi hq' ih)
    · rw [indented_cons hc]
      exact hstep _ ih
  fun_induction Style.IsWhole ';' q depth s with
  | case1 => exact h
  | case2 q depth c s ih =>
    have hq' : ∀ d ∈ if c = q then none else some q, Style.isQuote d = true := by
      split
      · rintro _ ⟨⟩
      · exact hq
    exact next (fun u hu => hu) hq' (ih hq' h)
  | case3 depth c s h1 ih =>
    have hq' : ∀ d ∈ some c, Style.isQuote d = true := by
      rintro _ ⟨⟩
      exact h1
    exact next (fun u hu => by simpa [Style.IsWhole, h1] using hu) hq' (ih hq' h)
  | case4 depth c s h1 h2 ih =>
    exact next (fun u hu => by simpa [Style.IsWhole, h1, h2] using hu) hq (ih hq h)
  | case5 depth c s h1 h2 h3 ih =>
    exact next (fun u hu => by simpa [Style.IsWhole, h1, h2, h3] using hu) hq (ih hq h)
  | case6 depth c s h1 h2 h3 ih =>
    refine next (fun u hu => ?_) hq (ih hq h.2)
    simp only [Style.IsWhole, h1, h2, h3, Bool.false_eq_true, if_false]
    exact ⟨h.1, hu⟩

theorem isDeclaration_indented (hi : indent.all isIndent = true) {e : Entry}
    (he : Style.IsDeclaration e) : Style.IsDeclaration (e.1, indented indent e.2) where
  property_ne := he.property_ne
  property := he.property
  value_ne := indented_eq_nil_iff.not.2 he.value_ne
  value := trim_indented (by decide) he.value
  whole := isWhole_indented (List.all_eq_true.1 hi) (by rintro _ ⟨⟩) he.whole

/-! ## Content that is kept -/

theorem lower_indented (hi : indent.all isIndent = true) (s : Text) :
    lower (indented indent s) = indented indent (lower s) := by
  have hlower (s : Text) : lower s = s.flatMap fun c => [c.toLower] := List.map_eq_flatMap
  rw [hlower, hlower]
  refine (indented_flatMap_chars (fun c hc => ?_) (fun c hc => ?_) s).symm
  · rw [List.mem_singleton]
    exact fun h => hc (eq_of_toLower_eq (by decide) h.symm)
  · rcases hc with rfl | hc
    · rfl
    · rcases isIndent_iff.1 (List.all_eq_true.1 hi c hc) with rfl | rfl <;> rfl

/-- A word on one line is found further in only if it was there. -/
theorem exists_of_afterWord?_indented {w s r : Text} (hw : '\n' ∉ w)
    (h : afterWord? w (indented indent s) = some r) :
    ∃ t, afterWord? w s = some t ∧ r = indented indent t := by
  induction w generalizing s with
  | nil =>
    rw [afterWord?] at h
    cases h
    exact ⟨s, rfl, rfl⟩
  | cons d w ih =>
    rw [List.mem_cons, not_or] at hw
    cases s with
    | nil => simp [afterWord?] at h
    | cons c s =>
      by_cases hc : c = '\n'
      · subst hc
        rw [indented_newline, afterWord?, if_neg (Ne.symm hw.1)] at h
        cases h
      · rw [indented_cons hc, afterWord?] at h
        split at h
        next heq =>
          rw [afterWord?, if_pos heq]
          exact ih hw.2 h
        next => cases h

theorem startsClose_of_indented (hi : indent.all isIndent = true) {tag s : Text}
    (ht : IsTagName tag) (h : startsClose tag (indented indent s) = true) :
    startsClose tag s = true := by
  have hname : '\n' ∉ '<' :: '/' :: lower tag := by
    simp only [List.mem_cons, not_or]
    refine ⟨by decide, by decide, fun hm => ?_⟩
    obtain ⟨c, hc, hlower⟩ := List.mem_map.1 hm
    rw [eq_of_toLower_eq (by decide) hlower] at hc
    exact ht.not_mem (by decide) hc
  rw [startsClose, lower_indented hi] at h
  split at h
  next c r hafter =>
    obtain ⟨t, ht, heq⟩ := exists_of_afterWord?_indented hname hafter
    have hhead := @head?_indented indent t
    rw [← heq] at hhead
    obtain ⟨t, rfl⟩ : ∃ t', t = c :: t' := by
      cases t with
      | nil => cases hhead
      | cons d t =>
        cases hhead
        exact ⟨t, rfl⟩
    rw [startsClose, ht]
    exact h
  next => cases h

theorem isRawContent_indented (hi : indent.all isIndent = true) {tag s : Text} (ht : IsTagName tag)
    (h : IsRawContent tag s) : IsRawContent tag (indented indent s) := by
  induction s with
  | nil => exact h
  | cons c s ih =>
    have hs := ih fun q hq hsuf => h q hq (hsuf.trans (List.suffix_cons c s))
    by_cases hc : c = '\n'
    · subst hc
      rw [indented_newline, ← List.cons_append]
      exact .blank_append (isBlankText_cons.2 ⟨rfl, isBlankText_of_isIndent hi⟩) hs
    · have hclose : startsClose tag (c :: indented indent s) = false := by
        rw [← indented_cons hc, Bool.eq_false_iff]
        intro hstarts
        have := startsClose_of_indented hi ht hstarts
        rw [h _ (List.cons_ne_nil c s) List.suffix_rfl] at this
        cases this
      rw [indented_cons hc]
      exact .cons hclose hs

end Texts

/-! ## Nodes -/

/-- Attributes with their values put further in. -/
def Attrs.indented (indent : Text) (m : Attrs) : Attrs where
  entries := m.entries.map fun e => (e.1, Text.indented indent e.2)
  nodup := by
    have : names (m.entries.map fun e => (e.1, Text.indented indent e.2)) = names m.entries := by
      rw [names, List.map_map]
      rfl
    rw [this]
    exact m.nodup

namespace Node

mutual

/-- A node with its values and its texts put further in. -/
def indented (indent : Text) : Node → Node
  | .text t => .text (Text.indented indent t)
  | .element tag attributes style children =>
    .element tag (attributes.indented indent) (style.indented indent) (indentedAll indent children)

/-- Nodes with their values and texts put further in. -/
def indentedAll (indent : Text) : List Node → List Node
  | [] => []
  | n :: ns => indented indent n :: indentedAll indent ns

end

/-- The attributes, the declarations and the kept texts of every element have no line breaks. -/
def IsUnbroken (n : Node) : Prop :=
  n.Everywhere fun tag as st cs => (∀ e ∈ as.entries, '\n' ∉ e.2) ∧ (∀ e ∈ st.entries, '\n' ∉ e.2) ∧
    (isRaw tag = true → ∀ t, .text t ∈ cs → '\n' ∉ t)

variable {indent : Text} {n : Node} {ns : List Node}

theorem isText_indented : (n.indented indent).isText = n.isText := by
  cases n <;> rfl

theorem indentedAll_eq_map : indentedAll indent ns = ns.map (indented indent) := by
  induction ns with
  | nil => rfl
  | cons n ns ih => rw [indentedAll, ih, List.map_cons]

theorem textsApart_indentedAll (h : TextsApart ns) : TextsApart (indentedAll indent ns) := by
  rw [TextsApart, indentedAll_eq_map, List.isChain_map]
  simpa only [isText_indented, TextsApart] using h

theorem mem_entries_indented {m : Attrs} {e : Entry} (h : e ∈ (m.indented indent).entries) :
    ∃ f ∈ m.entries, e = (f.1, Text.indented indent f.2) := by
  obtain ⟨f, hf, rfl⟩ := List.mem_map.1 h
  exact ⟨f, hf, rfl⟩

theorem isKept_indentedAll (hi : indent.all isIndent = true) {tag : Text} (ht : IsTagName tag)
    (h : IsKept tag ns) : IsKept tag (indentedAll indent ns) := by
  match ns, h with
  | [], _ => trivial
  | [.text t], ⟨hne, htrim, hraw⟩ =>
    exact ⟨indented_eq_nil_iff.not.2 hne, trim_indented rfl htrim, isRawContent_indented hi ht hraw⟩

mutual

/-- **A normal node is normal further in.** -/
theorem IsNormal.indented (hi : indent.all isIndent = true) {n : Node} (h : n.IsNormal) :
    (n.indented indent).IsNormal := by
  cases n with
  | text t =>
    rw [Node.indented, indented_of_collapse_eq h.2]
    exact h
  | element tag as st cs =>
    obtain ⟨htag, ha, hs, hvoid, hchildren⟩ := h
    refine ⟨htag, fun e he => ?_, fun e he => ?_, fun hv => ?_, ?_⟩
    · obtain ⟨f, hf, rfl⟩ := mem_entries_indented he
      have hattr := ha f hf
      refine ⟨hattr.name_ne, hattr.name, hattr.name_ne_style, fun hc => ?_⟩
      rw [indented_of_collapse_eq (hattr.classes hc), hattr.classes hc]
    · obtain ⟨f, hf, rfl⟩ := mem_entries_indented he
      exact isDeclaration_indented hi (hs f hf)
    · rw [hvoid hv, indentedAll]
    · split_ifs at hchildren ⊢
      · exact isKept_indentedAll hi htag hchildren
      · exact ⟨textsApart_indentedAll hchildren.1, AllNormal.indentedAll hi hchildren.2⟩

theorem AllNormal.indentedAll (hi : indent.all isIndent = true) {ns : List Node}
    (h : AllNormal ns) : AllNormal (indentedAll indent ns) := by
  cases ns with
  | nil => trivial
  | cons n ns => exact ⟨IsNormal.indented hi h.1, AllNormal.indentedAll hi h.2⟩

end

theorem topLevel_indented : (n.indented indent).topLevel = indentedAll indent n.topLevel := by
  cases n with
  | text => rfl
  | element tag as st cs =>
    rw [indented, topLevel, topLevel]
    split_ifs <;> simp_all [isRoot, tag?, children, indentedAll, indented]

theorem IsNormalDocument.indented (hi : indent.all isIndent = true) (h : n.IsNormalDocument) :
    (n.indented indent).IsNormalDocument := by
  cases n with
  | text => exact h.elim
  | element tag as st cs =>
    rw [Node.indented]
    rw [IsNormalDocument] at h ⊢
    split_ifs at h ⊢
    · obtain ⟨rfl, rfl, hapart, hns, hone⟩ := h
      refine ⟨rfl, rfl, textsApart_indentedAll hapart, hns.indentedAll hi, fun m hm => ?_⟩
      rw [indentedAll_eq_map] at hm
      obtain ⟨n, rfl, rfl⟩ := List.map_eq_singleton_iff.1 hm
      rw [isText_indented, hone n rfl]
    · exact IsNormal.indented hi h

/-! ### Line breaks -/

theorem attrs_indented_eq_self {m : Attrs} (h : indent = [] ∨ ∀ e ∈ m.entries, '\n' ∉ e.2) :
    m.indented indent = m := by
  refine Attrs.ext ((List.map_congr_left fun e he => ?_).trans (List.map_id m.entries))
  have := indented_eq_self_iff.2 (h.imp_right fun h => h e he)
  rw [this]
  rfl

theorem not_mem_of_same_attrs {m : Attrs} (hi : indent ≠ []) (h : (m.indented indent).Same m) :
    ∀ e ∈ m.entries, '\n' ∉ e.2 := by
  intro e he
  have hfind := h e.1
  have hmem : (e.1, Text.indented indent e.2) ∈ (m.indented indent).entries :=
    List.mem_map.2 ⟨e, he, rfl⟩
  rw [Attrs.find?_of_mem hmem, Attrs.find?_of_mem (show (e.1, e.2) ∈ m.entries from he)] at hfind
  exact (indented_eq_self_iff.1 (Option.some.inj hfind)).resolve_left hi

mutual

/-- A node without line breaks of its own stays as it is. -/
theorem IsNormal.indented_eq_self {n : Node} (hn : n.IsNormal) (h : indent = [] ∨ n.IsUnbroken) :
    n.indented indent = n := by
  cases n with
  | text t => rw [indented, indented_of_collapse_eq hn.2]
  | element tag as st cs =>
    have hcs : indentedAll indent cs = cs := by
      obtain ⟨-, -, -, -, hchildren⟩ := hn
      split_ifs at hchildren with hraw
      · match cs, hchildren with
        | [], _ => rfl
        | [.text t], _ =>
          have := indented_eq_self_iff.2 (h.imp_right fun h => h.1.2.2 hraw t List.mem_cons_self)
          rw [indentedAll, indented, indentedAll, this]
      · exact AllNormal.indentedAll_eq_self hchildren.2
          (h.imp_right fun h => allEverywhere_iff.1 h.2)
    rw [indented, attrs_indented_eq_self (h.imp_right fun h => h.1.1),
      attrs_indented_eq_self (h.imp_right fun h => h.1.2.1), hcs]

theorem AllNormal.indentedAll_eq_self {ns : List Node} (hns : AllNormal ns)
    (h : indent = [] ∨ ∀ n ∈ ns, n.IsUnbroken) : indentedAll indent ns = ns := by
  cases ns with
  | nil => rfl
  | cons n ns =>
    rw [indentedAll, IsNormal.indented_eq_self hns.1 (h.imp_right fun h => h n List.mem_cons_self),
      AllNormal.indentedAll_eq_self hns.2
        (h.imp_right fun h m hm => h m (List.mem_cons_of_mem n hm))]

end

theorem not_mem_of_sameAll (hi : indent ≠ []) (h : SameAll (indentedAll indent ns) ns) {t : Text}
    (ht : .text t ∈ ns) : '\n' ∉ t := by
  induction ns with
  | nil => cases ht
  | cons n ns ih =>
    rcases List.mem_cons.1 ht with rfl | ht
    · have heq : Text.indented indent t = t := h.1
      exact (indented_eq_self_iff.1 heq).resolve_left hi
    · exact ih h.2 ht

mutual

/-- A node that has line breaks of its own does not. -/
theorem isUnbroken_of_same (hi : indent ≠ []) {n : Node} (h : (n.indented indent).Same n) :
    n.IsUnbroken := by
  cases n with
  | text t => trivial
  | element tag as st cs =>
    obtain ⟨-, has, hst, hcs⟩ := h
    refine ⟨⟨not_mem_of_same_attrs hi has, not_mem_of_same_attrs hi hst, fun _ t ht => ?_⟩,
      allEverywhere_iff.2 (isUnbroken_of_sameAll hi hcs)⟩
    exact not_mem_of_sameAll hi hcs ht

theorem isUnbroken_of_sameAll (hi : indent ≠ []) {ns : List Node}
    (h : SameAll (indentedAll indent ns) ns) : ∀ n ∈ ns, n.IsUnbroken := by
  cases ns with
  | nil => exact List.forall_mem_nil _
  | cons n ns =>
    exact List.forall_mem_cons.2 ⟨isUnbroken_of_same hi h.1, isUnbroken_of_sameAll hi h.2⟩

end

theorem IsNormalDocument.indented_eq_self (hn : n.IsNormalDocument)
    (h : indent = [] ∨ n.IsUnbroken) : n.indented indent = n := by
  cases n with
  | text => exact hn.elim
  | element tag as st cs =>
    rw [IsNormalDocument] at hn
    split_ifs at hn
    · obtain ⟨rfl, rfl, -, hns, -⟩ := hn
      rw [Node.indented, hns.indentedAll_eq_self (h.imp_right fun h => allEverywhere_iff.1 h.2)]
      rfl
    · exact IsNormal.indented_eq_self hn h

/-- **Only documents without line breaks of their own stay as they are further in.** -/
theorem IsNormalDocument.same_indented_iff (hn : n.IsNormalDocument) :
    (n.indented indent).Same n ↔ indent = [] ∨ n.IsUnbroken := by
  refine ⟨fun h => or_iff_not_imp_left.2 fun hi => isUnbroken_of_same hi h, fun h => ?_⟩
  rw [hn.indented_eq_self h]
  exact .refl n

end Node

/-! ## Printed nodes -/

namespace Printer

variable {p : Printer} {indent : Text}

theorem not_mem_of_isWordChar {s : Text} (h : s.all isWordChar = true) : '\n' ∉ s :=
  fun hm => absurd (List.all_eq_true.1 h _ hm) (by decide)

theorem source_valueSource_indented (hp : p.WritesHtml) (hi : indent.all isIndent = true)
    (value : Text) : (p.valueSource (indented indent value)).source =
      indented indent (p.valueSource value).source := by
  have hquote : p.quote ≠ '\n' := by
    rcases hp.quote with h | h <;> rw [h] <;> decide
  have hequals : '=' ≠ '\n' := by decide
  rw [ValueSource.source, ValueSource.source, quoted_valueSource hp.quote,
    quoted_valueSource hp.quote]
  simp [quoted, valueSource, indented_cons hquote, indented_cons hequals,
    indented_escapeQuoted hi hp.quote]

theorem source_attrSource_indented (hp : p.WritesHtml) (hi : indent.all isIndent = true) {e : Entry}
    (he : IsAttribute e) : (p.attrSource (e.1, indented indent e.2)).source =
      indented indent (p.attrSource e).source := by
  have hname := @indented_of_not_mem indent _ (not_mem_of_isWordChar he.name)
  have hspace : ' ' ≠ '\n' := by decide
  by_cases hv : e.2 = []
  · simp [attrSource, AttrSource.source, hv, hname, indented_cons hspace]
  · simp [attrSource, AttrSource.source, hv, indented_eq_nil_iff, hname, indented_cons hspace,
      source_valueSource_indented hp hi]

theorem writeDeclarations_indented {m : Attrs} (hm : ∀ e ∈ m.entries, Style.IsDeclaration e) :
    Style.writeDeclarations (m.indented indent) = indented indent (Style.writeDeclarations m) := by
  have hgap : indented indent [';', ' '] = [';', ' '] := indented_of_not_mem (by decide)
  have hcolon : indented indent [':', ' '] = [':', ' '] := indented_of_not_mem (by decide)
  rw [Style.writeDeclarations, Style.writeDeclarations, indented_intercalate, hgap, Attrs.indented,
    List.map_map, List.map_map]
  congr 1
  refine List.map_congr_left fun e he => ?_
  have hname := @indented_of_not_mem indent e.1 fun hn =>
    Style.isPropertyChar_ne ((hm e he).chars _ hn) (d := '\n') rfl rfl
  rw [Function.comp_apply, Function.comp_apply, Style.writeDeclaration, Style.writeDeclaration,
    indented_append, indented_append, hname, hcolon]

theorem source_styleSource_indented (hp : p.WritesHtml) (hi : indent.all isIndent = true)
    {style : Attrs} (hs : ∀ e ∈ style.entries, Style.IsDeclaration e) :
    (p.styleSource (style.indented indent)).source =
      indented indent (p.styleSource style).source := by
  have hname := @indented_of_not_mem indent styleName (by decide)
  have hspace : ' ' ≠ '\n' := by decide
  simp [styleSource, AttrSource.source, writeDeclarations_indented hs, hname, indented_cons hspace,
    source_valueSource_indented hp hi]

/-- The tag of a node further in. -/
theorem source_tagSource_indented (hp : p.WritesHtml) (hi : indent.all isIndent = true)
    {tag : Text} {attributes style : Attrs} (ht : IsTagName tag)
    (ha : ∀ e ∈ attributes.entries, IsAttribute e)
    (hs : ∀ e ∈ style.entries, Style.IsDeclaration e) :
    (p.tagSource tag (attributes.indented indent) (style.indented indent)).source =
      indented indent (p.tagSource tag attributes style).source := by
  have hname := @indented_of_not_mem indent _ (ht.not_mem (by decide : isNameChar '\n' = false))
  have hattrs : (p.attrSources (attributes.indented indent) (style.indented indent)).flatMap
      AttrSource.source =
        indented indent ((p.attrSources attributes style).flatMap AttrSource.source) := by
    have hempty : (style.indented indent).isEmpty = style.isEmpty := by
      rw [Attrs.isEmpty, Attrs.indented, Attrs.isEmpty, List.isEmpty_map]
    rw [attrSources, attrSources, hempty, List.flatMap_append, List.flatMap_append,
      indented_append, indented_flatMap, List.flatMap_map, Attrs.indented, List.flatMap_map,
      List.flatMap_map]
    congr 1
    · exact List.flatMap_congr fun e he => source_attrSource_indented hp hi (ha e he)
    · split
      · rfl
      · rw [List.flatMap_singleton, List.flatMap_singleton, source_styleSource_indented hp hi hs]
  have hopen : '<' ≠ '\n' := by decide
  have hclose : '>' ≠ '\n' := by decide
  simp [TagSource.source, TagSource.body, tagSource, tagClose, hname, indented_cons hopen,
    indented_cons hclose, hattrs]

theorem indented_line (hp : p.WritesHtml) (indent : Text) (level : Nat) :
    indented indent (p.line [] level) = p.line indent level := by
  have := @indented_of_not_mem indent _
    (not_mem_of_isIndent (List.all_eq_true.1 (all_isIndent_replicate hp.unit level)) (by decide))
  rw [indented] at this
  simp [line, indented, replaceChar, this]

theorem source_contentOf_indented (hp : p.WritesHtml) (indent : Text) (level : Nat)
    (isOneLine : Bool) {cs ds : List Piece}
    (h : ds.map Piece.source = cs.map fun c => indented indent c.source) :
    (p.contentOf indent level isOneLine ds).source =
      indented indent (p.contentOf [] level isOneLine cs).source := by
  have key (front : Text) : sourcePieces (ds.map fun c => (front, c)) =
      cs.flatMap fun c => front ++ indented indent c.source := by
    have := congrArg (fun l : List Text => l.flatMap fun t => front ++ t) h
    simpa [sourcePieces_map, List.flatMap_map] using this
  cases isOneLine
  · simp only [contentOf, Bool.false_eq_true, if_false, Content.source_ofPieces, key,
      indented_append, indented_line hp, indented_flatMap, sourcePieces_map]
  · simp only [contentOf, if_true, Content.source_ofPieces, key, indented_append, indented_flatMap,
      sourcePieces_map]
    simp [indented, replaceChar]

theorem isInline_indentedAll (ns : List Node) :
    p.isInline (Node.indentedAll indent ns) = p.isInline ns := by
  rw [isInline, isInline, Node.indentedAll_eq_map, List.all_map, List.any_map]
  have : Node.isText ∘ Node.indented indent = Node.isText := funext fun n => Node.isText_indented
  rw [this]

theorem keptText_indentedAll {tag : Text} {ns : List Node} (h : IsKept tag ns) :
    keptText (Node.indentedAll indent ns) = indented indent (keptText ns) := by
  match ns, h with
  | [], _ => rfl
  | [.text t], _ => rfl

mutual

/-- **A printed node put further in is this node, as it is further in, printed there.** -/
theorem source_piece_indented (hp : p.WritesHtml) (hi : indent.all isIndent = true) {n : Node}
    (hn : n.IsNormal) (level : Nat) :
    (p.piece indent level (n.indented indent)).source =
      indented indent (p.piece [] level n).source := by
  cases n with
  | text t => exact (indented_escapeText hi t).symm
  | element tag attributes style children =>
    obtain ⟨htag, ha, hs, hvoid, hchildren⟩ := hn
    have hopen := source_tagSource_indented (p := p) hp hi htag ha hs
    have hname : '\n' ∉ tag := htag.not_mem (by decide)
    have hclose : indented indent (CloseSource.mk tag []).source = (CloseSource.mk tag []).source :=
      indented_of_not_mem (by simp [CloseSource.source, hname])
    rw [Node.indented, piece, piece]
    by_cases hv : isVoid tag = true
    · simp only [hv, if_true, Piece.source, Written.source, hopen]
    by_cases hr : isRaw tag = true
    · rw [if_pos hr] at hchildren
      simp only [hv, hr, Bool.false_eq_true, if_true, if_false, Piece.source, Written.source,
        indented_append, hopen, hclose, keptText_indentedAll hchildren]
    · simp only [hv, hr, Bool.false_eq_true, if_false] at hchildren ⊢
      simp only [Piece.source, Written.source, indented_append, hopen, hclose, isInline_indentedAll]
      rw [source_contentOf_indented hp indent level _ (source_pieces_indented hp hi hchildren.2 _)]

theorem source_pieces_indented (hp : p.WritesHtml) (hi : indent.all isIndent = true)
    {ns : List Node} (hns : Node.AllNormal ns) (level : Nat) :
    (p.pieces indent level (Node.indentedAll indent ns)).map Piece.source =
      (p.pieces [] level ns).map fun c => indented indent c.source := by
  cases ns with
  | nil => rfl
  | cons n ns =>
    rw [Node.indentedAll, pieces, pieces, List.map_cons, List.map_cons,
      source_piece_indented hp hi hns.1, source_pieces_indented hp hi hns.2]

end

/-- A printed document put further in, between two gaps. -/
theorem source_documentContent_indented (hp : p.WritesHtml) (front back : Text)
    (hi : indent.all isIndent = true) {n : Node} (hn : n.IsNormalDocument) (level : Nat) :
    (p.documentContent front indent level (n.indented indent) back).source =
      front ++ indented indent (p.print n level) ++ back := by
  rw [← source_documentContent hp hn.isPrintable, documentContent, documentContent,
    Content.source_between, Content.source_between, List.nil_append, List.append_nil,
    indented_intercalate, indented_line hp, Node.topLevel_indented,
    source_pieces_indented hp hi hn.topLevel.1, List.map_map]
  rfl

end Printer

end MarkupSync
