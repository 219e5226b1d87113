import MarkupSync.Proofs.Patch.Children

/-!
# Patched elements

* `Derived.exists_element`: what is derived from an element is an element;
* `exists_rawSplices`: the changes of content that is kept as it is written;
* `patches_run`, `patches_leaf`, `patches_raw`, `patches_full`: the changes in each kind of piece;
* **`patches`**: the changes in a valid piece make it a piece of the new node.
-/

namespace MarkupSync

open Text Shadow Section

theorem eq_of_map_fst_snd {α β : Type} {l l' : List (α × β)} (h1 : l.map Prod.fst = l'.map Prod.fst)
    (h2 : l.map Prod.snd = l'.map Prod.snd) : l = l' := by
  rw [← List.zip_unzip l, ← List.zip_unzip l', List.unzip_eq_map, List.unzip_eq_map]
  simp only [h1, h2]

/-- What is derived from a text is a text. -/
theorem Derived.exists_text {path : NodePath} {a : Text} {place : Place} {s : Shadow}
    (h : Derived path (.text a, place) s) :
    ∃ b, s = .text (some ⟨path, .text a, place⟩) b := by
  cases h
  exact ⟨_, rfl⟩

/-- What is derived from an element is an element. -/
theorem Derived.exists_element {path : NodePath} {tag : Text} {as st : Attrs} {place : ElementPlace}
    {l : List (Node × Place)} {s : Shadow}
    (h : Derived path (.element tag as st (l.map Prod.fst), .element place (l.map Prod.snd)) s) :
    ∃ bs rt cs, s = .element (some ⟨path, .element tag as st (l.map Prod.fst),
      .element place (l.map Prod.snd)⟩) tag bs rt cs ∧ AreDerived path l cs := by
  cases s with
  | text o b =>
    generalize hx : (_, _) = x at h
    cases h
    cases hx
  | element o tag' bs rt cs =>
    obtain ⟨as', st', place', l', hx, rfl, hcs⟩ := h.exists_children
    simp only [Prod.mk.injEq, Node.element.injEq, Place.element.injEq] at hx
    obtain ⟨⟨rfl, rfl, rfl, h1⟩, rfl, h2⟩ := hx
    cases eq_of_map_fst_snd h1 h2
    exact ⟨bs, rt, cs, rfl, hcs⟩

namespace Patcher

variable {p : Patcher}

/-! ## Texts -/

/-- A changed text is written anew. -/
theorem patches_run (hp : p.flavor = .html) {t m : Text} (hm : IsRunOf t m) :
    p.Patches (.run t m) := by
  intro front back path s hs hd hn
  obtain ⟨b, rfl⟩ := hd.exists_text
  have hsplices : p.splices false
      (.text (some ⟨path, .text t, .text ⟨width front, width front + width m⟩⟩) b) =
        if t = b then .ok []
        else .ok [⟨⟨width front, width front + width m⟩, (p.options.printer p.flavor).text false b⟩] :=
    splices_text
  by_cases hb : t = b
  · rw [if_pos hb] at hsplices
    exact ⟨[], .run t m, hsplices, hm, hb, id, .refl _ _⟩
  · rw [if_neg hb, hp] at hsplices
    exact ⟨_, .run b (escapeText b), hsplices, isRunOf_escapeText hn.normal.1 hn.normal.2, rfl,
      fun _ => hasMark_of_not_mem (not_mem_escapeText b), .single _ _ _⟩

/-! ## Elements without content -/

theorem children_eq_nil_iff {path : NodePath} {cs : List Shadow} :
    keepsChildren path 0 cs = true ↔ cs = [] := by
  rw [keepsChildren, beq_iff_eq]
  simp

/-- The kept texts of an element all of whose children are new have no line breaks. -/
theorem hasFlatTexts_of_isNew {tag : Text} {bs rt : Attrs} {cs : List Shadow}
    (h : ∀ c ∈ cs, c.IsNew) : Node.HasFlatTexts (.element tag bs rt (toNodes cs)) := by
  have key : ∀ n ∈ toNodes cs, n.HasFlatTexts := by
    rw [toNodes_eq_map]
    intro n hn
    obtain ⟨c, hc, rfl⟩ := List.mem_map.1 hn
    obtain ⟨m, hm, rfl⟩ := h c hc
    rwa [toNode_fresh]
  refine ⟨fun _ t ht => key _ ht, Node.allEverywhere_iff.2 fun n hn => ?_⟩
  cases n with
  | text => trivial
  | element => exact key _ hn

/-- An element without content changes in its tag, or is written anew when it gets children. -/
theorem patches_leaf (hp : p.flavor = .html) {g : TagSource} (hw : (Written.leaf g).IsValid) :
    p.Patches (.element (.leaf g)) := by
  intro front back path s hs hd hn
  rw [Piece.read, Written.read, g.element_openTag hw.1] at hd
  obtain ⟨bs, rt, cs, rfl, hcs⟩ := hd.exists_element
  rw [toNode] at hn ⊢
  obtain ⟨htag, hattrs, hstyle, -, -⟩ := hn.normal
  rw [splices_leaf rfl]
  split_ifs with hk
  · obtain rfl := children_eq_nil_iff.1 hk
    obtain ⟨h, hvalid, hname, hself, has, hst, hhides, hrw⟩ := exists_rewrites_tagSplices ⟨bs, rt⟩ hp
      hw.1 hattrs hstyle hs (width front + width g.source) none
    exact ⟨_, .element (.leaf h), rfl, ⟨hvalid, by rw [hname, hself]; exact hw.2⟩,
      ⟨hname, has, hst, trivial⟩, hhides, hrw⟩
  · -- all children are new
    have hnew : ∀ c ∈ cs, c.IsNew := fun c hc => by
      cases ho : c.origin with
      | none => exact hcs.isNew c hc ho
      | some o =>
        obtain ⟨i, x, hx, -⟩ := hcs.place c hc o ho
        cases hx
    have hindent := all_isIndent_lineIndent (width front) p.source
    have hprinter := p.options.writesHtml_printer
    obtain ⟨hd, hnode⟩ := Printer.isValid_piece hprinter hindent hn.normal.isPrintable 0
    refine ⟨_, _, rfl, hd, by rw [hnode]; exact .refl _, fun _ =>
      Printer.hidesNoMark_piece hprinter hindent hn.normal.isPrintable 0, ?_⟩
    rw [fresh_eq hp (all_isIndent_lineIndent _ _) hn.normal hn.values (hasFlatTexts_of_isNew hnew)]
    exact .single _ _ _

/-! ## Elements with content -/

/-- An element with content changes in its tag and in its content. -/
theorem patches_full (hp : p.flavor = .html) {g : TagSource} {content : Content}
    {close : CloseSource} (hw : (Written.full g content close).IsValid)
    (hpatches : ∀ c : Piece, c.IsValid → width c.source ≤ width content.source → p.Patches c) :
    p.Patches (.element (.full g content close)) := by
  intro front back path s hs hd hn
  obtain ⟨hg, hself, hvoid, hraw, hcontent, hclose⟩ := hw
  simp only [Piece.read, Written.read, g.element_openTag hg] at hd
  generalize hstart : width front + width g.source = start at hd
  generalize start + width content.source + width close.source = stop at hd
  obtain ⟨bs, rt, cs, rfl, hcs⟩ := hd.exists_element
  rw [toNode] at hn ⊢
  obtain ⟨-, hattrs, hstyle, -, -⟩ := hn.normal
  obtain ⟨hapart, hns⟩ := hn.children hraw
  have hns' : ∀ c ∈ cs, c.toNode.IsTarget := fun c hc =>
    hns _ (toNodes_eq_map cs ▸ List.mem_map_of_mem hc)
  rw [Piece.source, Written.source] at hs
  have hs1 : p.source = front ++ g.source ++ (content.source ++ close.source ++ back) := by
    rw [hs]
    simp
  have hs2 : p.source = front ++ g.source ++ content.source ++ (close.source ++ back) := by
    rw [hs]
    simp
  obtain ⟨h, hvalid, hname, hself', has, hst, hhides, hrw⟩ := exists_rewrites_tagSplices ⟨bs, rt⟩ hp hg
    hattrs hstyle hs1 stop (some ⟨start, start + width content.source⟩)
  obtain ⟨ps, blank, rfl, hblank, hps, hread⟩ := content.exists_pieces hcontent start
  rw [Content.source_ofPieces] at hs2 hpatches hrw ⊢
  rw [hread] at hcs ⊢
  obtain rfl : start = width (front ++ g.source) := by rw [width_append, hstart]
  have hpieces : ∀ q ∈ ps, p.Patches q.2 := by
    refine fun q hq => hpatches q.2 (hps q hq).2 ?_
    rw [width_append]
    exact Nat.le_add_right_of_le (width_le_sourcePieces hq)
  obtain ⟨fs, c, hfs, hc, hsame, hhide, hrw'⟩ := exists_contentSplices hp (fun q hq => (hps q hq).1) hblank
    hpieces hs2 hcs hns' hapart (g.place (width front) stop (some ⟨_, _⟩))
  have hkeeps : p.keepsContent g.name = false := by simp [Patcher.keepsContent, hraw]
  rw [splices_element rfl, hkeeps, hfs]
  refine ⟨_, .element (.full h c close), rfl, ?_, ⟨hname, has, hst, hsame⟩, ?_, ?_⟩
  · exact ⟨hvalid, hself'.trans hself, hname ▸ hvoid, hname ▸ hraw, hc, hname ▸ hclose⟩
  · rintro ⟨htag, hinner⟩
    obtain ⟨hmark, hold⟩ := Content.hidesNoMark_of_ofPieces hinner
    exact ⟨hhides htag, hhide hold hmark⟩
  · rw [width_append] at hrw'
    rw [Piece.source, Piece.source, Written.source, Written.source, Content.source_ofPieces]
    exact hrw.append_keep hrw' _

/-! ## Content that is kept as it is written -/

/-- A text between blanks is the only node of content that is kept. -/
theorem rawNodes_between {a t b : Text} (ha : IsBlankText a) (hb : IsBlankText b) (hne : t ≠ [])
    (ht : trim isBlank t = t) : rawNodes (a ++ (t ++ b)) = [.text t] := by
  rw [rawNodes, trim_between ha hb (by rwa [ht]), ht, if_neg hne]

theorem exists_of_isKept {tag : Text} {cs : List Shadow} (h : IsKept tag (toNodes cs)) :
    cs = [] ∨ ∃ o t, cs = [.text o t] ∧ t ≠ [] ∧ trim isBlank t = t ∧ IsRawContent tag t := by
  match cs, h with
  | [], _ => exact .inl rfl
  | [.text o t], h => exact .inr ⟨o, t, rfl, h⟩
  | [.element ..], h => exact h.elim
  | .text .. :: _ :: _, h => exact h.elim
  | .element .. :: _ :: _, h => exact h.elim

theorem keepsChildren_of_isNew {path : NodePath} {count : Nat} {cs : List Shadow} {c : Shadow}
    (hc : c ∈ cs) (h : c.IsNew) : keepsChildren path count cs = false := by
  rw [keepsChildren, beq_eq_false_iff_ne]
  intro heq
  have := List.mem_map_of_mem (f := fun s : Shadow => s.origin.map Origin.path) hc
  rw [heq, List.mem_map] at this
  obtain ⟨i, -, hi⟩ := this
  rw [h.origin] at hi
  cases hi

/-- A new text is written as it is. -/
theorem contentSplices_new {path : NodePath} {place : ElementPlace} {inner : Span} {old : List Place}
    {o : Option Origin} {t : Text} (h : (Shadow.text o t).IsNew) :
    p.contentSplices path place inner true old [.text o t] =
      .ok [(p.arrangement place inner old [.text o t]).splice [t]] := by
  have ho : o = none := h.origin
  have hkeeps : keepsChildren path old.length [.text o t] = false :=
    keepsChildren_of_isNew List.mem_cons_self h
  obtain ⟨m, hm, heq⟩ := h
  have hmt : m = .text t := by
    rw [← toNode_fresh m, ← heq]
    rfl
  rw [hmt] at hm
  subst ho
  simp only [contentSplices, hkeeps, parts, origin, Patcher.fresh, toNode, Printer.text, if_true,
    Except.map, indented_of_not_mem hm]
  rfl

/-- The changes of content that is kept make it content with the new text. -/
theorem exists_rawSplices (hp : p.flavor = .html) {g : TagSource} {n start : Nat} {content tag : Text}
    (htag : IsTagName tag) (hcontent : IsRawContent tag content) {path : NodePath} {cs : List Shadow}
    (hcs : AreDerived path (g.openTag n (keptContent start content)).rawChild cs)
    (hkept : IsKept tag (toNodes cs)) (hclosed : ∀ t, .text t ∈ toNodes cs → ¬ EndsInClose tag t)
    (place : ElementPlace) :
    ∃ es content', p.contentSplices path place ⟨start, start + width content⟩ true
      ((g.openTag n (keptContent start content)).rawChild.map Prod.snd) cs = .ok es ∧
      IsRawContent tag content' ∧ rawNodes content' = toNodes cs ∧
      Rewrites start content es content' := by
  have hnil : IsRawContent tag [] := fun q hq h => absurd (List.suffix_nil.1 h) hq
  obtain ⟨ht, hchild⟩ | ⟨ht, a, b, hab, ha, hb, hchild⟩ := exists_rawChild g n start content
  · rw [hchild] at hcs ⊢
    obtain rfl | ⟨o, t, rfl, hne, htrim, hraw⟩ := exists_of_isKept hkept
    · exact ⟨[], content, rfl, hcontent, by rw [rawNodes, if_pos ht]; rfl, .refl _ _⟩
    · have hnew : (Shadow.text o t).IsNew := by
        cases ho : o with
        | none => exact ho ▸ hcs.isNew _ List.mem_cons_self ho
        | some o' =>
          obtain ⟨i, x, hx, -⟩ := hcs.place _ List.mem_cons_self o' ho
          cases hx
      have harranged : p.arrangement place ⟨start, start + width content⟩ [] [.text o t] =
          ⟨⟨start, start + width content⟩, [], [], [], []⟩ := by
        simp [arrangement, arranged, breaksLines, hp, isElement]
      rw [List.map_nil, contentSplices_new hnew, harranged]
      refine ⟨_, t, rfl, hraw, ?_, by simpa [Arrangement.splice] using Rewrites.single start content t⟩
      have := rawNodes_between isBlankText_nil isBlankText_nil hne htrim
      rwa [List.nil_append, List.append_nil] at this
  · -- the text that was there stands between blanks
    generalize hm : trim isBlank content = m at ht hab hchild
    rw [hchild] at hcs ⊢
    have hreplace (t : Text) : Rewrites start content
        [⟨⟨start + width a, start + width a + width m⟩, t⟩] (a ++ (t ++ b)) := by
      rw [hab]
      have := (Rewrites.single (start + width a) m t).between a b
      simpa only [List.append_assoc] using this
    obtain rfl | ⟨o, t, rfl, hne, htrim, hraw⟩ := exists_of_isKept hkept
    · exact ⟨_, [], rfl, hnil, rfl, .single _ _ _⟩
    have hbetween := hraw.between htag (hclosed t List.mem_cons_self) ha hb
    have hnodes := rawNodes_between ha hb hne htrim
    cases ho : o with
    | none =>
      have hnew : (Shadow.text o t).IsNew := hcs.isNew _ List.mem_cons_self ho
      rw [ho] at hnew
      rw [contentSplices_new hnew]
      refine ⟨_, _, rfl, hbetween, hnodes, ?_⟩
      simpa [arrangement, rearranged, Arrangement.splice, Place.outer] using hreplace t
    | some o' =>
      obtain ⟨i, x, hx, hplace⟩ := hcs.place _ List.mem_cons_self o' ho
      obtain ⟨rfl, rfl⟩ : i = 0 ∧ x = _ := by
        cases i with
        | zero => exact ⟨rfl, (Option.some.inj hx).symm⟩
        | succ i => cases hx
      have hkeeps : keepsChildren path 1 [.text (some o') t] = true := by
        rw [keepsChildren, beq_iff_eq, hplace]
        rfl
      rw [contentSplices, List.map_singleton, List.length_singleton, hkeeps, if_pos rfl, hplace]
      simp only [splicesAll, splices_text]
      split_ifs with hmt
      · refine ⟨[], content, rfl, hcontent, ?_, .refl _ _⟩
        rw [hab, hmt]
        exact hnodes
      · exact ⟨_, _, rfl, hbetween, hnodes, hreplace t⟩

/-- An element whose content is kept changes in its tag and in its content. -/
theorem patches_raw (hp : p.flavor = .html) {g : TagSource} {content : Text} {close : CloseSource}
    (hw : (Written.raw g content close).IsValid) : p.Patches (.element (.raw g content close)) := by
  intro front back path s hs hd hn
  obtain ⟨hg, hself, hvoid, hraw, hcontent, hclose⟩ := hw
  simp only [Piece.read, Written.read, g.element_openTag hg] at hd
  generalize hstart : width front + width g.source = start at hd
  generalize start + width content + width close.source = stop at hd
  obtain ⟨bs, rt, cs, rfl, hcs⟩ := hd.exists_element
  rw [toNode] at hn ⊢
  obtain ⟨htag, hattrs, hstyle, -, hkept⟩ := hn.normal
  rw [if_pos hraw] at hkept
  rw [Piece.source, Written.source] at hs
  have hs1 : p.source = front ++ g.source ++ (content ++ close.source ++ back) := by
    rw [hs]
    simp
  obtain ⟨h, hvalid, hname, hself', has, hst, hhides, hrw⟩ := exists_rewrites_tagSplices ⟨bs, rt⟩ hp hg
    hattrs hstyle hs1 stop (some ⟨start, start + width content⟩)
  obtain ⟨fs, c, hfs, hc, hnodes, hrw'⟩ := exists_rawSplices hp htag hcontent hcs hkept
    (hn.texts.1 hraw) (g.place (width front) stop (some ⟨start, start + width content⟩))
  have hkeeps : p.keepsContent g.name = true := by simp [Patcher.keepsContent, hp, hraw]
  rw [splices_element rfl, hkeeps, hfs]
  refine ⟨_, .element (.raw h c close), rfl, ?_, ⟨hname, has, hst, ?_⟩, hhides, ?_⟩
  · exact ⟨hvalid, hself'.trans hself, hname ▸ hvoid, hname ▸ hraw, hname ▸ hc, hname ▸ hclose⟩
  · rw [hnodes]
    exact .refl _
  · rw [← hstart] at hrw'
    exact hrw.append_keep hrw' _

/-- **The changes in a valid piece make it a piece of the new node.** -/
theorem patches (hp : p.flavor = .html) {c : Piece} (hc : c.IsValid) : p.Patches c := by
  induction hlen : width c.source using Nat.strongRecOn generalizing c with
  | _ n ih =>
    subst hlen
    match c, hc with
    | .run t m, hm => exact patches_run hp hm
    | .element (.leaf g), hw => exact patches_leaf hp hw
    | .element (.raw g content close), hw => exact patches_raw hp hw
    | .element (.full g content close), hw =>
      refine patches_full hp hw fun d hd hle => ih _ ?_ hd rfl
      have hsize : '<'.utf8Size = 1 := rfl
      change width d.source < width (g.source ++ (content.source ++ close.source))
      simp only [TagSource.source, width_append, width_cons, hsize]
      omega

end Patcher

end MarkupSync
