import MarkupSync.Proofs.Document.Flow
import MarkupSync.Proofs.Document.Image
import MarkupSync.Proofs.Document.Indent
import MarkupSync.Proofs.Document.Written
import MarkupSync.Proofs.Lexeme.Reflow
import MarkupSync.Proofs.Tree.Everywhere

/-!
# Documents with other blanks at line breaks

* `Text.HasWordsOf`: texts that say the same behind any text;
* `textRun_reflow`, **`scan_reflow`**: a text with other blanks has the same lexemes, but for the
  values and the raw content of its tags and the blanks between words;
* `OpenTag.SaysSame`: tags with the same attributes, declarations and raw content;
* `Reader.Reflow.step`, **`LexemesReflow.reads`**: what one lexeme does to readers that have read
  the same, and what all do;
* **`Document.exists_read_reflow`**: the document of a text with other blanks, which is the same
  exactly if the open tags say the same;
* `LexemesReflow.saysSame`: tags whose values and raw content stand on one line do.
-/

namespace MarkupSync

open Text

variable {a b s t x y : Text}

/-! ## Words -/

/-- Two texts that say the same behind any text. -/
def Text.HasWordsOf (x y : Text) : Prop :=
  ∀ p, words (decodeEntities (p ++ x)) = words (decodeEntities (p ++ y))

theorem Text.HasWordsOf.blank_append (h : s.HasWordsOf t) (hx : IsBlankText x) (hy : IsBlankText y)
    (hxy : x = [] ↔ y = []) : (x ++ s).HasWordsOf (y ++ t) := by
  intro p
  by_cases hn : x = []
  · rw [hn, hxy.1 hn]
    exact h p
  · rw [Reflow.words_blanks hx hn, Reflow.words_blanks hy (mt hxy.2 hn)]
    exact congrArg _ (h [])

/-- Texts that are put together say the same. -/
theorem Text.HasWordsOf.append {u v : Text} (h : HasWordsOf (s ++ u) (t ++ u))
    (hu : u.HasWordsOf v) : HasWordsOf (s ++ u) (t ++ v) := by
  intro p
  rw [h p, ← List.append_assoc, ← List.append_assoc]
  exact hu (p ++ t)

/-! ## Runs of text -/

theorem textRun_nil : textRun .html [] = ([], []) := textRun_of_ne_plain nofun

theorem textRun_cons {c : Char} (hc : c ≠ '<') (s : Text) :
    textRun .html (c :: s) = (c :: (textRun .html s).1, (textRun .html s).2) := by
  by_cases hbrace : c = '\x7b'
  · subst hbrace
    exact textRun_plain (p := ['\x7b']) (by rw [contentHead.eq_def]; rfl)
  have hplain : isPlain c = true := by simp [isPlain, hc, hbrace]
  rw [textRun_plain (contentHead_of_isPlain hplain s)]
  cases s with
  | nil => rfl
  | cons d s =>
    cases hd : isPlain d with
    | true =>
      rw [textRun_plain (contentHead_of_isPlain hd s)]
      simp [hd]
    | false => simp [hd]

theorem textRun_blank_append (hx : IsBlankText x) (s : Text) :
    textRun .html (x ++ s) = (x ++ (textRun .html s).1, (textRun .html s).2) := by
  induction x with
  | nil => rfl
  | cons c x ih =>
    obtain ⟨hc, hx⟩ := isBlankText_cons.1 hx
    have hne : c ≠ '<' := by
      rintro rfl
      exact absurd hc (by decide)
    rw [List.cons_append, textRun_cons hne, ih hx]
    rfl

theorem textRun_angle (h : opensNothing s = true) :
    textRun .html ('<' :: s) = ('<' :: (textRun .html s).1, (textRun .html s).2) := by
  refine textRun_plain (p := ['<']) ?_
  rw [contentHead, angleHead_of_opensNothing h]
  rfl

theorem textRun_stop (h : opensNothing s = false) : textRun .html ('<' :: s) = ([], '<' :: s) :=
  textRun_of_ne_plain (EndsFlow.ne_plain (.inr ⟨s, rfl, h⟩))

/-- The lexeme of a run of text. -/
def textAt (n : Nat) (run : Text) : List Lexeme :=
  if run = [] then [] else [.text run ⟨n, n + width run⟩]

/-- A text is scanned run by run. -/
theorem scan_eq_textAt (n : Nat) (s : Text) :
    (scan .html n s).lexemes = textAt n (textRun .html s).1 ++
        (scan .html (n + width (textRun .html s).1) (textRun .html s).2).lexemes ∧
      (scan .html n s).fault =
        (scan .html (n + width (textRun .html s).1) (textRun .html s).2).fault := by
  by_cases h : ∃ p r, contentHead .html s = .ok (some (.plain p r))
  · obtain ⟨p, r, h⟩ := h
    have hne : p ≠ [] := (eq_of_contentHead h).2
    rw [scan_plain h, textRun_plain h, textAt, if_neg fun h => hne (List.append_eq_nil_iff.1 h).1]
    exact ⟨rfl, rfl⟩
  · rw [textRun_of_ne_plain fun p r h' => h ⟨p, r, h'⟩, textAt, if_pos rfl]
    simp

/-- A run of text ends where it ended. -/
theorem textRun_reflow (ha : IsBlankText a) (hb : IsBlankText b) (h : Text.Reflow a b s t) :
    Text.Reflow a b (textRun .html s).1 (textRun .html t).1 ∧ (textRun .html s).2 = [] ∧
        (textRun .html t).2 = [] ∨
      Text.Reflow [] [] (textRun .html s).1 (textRun .html t).1 ∧
        ∃ u v, (textRun .html s).2 = '<' :: u ∧ (textRun .html t).2 = '<' :: v ∧
          opensNothing u = false ∧ Text.Reflow a b u v := by
  induction h with
  | stop =>
    have hs := textRun_blank_append ha []
    have ht := textRun_blank_append hb []
    simp only [List.append_nil, textRun_nil] at hs ht
    rw [hs, ht]
    exact .inl ⟨.stop, rfl, rfl⟩
  | @char c s t h ih =>
    by_cases hc : c = '<'
    · subst hc
      have hopens := opensNothing_reflow ha hb h
      cases hs : opensNothing s with
      | false =>
        rw [textRun_stop hs, textRun_stop (hopens.trans hs)]
        exact .inr ⟨.stop, s, t, rfl, rfl, hs, h⟩
      | true =>
        rw [textRun_angle hs, textRun_angle (hopens.trans hs)]
        exact ih.imp (.imp_left (.char _)) (.imp_left (.char _))
    · rw [textRun_cons hc, textRun_cons hc]
      exact ih.imp (.imp_left (.char _)) (.imp_left (.char _))
  | blanks hx hy hclose _ ih =>
    rw [textRun_blank_append hx.blank, textRun_blank_append hy.blank]
    exact ih.imp (.imp_left (.blanks hx hy hclose)) (.imp_left (.blanks hx hy hclose))

/-! ## Lexemes -/

/-- A lexeme with other blanks. -/
inductive Lexeme.Reflow : Lexeme → Lexeme → Prop
  | openTag {t t' : OpenTag} (h : t.Reflow t') : Reflow (.openTag t) (.openTag t')
  | closeTag (name : Text) (span span' : Span) : Reflow (.closeTag name span) (.closeTag name span')
  | fragmentOpen (span span' : Span) : Reflow (.fragmentOpen span) (.fragmentOpen span')
  | fragmentClose (span span' : Span) : Reflow (.fragmentClose span) (.fragmentClose span')
  | text {x y : Text} (h : ∀ q, (y ++ q).HasWordsOf (x ++ q)) (span span' : Span) :
    Reflow (.text x span) (.text y span')

/-- The lexemes of a text with other blanks; at its end only words count. -/
inductive LexemesReflow : List Lexeme → List Lexeme → Prop
  | stop {x y : Text} (h : y.HasWordsOf x) (n n' : Nat) : LexemesReflow (textAt n x) (textAt n' y)
  | cons {l l' : Lexeme} {ls ls' : List Lexeme} (hl : l.Reflow l') (h : LexemesReflow ls ls') :
    LexemesReflow (l :: ls) (l' :: ls')

/-- A run of text in front of lexemes. -/
theorem LexemesReflow.textAt_append {ls ls' : List Lexeme} (h : LexemesReflow ls ls')
    (hwords : ∀ q, (y ++ q).HasWordsOf (x ++ q)) (hxy : x = [] ↔ y = []) (n n' : Nat) :
    LexemesReflow (textAt n x ++ ls) (textAt n' y ++ ls') := by
  by_cases hn : x = []
  · rwa [hn, hxy.1 hn]
  · rw [textAt, textAt, if_neg hn, if_neg (mt hxy.2 hn)]
    exact .cons (.text hwords _ _) h

theorem exists_contentHead {n : Nat} (hfault : (scan .html n s).fault = none) :
    ∃ k, contentHead .html s = .ok k := by
  cases hk : contentHead .html s with
  | ok k => exact ⟨k, rfl⟩
  | error e =>
    rw [scan] at hfault
    split at hfault <;> simp_all [Scan.failed]

theorem exists_openTag {n : Nat} {name p r : Text} (hfault : (scan .html n s).fault = none)
    (hk : contentHead .html s = .ok (some (.openTag name p r))) :
    ∃ tag stop rest, openTag .html n name r = .ok (tag, stop, rest) := by
  cases htag : openTag .html n name r with
  | ok t => exact ⟨_, _, _, rfl⟩
  | error e =>
    rw [scan] at hfault
    split at hfault <;> simp_all
    split at hfault <;> simp_all [Scan.failed]

/-- A close tag that can be read has an end. -/
theorem angle_mem_of_startsClose {name : Text} (hname : IsTagName name)
    (h : startsClose name s = true) {n : Nat} (hfault : (scan .html n s).fault = none) :
    '>' ∈ s := by
  obtain ⟨c, u, rfl, hc⟩ := exists_of_startsClose hname h
  obtain ⟨k, hk⟩ := exists_contentHead hfault
  rw [contentHead, angleHead, if_pos hc] at hk
  · simp only [closeHead] at hk
    split at hk
    next r hr =>
      have hmem : '>' ∈ ((c :: u).dropWhile isNameChar).dropWhile isCloseBlank :=
        hr ▸ List.mem_cons_self
      have hmem := (List.dropWhile_suffix isNameChar).subset
        ((List.dropWhile_suffix isCloseBlank).subset hmem)
      exact List.mem_cons_of_mem _ (List.mem_cons_of_mem _ hmem)
    next => cases hk
  · rintro rfl
    exact absurd hc (by decide)

/-- A tag with other blanks, if what stands behind it is read the same. -/
theorem scan_angle_reflow (ha : IsBlankText a) (hb : IsBlankText b) (hopen : opensNothing s = false)
    (h : Text.Reflow a b s t) {n : Nat} (hfault : (scan .html n ('<' :: s)).fault = none) (n' : Nat)
    (ih : ∀ r r', r.length ≤ s.length → Text.Reflow a b r r' → ∀ n n',
      (scan .html n r).fault = none → (scan .html n' r').fault = none ∧
        LexemesReflow (scan .html n r).lexemes (scan .html n' r').lexemes) :
    (scan .html n' ('<' :: t)).fault = none ∧
      LexemesReflow (scan .html n ('<' :: s)).lexemes (scan .html n' ('<' :: t)).lexemes := by
  have hmap {s : Text} {k : ContentHead} (hk : angleHead s = .ok k) :
      contentHead .html ('<' :: s) = .ok (some k) := by
    rw [contentHead, hk]
    rfl
  cases hk : angleHead s with
  | error e =>
    obtain ⟨k, hk'⟩ := exists_contentHead hfault
    rw [contentHead, hk] at hk'
    cases hk'
  | ok k =>
    obtain ⟨k', hk', hreflow⟩ := angleHead_reflow ha hb h hk hopen
    have hlen : k.rest.length ≤ s.length := by
      have := length_of_contentHead (hmap hk)
      exact Nat.le_of_lt_succ this
    cases hreflow with
    | skipped hr =>
      rw [scan_skipped (hmap hk)] at hfault ⊢
      rw [scan_skipped (hmap hk')]
      exact ih _ _ hlen hr _ _ hfault
    | @openTag name p p' r r' hr =>
      have hname := (name_of_contentHead (hmap hk)).2
      obtain ⟨tag, stop, rest, htag⟩ := exists_openTag hfault (hmap hk)
      rw [scan_openTag (hmap hk) htag] at hfault ⊢
      obtain ⟨tag', stop', rest', htag', htags, hrest⟩ := openTag_reflow ha hb hname hr htag
        (fun hclose => angle_mem_of_startsClose hname hclose hfault) n'
      rw [scan_openTag (hmap hk') htag']
      have hshorter : rest.length < r.length := length_of_openTag htag
      obtain ⟨hf, hls⟩ := ih _ _ (Nat.le_trans (Nat.le_of_lt hshorter) hlen) hrest _ stop' hfault
      exact ⟨hf, .cons (.openTag htags) hls⟩
    | closeTag hr =>
      rw [scan_closeTag (hmap hk)] at hfault ⊢
      rw [scan_closeTag (hmap hk')]
      obtain ⟨hf, hls⟩ := ih _ _ hlen hr _ _ hfault
      exact ⟨hf, .cons (.closeTag ..) hls⟩
    | fragmentOpen hr =>
      rw [scan_fragmentOpen (hmap hk)] at hfault ⊢
      rw [scan_fragmentOpen (hmap hk')]
      obtain ⟨hf, hls⟩ := ih _ _ hlen hr _ _ hfault
      exact ⟨hf, .cons (.fragmentOpen ..) hls⟩
    | fragmentClose hr =>
      rw [scan_fragmentClose (hmap hk)] at hfault ⊢
      rw [scan_fragmentClose (hmap hk')]
      obtain ⟨hf, hls⟩ := ih _ _ hlen hr _ _ hfault
      exact ⟨hf, .cons (.fragmentClose ..) hls⟩

/-- **A text with other blanks has the same lexemes.** -/
theorem scan_reflow (ha : IsBlankText a) (hb : IsBlankText b) (hx : IsBlankText x)
    (hy : IsBlankText y) (hxy : x = [] ↔ y = []) (h : Text.Reflow a b s t) (n n' : Nat)
    (hfault : (scan .html n (x ++ s)).fault = none) :
    (scan .html n' (y ++ t)).fault = none ∧
      LexemesReflow (scan .html n (x ++ s)).lexemes (scan .html n' (y ++ t)).lexemes := by
  induction hlen : s.length using Nat.strongRecOn generalizing s t x y n n' with
  | _ len ih =>
    subst hlen
    obtain ⟨hls, hf⟩ := scan_eq_textAt n (x ++ s)
    obtain ⟨hls', hf'⟩ := scan_eq_textAt n' (y ++ t)
    rw [textRun_blank_append hx] at hls hf
    rw [textRun_blank_append hy] at hls' hf'
    rw [hls, hls', hf']
    rw [hf] at hfault
    obtain ⟨hrun, hs, ht⟩ | ⟨hrun, u, v, hs, ht, hopen, huv⟩ := textRun_reflow ha hb h
    · -- only text is left
      simp only [hs, ht, scan_nil, List.append_nil]
      refine ⟨trivial, .stop (.blank_append ?_ hy hx hxy.symm) ..⟩
      exact fun p => hrun.words (Reflow.words_end ha hb) p
    · simp only [hs, ht] at hfault ⊢
      have hlt : u.length < s.length := by
        have hsplit := congrArg List.length (textRun_append .html s)
        rw [List.length_append, hs, List.length_cons] at hsplit
        omega
      have hrest := scan_angle_reflow ha hb hopen huv hfault (n' + width (y ++ (textRun .html t).1))
        fun r r' hr hrr' m m' hf =>
          ih r.length (by omega) isBlankText_nil isBlankText_nil Iff.rfl hrr' m m' hf rfl
      refine ⟨hrest.1, hrest.2.textAt_append (fun q => ?_) ?_ ..⟩
      · rw [List.append_assoc, List.append_assoc]
        refine .blank_append (fun p => ?_) hy hx hxy.symm
        exact (hrun.append (.stop : Text.Reflow q q q q)).words (fun _ => rfl) p
      · rw [List.append_eq_nil_iff, List.append_eq_nil_iff, hxy, hrun.eq_nil_iff]

/-! ## What tags say -/

/-- Two open tags with the same attributes and declarations, and the same text if their content is
kept as it is written. -/
structure OpenTag.SaysSame (t t' : OpenTag) : Prop where
  attributes : (t.content .html).attributes.Same (t'.content .html).attributes
  style : (t.content .html).style.Same (t'.content .html).style
  raw : t.rawChild.map Prod.fst = t'.rawChild.map Prod.fst

theorem OpenTag.saysSame_iff {t t' : OpenTag} :
    t.SaysSame t' ↔ (t.content .html).attributes.Same (t'.content .html).attributes ∧
      (t.content .html).style.Same (t'.content .html).style ∧
      t.rawChild.map Prod.fst = t'.rawChild.map Prod.fst :=
  ⟨fun h => ⟨h.attributes, h.style, h.raw⟩, fun h => ⟨h.1, h.2.1, h.2.2⟩⟩

/-- The open tags among lexemes. -/
def openTags (ls : List Lexeme) : List OpenTag :=
  ls.filterMap fun
    | .openTag t => some t
    | _ => none

/-- Two nodes that are elements or that are texts. -/
def SameKind (m n : Node × Place) : Prop := n.1.isElement = m.1.isElement

/-- Two nodes that are the same, wherever they stand. -/
def SameNode (m n : Node × Place) : Prop := m.1.Same n.1

theorem sameAll_iff_forall₂ {ms ns : List (Node × Place)} :
    Node.SameAll (ms.map Prod.fst) (ns.map Prod.fst) ↔ List.Forall₂ SameNode ms ns := by
  induction ms generalizing ns with
  | nil => cases ns <;> simp [Node.SameAll]
  | cons m ms ih => cases ns <;> simp [Node.SameAll, SameNode, ih]

theorem forall₂_append_iff {α : Type} {R S : α → α → Prop} {as as' bs bs' : List α}
    (h : List.Forall₂ S as as') :
    List.Forall₂ R (as ++ bs) (as' ++ bs') ↔ List.Forall₂ R as as' ∧ List.Forall₂ R bs bs' := by
  induction h with
  | nil => simp
  | cons _ _ ih => simp [ih, and_assoc]

theorem sameNode_element {t t' : OpenTag} (hname : t'.name = t.name) (stop stop' : Nat)
    (inner inner' : Option Span) (cs cs' : List (Node × Place)) :
    SameNode (t.element .html stop inner cs) (t'.element .html stop' inner' cs') ↔
      (t.content .html).attributes.Same (t'.content .html).attributes ∧
        (t.content .html).style.Same (t'.content .html).style ∧ List.Forall₂ SameNode cs cs' := by
  simp only [SameNode, OpenTag.element, Node.Same, hname, true_and, sameAll_iff_forall₂]

/-- Content that is kept is no node or a text. -/
theorem rawChild_cases (t : OpenTag) :
    t.rawChild = [] ∧ (∀ x ∈ t.raw, IsBlankText x.1) ∨
      ∃ content place, t.rawChild = [(.text content, place)] ∧ ∃ x ∈ t.raw, ¬ IsBlankText x.1 := by
  have hnodes := t.nodes_rawChild
  cases hraw : t.raw with
  | none =>
    rw [hraw] at hnodes
    exact .inl ⟨List.map_eq_nil_iff.1 hnodes, nofun⟩
  | some x =>
    rw [hraw, Option.elim_some, rawNodes] at hnodes
    split_ifs at hnodes with htrim
    · exact .inl ⟨List.map_eq_nil_iff.1 hnodes, by simpa using trim_eq_nil_iff.1 htrim⟩
    · obtain ⟨⟨n, place⟩, hchild, rfl⟩ := List.map_eq_singleton_iff.1 hnodes
      exact .inr ⟨_, place, hchild, x, rfl, mt trim_eq_nil_iff.2 htrim⟩

theorem sameNode_rawChild_iff {t t' : OpenTag} :
    List.Forall₂ SameNode t.rawChild t'.rawChild ↔
      t.rawChild.map Prod.fst = t'.rawChild.map Prod.fst := by
  obtain ⟨h, -⟩ | ⟨c, p, h, -⟩ := rawChild_cases t <;>
    obtain ⟨h', -⟩ | ⟨c', p', h', -⟩ := rawChild_cases t' <;>
    simp [h, h', SameNode, Node.Same]

/-- Content that is kept is a text if it was one. -/
theorem sameKind_rawChild {t t' : OpenTag} (h : t.Reflow t') :
    List.Forall₂ SameKind t.rawChild t'.rawChild := by
  have hblank : (∀ x ∈ t'.raw, IsBlankText x.1) ↔ ∀ x ∈ t.raw, IsBlankText x.1 := by
    have hraw := h.raw
    generalize t.raw = raw at hraw
    generalize t'.raw = raw' at hraw
    cases hraw with
    | none => exact Iff.rfl
    | some hx => simpa using hx.isBlankText_iff isBlankText_nil isBlankText_nil
  obtain ⟨h, hb⟩ | ⟨c, p, h, hb⟩ := rawChild_cases t <;>
    obtain ⟨h', hb'⟩ | ⟨c', p', h', hb'⟩ := rawChild_cases t'
  · simp [h, h']
  · obtain ⟨x, hx, hnot⟩ := hb'
    exact absurd (hblank.2 hb x hx) hnot
  · obtain ⟨x, hx, hnot⟩ := hb
    exact absurd (hblank.1 hb' x hx) hnot
  · simp [h, h', SameKind, Node.isElement]

/-- A tag without content has no raw content. -/
theorem OpenTag.Reflow.rawChild_leaf {t t' : OpenTag} (h : t.Reflow t')
    (hleaf : (t.selfClosing || isVoid t.name) = true) :
    t.rawChild.map Prod.fst = t'.rawChild.map Prod.fst := by
  have hnone : t.raw = none := by
    cases hraw : t.raw with
    | none => rfl
    | some raw =>
      obtain ⟨hself, hname⟩ := h.isRaw (by rw [hraw]; rfl)
      rw [hself, Bool.false_or] at hleaf
      rw [isRaw_of_isVoid hleaf] at hname
      cases hname
  have hraw := h.raw
  rw [hnone] at hraw
  have hnone' : t'.raw = none := by
    generalize t'.raw = raw' at hraw
    cases hraw
    rfl
  simp [OpenTag.rawChild, hnone, hnone']

/-! ## Readers -/

/-- Open tags with other blanks, and open fragments. -/
inductive Opened.Reflow : Opened → Opened → Prop
  | element {t t' : OpenTag} (h : t.Reflow t') : Reflow (.element t) (.element t')
  | fragment (span span' : Span) : Reflow (.fragment span) (.fragment span')

/-- What is open says the same. -/
def Opened.SaysSame : Opened → Opened → Prop
  | .element t, .element t' =>
    (t.content .html).attributes.Same (t'.content .html).attributes ∧
      (t.content .html).style.Same (t'.content .html).style
  | _, _ => True

namespace Reader

/-- Readers of a text and of the text with other blanks. -/
structure Reflow (r r' : Reader) : Prop where
  nodes : List.Forall₂ SameKind r.nodes r'.nodes
  run : ∀ q, HasWordsOf (r'.heard ++ q) (r.heard ++ q)
  stack : List.Forall₂ (fun o o' => o.1.Reflow o'.1 ∧ List.Forall₂ SameKind o.2 o'.2)
    r.stack r'.stack

/-- Readers that have read the same. -/
structure Same (r r' : Reader) : Prop where
  nodes : List.Forall₂ SameNode r.nodes r'.nodes
  stack : List.Forall₂ (fun o o' => o.1.SaysSame o'.1 ∧ List.Forall₂ SameNode o.2 o'.2)
    r.stack r'.stack

variable {r r' r₁ : Reader} {l l' : Lexeme}

theorem same_iff : r.Same r' ↔ List.Forall₂ SameNode r.nodes r'.nodes ∧
    List.Forall₂ (fun o o' => o.1.SaysSame o'.1 ∧ List.Forall₂ SameNode o.2 o'.2)
      r.stack r'.stack :=
  ⟨fun h => ⟨h.nodes, h.stack⟩, fun h => ⟨h.1, h.2⟩⟩

theorem reflow_start : start.Reflow start := ⟨.nil, fun _ _ => rfl, .nil⟩

theorem same_start : start.Same start := ⟨.nil, .nil⟩

theorem flush_html (r : Reader) :
    r.flush .html = ⟨(runNode? .html r.run).toList ++ r.nodes, [], r.stack⟩ := by
  rw [flush]
  split_ifs with hrun
  · rw [hrun]
    exact congrArg (Reader.mk r.nodes · r.stack) hrun
  · cases runNode? .html r.run <;> rfl

/-- Runs with the same words are the same node. -/
theorem runNode?_congr (h : r'.heard.HasWordsOf r.heard) :
    List.Forall₂ (fun m n => n.1 = m.1) (runNode? .html r.run).toList
      (runNode? .html r'.run).toList := by
  have hflow : flowText? .html r'.heard = flowText? .html r.heard := collapsed?_congr (h [])
  simp only [heard] at hflow
  rw [runNode?, runNode?, hflow]
  cases flowText? .html (r.run.flatMap Prod.fst) with
  | none => exact .nil
  | some content => exact .cons rfl .nil

/-- The nodes behind runs with the same words that have ended. -/
theorem flush_congr (hnodes : List.Forall₂ SameKind r.nodes r'.nodes)
    (h : r'.heard.HasWordsOf r.heard) :
    List.Forall₂ SameKind (r.flush .html).nodes (r'.flush .html).nodes ∧
      (List.Forall₂ SameNode (r.flush .html).nodes (r'.flush .html).nodes ↔
        List.Forall₂ SameNode r.nodes r'.nodes) := by
  have hrun := runNode?_congr h
  have hkind : List.Forall₂ SameKind _ _ := hrun.imp fun _ _ h => congrArg Node.isElement h
  have hsame : List.Forall₂ SameNode _ _ := hrun.imp fun m n h => by
    rw [SameNode, h]
    exact .refl m.1
  rw [flush_html, flush_html]
  refine ⟨List.rel_append hkind hnodes, ?_⟩
  rw [forall₂_append_iff hkind]
  exact and_iff_right hsame

/-- The ends of runs. -/
theorem Reflow.flush (h : r.Reflow r') : (r.flush .html).Reflow (r'.flush .html) ∧
    ((r.flush .html).Same (r'.flush .html) ↔ r.Same r') := by
  obtain ⟨hkind, hsame⟩ := flush_congr h.nodes (by simpa using h.run [])
  have hstack : (r.flush .html).stack = r.stack := stack_flush r
  have hstack' : (r'.flush .html).stack = r'.stack := stack_flush r'
  refine ⟨⟨hkind, ?_, by rw [hstack, hstack']; exact h.stack⟩, ?_⟩
  · rw [heard, heard, run_flush, run_flush]
    exact fun _ _ => rfl
  · rw [same_iff, same_iff, hsame, hstack, hstack']

/-- What a lexeme does behind runs that have ended. -/
theorem Reflow.stepTag (hr : r.Reflow r') (hl : l.Reflow l') (h : r.stepTag .html l = .ok r₁) :
    ∃ r₁', r'.stepTag .html l' = .ok r₁' ∧ r₁.Reflow r₁' ∧
      (r₁.Same r₁' ↔ r.Same r' ∧ List.Forall₂ OpenTag.SaysSame (openTags [l]) (openTags [l'])) := by
  obtain ⟨nodes, run, stack⟩ := r
  obtain ⟨nodes', run', stack'⟩ := r'
  obtain ⟨hnodes, hrun, hstack⟩ := hr
  cases hl with
  | @openTag t t' ht =>
    simp only [Reader.stepTag, ht.name, ht.selfClosing] at h ⊢
    split_ifs at h ⊢ with hleaf
    · cases h
      refine ⟨_, rfl, ⟨.cons rfl hnodes, hrun, hstack⟩, ?_⟩
      have hraw := ht.rawChild_leaf hleaf
      simp only [Reader.push, same_iff, openTags, List.filterMap_cons, List.filterMap_nil,
        List.forall₂_cons, sameNode_element ht.name, List.forall₂_nil_left_iff,
        OpenTag.saysSame_iff, hraw]
      tauto
    · cases h
      refine ⟨_, rfl, ⟨sameKind_rawChild ht, hrun, .cons ⟨.element ht, hnodes⟩ hstack⟩, ?_⟩
      simp only [same_iff, openTags, List.filterMap_cons, List.filterMap_nil, List.forall₂_cons,
        sameNode_rawChild_iff, Opened.SaysSame, OpenTag.saysSame_iff, List.forall₂_nil_left_iff]
      tauto
  | closeTag name span span' =>
    cases hstack with
    | nil => cases h
    | @cons o o' stack stack' ho hstack =>
      obtain ⟨opened, before⟩ := o
      obtain ⟨opened', before'⟩ := o'
      obtain ⟨hopened, hbefore⟩ := ho
      cases hopened with
      | fragment => cases h
      | @element t t' ht =>
        simp only [Reader.stepTag, ht.name] at h ⊢
        split_ifs at h ⊢
        cases h
        refine ⟨_, rfl, ⟨.cons rfl hbefore, hrun, hstack⟩, ?_⟩
        simp only [same_iff, openTags, List.filterMap_cons, List.filterMap_nil, List.forall₂_cons,
          sameNode_element ht.name, List.forall₂_reverse_iff, Opened.SaysSame, List.Forall₂.nil]
        tauto
  | fragmentOpen span span' =>
    cases h
    refine ⟨_, rfl, ⟨.nil, hrun, .cons ⟨.fragment .., hnodes⟩ hstack⟩, ?_⟩
    simp [same_iff, openTags, Opened.SaysSame]
  | fragmentClose span span' =>
    cases hstack with
    | nil => cases h
    | @cons o o' stack stack' ho hstack =>
      obtain ⟨opened, before⟩ := o
      obtain ⟨opened', before'⟩ := o'
      obtain ⟨hopened, hbefore⟩ := ho
      cases hopened with
      | element => cases h
      | fragment =>
        cases h
        refine ⟨_, rfl, ⟨List.rel_append hnodes hbefore, hrun, hstack⟩, ?_⟩
        simp [same_iff, openTags, Opened.SaysSame, forall₂_append_iff hnodes, and_assoc]
  | @text x y hwords span span' =>
    cases h
    refine ⟨_, rfl, ⟨hnodes, fun q => ?_, hstack⟩, ?_⟩
    · simpa [heard] using (hrun (y ++ q)).append (hwords q)
    · simp [same_iff, openTags]

/-- **What a lexeme does.** -/
theorem Reflow.step (hr : r.Reflow r') (hl : l.Reflow l') (h : r.step .html l = .ok r₁) :
    ∃ r₁', r'.step .html l' = .ok r₁' ∧ r₁.Reflow r₁' ∧
      (r₁.Same r₁' ↔ r.Same r' ∧ List.Forall₂ OpenTag.SaysSame (openTags [l]) (openTags [l'])) := by
  obtain ⟨hflush, hsame⟩ := hr.flush
  rw [← hsame]
  cases hl with
  | text hwords span span' =>
    rw [hsame]
    exact hr.stepTag (.text hwords span span') h
  | openTag ht => exact hflush.stepTag (.openTag ht) h
  | closeTag name span span' => exact hflush.stepTag (.closeTag name span span') h
  | fragmentOpen span span' => exact hflush.stepTag (.fragmentOpen span span') h
  | fragmentClose span span' => exact hflush.stepTag (.fragmentClose span span') h

theorem steps_textAt (r : Reader) (n : Nat) (x : Text) :
    ∃ r₁, r.steps .html (textAt n x) = .ok r₁ ∧ r₁.nodes = r.nodes ∧ r₁.heard = r.heard ++ x ∧
      r₁.stack = r.stack := by
  rw [textAt]
  split_ifs with hx
  · exact ⟨r, rfl, rfl, by rw [hx, List.append_nil], rfl⟩
  · exact ⟨_, rfl, rfl, by simp [heard], rfl⟩

end Reader

theorem openTags_cons (l : Lexeme) (ls : List Lexeme) :
    openTags (l :: ls) = openTags [l] ++ openTags ls :=
  List.filterMap_append (l := [l])

theorem openTags_textAt (n : Nat) (x : Text) : openTags (textAt n x) = [] := by
  rw [textAt]
  split_ifs <;> rfl

theorem Lexeme.Reflow.openTags {l l' : Lexeme} (h : l.Reflow l') :
    List.Forall₂ OpenTag.Reflow (openTags [l]) (MarkupSync.openTags [l']) := by
  cases h with
  | openTag h => exact .cons h .nil
  | closeTag | fragmentOpen | fragmentClose | text => exact .nil

/-- **What all lexemes do.** -/
theorem LexemesReflow.reads {ls ls' : List Lexeme} (h : LexemesReflow ls ls') {r r' : Reader}
    (hr : r.Reflow r') {nodes : List (Node × Place)}
    (hnodes : r.reads ⟨ls, none⟩ = .ok nodes) :
    ∃ nodes', r'.reads ⟨ls', none⟩ = .ok nodes' ∧ List.Forall₂ SameKind nodes nodes' ∧
      (List.Forall₂ SameNode nodes nodes' ↔
        r.Same r' ∧ List.Forall₂ OpenTag.SaysSame (openTags ls) (openTags ls')) := by
  induction h generalizing r r' with
  | @stop x y hwords n n' =>
    obtain ⟨r₁, hsteps, hn, hheard, hstack⟩ := r.steps_textAt n x
    obtain ⟨r₁', hsteps', hn', hheard', hstack'⟩ := r'.steps_textAt n' y
    simp only [Reader.reads, hsteps, hsteps', Reader.finish, hstack, hstack'] at hnodes ⊢
    split at hnodes
    · cases hnodes
    next hempty =>
      cases hnodes
      have hopen := hr.stack
      rw [hempty] at hopen
      have hempty' := List.forall₂_nil_left_iff.1 hopen
      have hends : r₁'.heard.HasWordsOf r₁.heard := by
        rw [hheard, hheard']
        exact (hr.run y).append hwords
      obtain ⟨hkind, hsame⟩ := Reader.flush_congr (by rw [hn, hn']; exact hr.nodes) hends
      rw [hempty']
      refine ⟨_, rfl, List.forall₂_reverse_iff.2 hkind, ?_⟩
      rw [List.forall₂_reverse_iff, hsame, Reader.same_iff, hempty, hempty', hn, hn',
        openTags_textAt, openTags_textAt]
      simp
  | @cons l l' ls ls' hl h ih =>
    have hread := r.reads_cons l ⟨ls, none⟩
    have hread' := r'.reads_cons l' ⟨ls', none⟩
    simp only [Scan.cons] at hread hread'
    rw [hread] at hnodes
    split at hnodes
    · cases hnodes
    next r₁ hstep =>
      obtain ⟨r₁', hstep', hr₁, hsame⟩ := hr.step hl hstep
      obtain ⟨nodes', hnodes', hkind, hiff⟩ := ih hr₁ hnodes
      rw [hread', hstep']
      refine ⟨nodes', hnodes', hkind, ?_⟩
      rw [hiff, hsame, openTags_cons l ls, openTags_cons l' ls', forall₂_append_iff hl.openTags,
        and_assoc]

/-! ## Documents -/

theorem same_ofTopLevel_iff {ms ns : List (Node × Place)} (h : List.Forall₂ SameKind ms ns) :
    (Node.ofTopLevel (ms.map Prod.fst)).Same (Node.ofTopLevel (ns.map Prod.fst)) ↔
      List.Forall₂ SameNode ms ns := by
  refine ⟨fun hsame => ?_, fun hall => (sameAll_iff_forall₂.2 hall).ofTopLevel⟩
  cases h with
  | nil => exact .nil
  | @cons m n ms ns hmn h =>
    obtain ⟨m, place⟩ := m
    obtain ⟨n, place'⟩ := n
    cases h with
    | nil =>
      cases m <;> cases n
      case text.text => exact sameAll_iff_forall₂.1 hsame.2.2.2
      case element.element => exact .cons hsame .nil
      all_goals cases hmn
    | cons => cases m <;> cases n <;> exact sameAll_iff_forall₂.1 hsame.2.2.2

theorem fault_of_nodes {scan : Scan} {nodes : List (Node × Place)}
    (h : scan.nodes .html = .ok nodes) : scan.fault = none := by
  rw [Scan.nodes] at h
  split at h
  · cases h
  · cases hf : scan.fault with
    | none => rfl
    | some e =>
      rw [hf] at h
      cases h

/-- **The document of a text with other blanks.** -/
theorem Document.exists_read_reflow (ha : IsBlankText a) (hb : IsBlankText b) (hx : IsBlankText x)
    (hy : IsBlankText y) (hxy : x = [] ↔ y = []) (h : Text.Reflow a b s t) {d : Document}
    (hd : Document.read .html (x ++ s) = .ok d) :
    ∃ d', Document.read .html (y ++ t) = .ok d' ∧
      LexemesReflow (scanAll .html (x ++ s)).lexemes (scanAll .html (y ++ t)).lexemes ∧
      (d.root.Same d'.root ↔ List.Forall₂ OpenTag.SaysSame
        (openTags (scanAll .html (x ++ s)).lexemes)
        (openTags (scanAll .html (y ++ t)).lexemes)) := by
  obtain ⟨nodes, hnodes, rfl⟩ := exists_of_map_eq_ok hd
  have hfault := fault_of_nodes hnodes
  obtain ⟨hfault', hlexemes⟩ := scan_reflow ha hb hx hy hxy h 0 0 hfault
  have hscan {scan : Scan} (h : scan.fault = none) : scan = ⟨scan.lexemes, none⟩ := by
    rw [← h]
  rw [hscan hfault, Scan.nodes_eq_reads] at hnodes
  obtain ⟨nodes', hnodes', hkind, hsame⟩ := hlexemes.reads Reader.reflow_start hnodes
  rw [← hscan hfault', ← Scan.nodes_eq_reads] at hnodes'
  refine ⟨_, by rw [Document.read, Document.readAt, hnodes']; rfl, hlexemes, ?_⟩
  rw [Document.root_ofTopLevel, Document.root_ofTopLevel, same_ofTopLevel_iff hkind, hsame]
  exact and_iff_right Reader.same_start

/-! ## Tags on one line -/

/-- The values and the raw content of a tag have no line breaks. -/
def OpenTag.IsOneLine (t : OpenTag) : Prop :=
  (∀ a ∈ t.attributes, a.IsOneLine) ∧ ∀ x ∈ t.raw, '\n' ∉ x.1

instance : DecidablePred OpenTag.IsOneLine := fun _ =>
  inferInstanceAs (Decidable ((∀ a ∈ _, RawAttribute.IsOneLine a) ∧ ∀ x ∈ _, _))

theorem RawAttribute.Reflow.written {x x' : RawAttribute} (h : x.Reflow x') (hx : x.IsOneLine) :
    x.written = x'.written := by
  obtain ⟨name, nameSpan, value⟩ := x
  obtain ⟨name', nameSpan', value'⟩ := x'
  obtain ⟨rfl, hvalue⟩ := h
  cases hvalue with
  | none => rfl
  | some hv =>
    simp only [RawAttribute.written, Option.map_some, hv.quoting,
      hv.text.eq_of_not_mem (hx.2 _ rfl)]

theorem OpenTag.Reflow.saysSame {t t' : OpenTag} (h : t.Reflow t') (ht : t.IsOneLine) :
    t.SaysSame t' := by
  have hwritten :
      t.attributes.map RawAttribute.written = t'.attributes.map RawAttribute.written := by
    have hattrs := h.attributes
    have hone := ht.1
    generalize t.attributes = as at hattrs hone
    generalize t'.attributes = bs at hattrs
    induction hattrs with
    | nil => rfl
    | cons hab _ ih =>
      obtain ⟨ha, hone⟩ := List.forall_mem_cons.1 hone
      rw [List.map_cons, List.map_cons, hab.written ha, ih hone]
  obtain ⟨hattrs, hstyle⟩ : (t.content .html).attributes = (t'.content .html).attributes ∧
      (t.content .html).style = (t'.content .html).style := foldl_add_congr hwritten rfl rfl
  have hraw : t'.raw.map Prod.fst = t.raw.map Prod.fst := by
    have hreflow := h.raw
    have hone := ht.2
    generalize t.raw = raw at hreflow hone
    generalize t'.raw = raw' at hreflow
    cases hreflow with
    | none => rfl
    | some hx => rw [Option.map_some, Option.map_some, hx.eq_of_not_mem (hone _ rfl)]
  have helim (raw : Option (Text × Span)) :
      (raw.elim [] fun r => rawNodes r.1) = (raw.map Prod.fst).elim [] rawNodes := by
    cases raw <;> rfl
  refine ⟨by rw [hattrs], by rw [hstyle], ?_⟩
  rw [t.nodes_rawChild, t'.nodes_rawChild, helim, helim, hraw]

/-- **The tags of a text on one line say the same in the text with other blanks.** -/
theorem LexemesReflow.saysSame {ls ls' : List Lexeme} (h : LexemesReflow ls ls')
    (hls : ∀ t ∈ openTags ls, t.IsOneLine) :
    List.Forall₂ OpenTag.SaysSame (openTags ls) (openTags ls') := by
  induction h with
  | stop =>
    rw [openTags_textAt, openTags_textAt]
    exact .nil
  | @cons l l' ls ls' hl h ih =>
    rw [openTags_cons l ls, openTags_cons l' ls']
    rw [openTags_cons, List.forall_mem_append] at hls
    refine List.rel_append ?_ (ih hls.2)
    cases hl with
    | openTag h => exact .cons (h.saysSame (hls.1 _ List.mem_cons_self)) .nil
    | closeTag | fragmentOpen | fragmentClose | text => exact .nil

end MarkupSync
