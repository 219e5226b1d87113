import MarkupSync.Proofs.Document.Aside
import MarkupSync.Proofs.Document.Regular
import MarkupSync.Proofs.Document.Unmarked

/-!
# Texts that hide no marks

* `HidesNoMark`: texts that have no marks of templates in their comments, declarations and processing
  instructions, and none in a `style` attribute but in its declarations;
* `IsClear`: what is left of such a text, one lemma for each kind of piece;
* **`Content.hidesNoMark_of_source`**: valid content hides no marks if its text hides none.
-/

namespace MarkupSync

open Text Section

/-- An attribute that declares a style has no marks but in its declarations. -/
def RawAttribute.HidesNoMark (a : RawAttribute) : Prop :=
  ∀ st, AttrMeaning.of a.name a.value = .declarations st → st.IsUnmarked →
    ∀ v ∈ a.value, hasMark v.text = false

/-- The attributes of an open tag hide no marks. -/
def Lexeme.HidesNoMark : Lexeme → Prop
  | .openTag t => ∀ a ∈ t.attributes, a.HidesNoMark
  | .closeTag .. | .fragmentOpen _ | .fragmentClose _ | .text .. | .expression .. => True

/-- What is left of a text behind `front` hides no marks. -/
structure IsClear (front s : Text) : Prop where
  asides : ∀ q ∈ asides .html (width front) s, hasMark ((front ++ s).at q) = false
  lexemes : ∀ l ∈ (scan .html (width front) s).lexemes, l.HidesNoMark

/-- **A text hides no marks**: there are none in its comments, declarations and processing
instructions, and none in a `style` attribute but in its declarations. -/
def HidesNoMark (s : Text) : Prop := IsClear [] s

/-! ## Pieces of a text -/

section Pieces

variable {n stop : Nat} {front s p r rest name u : Text} {tag : OpenTag}

theorem asides_skipped {flavor : Flavor} (h : contentHead flavor s = .ok (some (.skipped p r))) :
    asides flavor n s = ⟨n, n + width p⟩ :: asides flavor (n + width p) r := by
  rw [asides]
  split <;> simp_all

theorem asides_openTag {flavor : Flavor} (h : contentHead flavor s = .ok (some (.openTag name p r)))
    (ht : openTag flavor n name r = .ok (tag, stop, rest)) :
    asides flavor n s = asides flavor stop rest := by
  rw [asides]
  split <;> simp_all
  split <;> simp_all

theorem asides_closeTag {flavor : Flavor}
    (h : contentHead flavor s = .ok (some (.closeTag name p r))) :
    asides flavor n s = asides flavor (n + width p) r := by
  rw [asides]
  split <;> simp_all

theorem asides_plain {flavor : Flavor} (h : contentHead flavor s = .ok (some (.plain p r))) :
    asides flavor n s =
      asides flavor (n + width (p ++ (textRun flavor r).1)) (textRun flavor r).2 := by
  rw [asides]
  split <;> simp_all

namespace IsClear

/-- A comment has no marks. -/
theorem skipped (h : IsClear front (p ++ r))
    (hc : contentHead .html (p ++ r) = .ok (some (.skipped p r))) :
    hasMark p = false ∧ IsClear (front ++ p) r := by
  obtain ⟨hasides, hlexemes⟩ := h
  rw [asides_skipped hc] at hasides
  obtain ⟨hp, hr⟩ := List.forall_mem_cons.1 hasides
  rw [← List.append_assoc, Text.at, slice_append] at hp
  refine ⟨hp, ⟨?_, ?_⟩⟩
  · rwa [width_append, List.append_assoc]
  · rw [width_append, ← scan_skipped hc]
    exact hlexemes

theorem closeTag (h : IsClear front (p ++ r))
    (hc : contentHead .html (p ++ r) = .ok (some (.closeTag name p r))) : IsClear (front ++ p) r := by
  obtain ⟨hasides, hlexemes⟩ := h
  rw [asides_closeTag hc] at hasides
  rw [scan_closeTag hc] at hlexemes
  refine ⟨?_, ?_⟩
  · rwa [width_append, List.append_assoc]
  · rw [width_append]
    exact (List.forall_mem_cons.1 hlexemes).2

/-- The attributes of an open tag hide no marks. -/
theorem openTag (h : IsClear front (p ++ r)) {q u : Text}
    (hc : contentHead .html (p ++ r) = .ok (some (.openTag name q u)))
    (ht : openTag .html (width front) name u = .ok (tag, stop, r))
    (hstop : stop = width front + width p) :
    (Lexeme.openTag tag).HidesNoMark ∧ IsClear (front ++ p) r := by
  subst hstop
  obtain ⟨hasides, hlexemes⟩ := h
  rw [asides_openTag hc ht] at hasides
  rw [scan_openTag hc ht] at hlexemes
  obtain ⟨htag, hr⟩ := List.forall_mem_cons.1 hlexemes
  refine ⟨htag, ⟨?_, ?_⟩⟩
  · rwa [width_append, List.append_assoc]
  · rwa [width_append]

/-- A piece of plain text goes on with the rest of its run. -/
theorem plain (h : IsClear front (p ++ r))
    (hc : contentHead .html (p ++ r) = .ok (some (.plain p r))) : IsClear (front ++ p) r := by
  obtain ⟨hasides, hlexemes⟩ := h
  rw [asides_plain hc] at hasides
  rw [scan_plain hc] at hlexemes
  obtain ⟨-, hlexemes⟩ := List.forall_mem_cons.1 hlexemes
  by_cases hplain : ∃ q t, contentHead .html r = .ok (some (.plain q t))
  · obtain ⟨q, t, hr⟩ := hplain
    rw [textRun_plain hr, width_append, ← Nat.add_assoc] at hasides hlexemes
    refine ⟨?_, ?_⟩
    · rwa [width_append, List.append_assoc, asides_plain hr]
    · rw [width_append, scan_plain hr]
      exact List.forall_mem_cons.2 ⟨trivial, hlexemes⟩
  · have hrun := textRun_of_ne_plain fun q t hr => hplain ⟨q, t, hr⟩
    rw [hrun, List.append_nil] at hasides hlexemes
    refine ⟨?_, ?_⟩
    · rwa [width_append, List.append_assoc]
    · rwa [width_append]

/-- A run has no marks. -/
theorem flow {x : Text} (hs : stripped? s = some x) (hu : EndsFlow u) (h : IsClear front (s ++ u)) :
    hasMark s = false ∧ IsClear (front ++ s) u := by
  induction hn : s.length using Nat.strongRecOn generalizing front s x with
  | _ n ih =>
    subst hn
    by_cases hnil : s = []
    · subst hnil
      exact ⟨rfl, by simpa using h⟩
    obtain ⟨q, r, rfl, hr, hq⟩ | ⟨p, r, y, rfl, hp, hr, rfl, hplain, hhead⟩ :=
      contentHead_of_stripped? hs hnil
    · rw [List.append_assoc] at h
      obtain ⟨hmark, hrest⟩ := h.skipped (contentHead_skipped (hq _))
      have hlt : r.length < ('<' :: q ++ r).length := by
        simp only [List.length_append, List.length_cons]
        omega
      obtain ⟨hmark', hrest⟩ := ih r.length hlt hr hrest rfl
      have hlast : ('<' :: q).getLast? = some '>' := getLast?_of_skipped (hq [])
      rw [hasMark_append_of_getLast? hlast, hmark, hmark', ← List.append_assoc]
      exact ⟨rfl, hrest⟩
    · have hlt : r.length < (p ++ r).length := by
        have := List.length_pos_iff.2 hp
        simp only [List.length_append]
        omega
      have hhead := hhead u hu
      rw [List.append_assoc] at h hhead
      obtain ⟨hmark, hrest⟩ := ih r.length hlt hr (h.plain hhead) rfl
      rw [hasMark_of_allPlain hplain, ← List.append_assoc]
      exact ⟨hmark, hrest⟩

end IsClear

end Pieces

/-! ## Markup -/

theorem AttrSource.exists_raw_mem {a : AttrSource} {as : List AttrSource} (ha : a ∈ as) (n : Nat) :
    ∃ m, a.raw m ∈ raws n as := by
  induction as generalizing n with
  | nil => cases ha
  | cons b as ih =>
    obtain rfl | ha := List.mem_cons.1 ha
    · exact ⟨n, List.mem_cons_self⟩
    · obtain ⟨m, hm⟩ := ih ha (n + width b.source)
      exact ⟨m, List.mem_cons_of_mem _ hm⟩

/-- A tag hides no marks if the tag that is read hides none. -/
theorem TagSource.hidesNoMark_of_openTag {g : TagSource} {n : Nat} {raw : Option (Text × Span)}
    (h : (Lexeme.openTag (g.openTag n raw)).HidesNoMark) : g.HidesNoMark := by
  intro a ha st hst hunmarked v hv
  obtain ⟨m, hm⟩ := AttrSource.exists_raw_mem ha (n + 1 + width g.name)
  refine h _ hm st ((a.meaning_eq m).trans hst) hunmarked
    ⟨v.text, ⟨_, _⟩, v.quoting⟩ (Option.mem_map_of_mem _ hv)

mutual

/-- **An element hides no marks** if its text hides none. -/
theorem Written.hidesNoMark_of_isClear {w : Written} (hw : w.IsValid) {front rest : Text}
    (h : IsClear front (w.source ++ rest)) :
    w.HidesNoMark ∧ IsClear (front ++ w.source) rest := by
  cases w with
  | leaf tag =>
    obtain ⟨hg, hleaf⟩ := hw
    obtain ⟨htag, hrest⟩ := h.openTag (contentHead_openTag hg rest)
      (openTag_source hg (hleaf.imp_right isRaw_of_isVoid) _ rest) rfl
    exact ⟨TagSource.hidesNoMark_of_openTag htag, hrest⟩
  | raw tag content close =>
    obtain ⟨hg, hself, -, hraw, hc, hk⟩ := hw
    have hcontent : rawContent? tag.name (content ++ (close.source ++ rest)) =
        some (content, close.source ++ rest) :=
      rawContent?_append hg.name hc (startsClose_closeSource hk rest)
    have hopen := openTag_rawSource hg hself hraw (width front) hcontent
    have hhead := contentHead_openTag hg (content ++ (close.source ++ rest))
    have hsource : (Written.raw tag content close).source ++ rest =
        tag.source ++ content ++ (close.source ++ rest) := by simp [Written.source]
    rw [← List.append_assoc] at hhead
    rw [hsource] at h
    obtain ⟨htag, hrest⟩ := h.openTag hhead hopen (by simp [Nat.add_assoc])
    refine ⟨TagSource.hidesNoMark_of_openTag htag, ?_⟩
    have := hrest.closeTag (contentHead_closeSource hk rest)
    simpa [Written.source] using this
  | full tag content close =>
    obtain ⟨hg, hself, -, hraw, hc, hk⟩ := hw
    have hsource : (Written.full tag content close).source ++ rest =
        tag.source ++ (content.source ++ (close.source ++ rest)) := by simp [Written.source]
    rw [hsource] at h
    obtain ⟨htag, hrest⟩ :=
      h.openTag (contentHead_openTag hg _) (openTag_source hg (.inr hraw) _ _) rfl
    obtain ⟨hcontent, hrest⟩ :=
      Content.hidesNoMark_of_isClear hc (endsFlow_closeSource hk rest) hrest
    refine ⟨⟨TagSource.hidesNoMark_of_openTag htag, hcontent⟩, ?_⟩
    have := hrest.closeTag (contentHead_closeSource hk rest)
    simpa [Written.source] using this

/-- **Content hides no marks** if its text hides none. -/
theorem Content.hidesNoMark_of_isClear {c : Content} (hc : c.IsValid) {front rest : Text}
    (hrest : EndsFlow rest) (h : IsClear front (c.source ++ rest)) :
    c.HidesNoMark ∧ IsClear (front ++ c.source) rest := by
  cases c with
  | flow s =>
    obtain ⟨x, hx⟩ := Option.isSome_iff_exists.1 hc
    exact h.flow hx hrest
  | cons s w c =>
    obtain ⟨hs, hw, hc⟩ := hc
    obtain ⟨x, hx⟩ := Option.isSome_iff_exists.1 hs
    rw [Content.source, List.append_assoc, List.append_assoc] at h
    obtain ⟨hmark, h⟩ := h.flow hx (w.endsFlow hw _)
    obtain ⟨hwritten, h⟩ := Written.hidesNoMark_of_isClear hw h
    obtain ⟨hcontent, h⟩ := Content.hidesNoMark_of_isClear hc hrest h
    refine ⟨⟨hmark, hwritten, hcontent⟩, ?_⟩
    simpa [Content.source] using h

end

/-- Valid content hides no marks if its text hides none. -/
theorem Content.hidesNoMark_of_source {c : Content} (hc : c.IsValid)
    (h : MarkupSync.HidesNoMark c.source) : c.HidesNoMark := by
  have hclear : IsClear [] (c.source ++ []) := by rwa [List.append_nil]
  exact (hidesNoMark_of_isClear hc (.inl rfl) hclear).1

end MarkupSync
