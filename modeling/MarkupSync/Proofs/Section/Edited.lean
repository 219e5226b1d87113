import MarkupSync.Proofs.Section
import MarkupSync.Proofs.Section.Mark

/-!
# Components with another template

* `Section.IsClosed`: blocks that have a close tag;
* `exists_readAt_template`: the content of a template has other content in its place, if that has no
  marks;
* `readAt_block`, `readAt_new`: blocks without attributes, and new templates among them;
* `Sections.exists_splitAt`: blocks are found wherever their text starts;
* **`Sections.exists_edited`**: a template with a close tag is found again with other content;
* **`Sections.exists_added`**: so is a new one in front of a component.
-/

namespace MarkupSync

open Text

/-- The open tag of a block without attributes. -/
def SectionKind.opening (kind : SectionKind) : Text := '<' :: (kind.tag ++ ['>'])

/-- The close tag of a block. -/
def SectionKind.ending (kind : SectionKind) : Text := '<' :: '/' :: (kind.tag ++ ['>'])

namespace Section

variable {kind : SectionKind} {s r : Text}

/-- A block is read wherever it starts. -/
theorem exists_readAt {start : Nat} {block : Section} (h : readAt kind start s = .ok (block, r))
    (m : Nat) : ∃ b, readAt kind m s = .ok (b, r) := by
  simp only [readAt] at h ⊢
  split at h
  · cases h
  · split at h
    next hself =>
      cases h
      exact ⟨_, if_pos hself⟩
    next hself =>
      split at h
      · cases h
      · cases h
        exact ⟨_, if_neg hself⟩

/-- A block that has a close tag. -/
def IsClosed (b : Section) : Prop := b.outer ≠ b.openTag

instance (b : Section) : Decidable b.IsClosed := inferInstanceAs (Decidable (_ ≠ _))

/-- **A template with a close tag has other content in its place**, if that has no marks. -/
theorem exists_readAt_template {start : Nat} {block : Section}
    (h : readAt .template start s = .ok (block, r)) (hclosed : block.IsClosed) :
    ∃ tag content back, s = tag ++ (content ++ back) ∧
      block.content = ⟨start + width tag, start + width tag + width content⟩ ∧
      ∀ c, hasMark c = false → (opens .template s = true →
        opens .template (tag ++ (c ++ back)) = true) ∧
        ∃ b, readAt .template start (tag ++ (c ++ back)) = .ok (b, r) ∧
          b.content = ⟨start + width tag, start + width tag + width c⟩ := by
  simp only [readAt] at h
  split at h
  · cases h
  next tag u htag =>
    obtain ⟨rfl, -⟩ := eq_of_tagEnd? htag
    split at h
    · cases h
      exact absurd rfl hclosed
    next hself =>
      split at h
      · cases h
      next content v hc =>
        cases h
        obtain rfl : u = content ++ v := eq_of_content? hc
        have hback := closes_of_templateContent? hc
        refine ⟨tag, content, v, rfl, rfl, fun c hmark =>
          ⟨fun ho => opens_of_tagEnd? ho htag _, ⟨⟨start, start + width tag⟩,
            ⟨start + width tag, start + width tag + width c⟩,
            ⟨start, start + width tag + width c + width (closeTag v).1⟩⟩, ?_, rfl⟩⟩
        have hcontent : content? .template (c ++ v) = some (c, v) :=
          templateContent?_append hmark hback
        simp only [readAt, tagEnd?_congr htag, hself, hcontent]
        rfl

/-- The open tag of a template that is put into a component. -/
def templateOpen : Text := "<template>".toList

/-- The close tag of a template that is put into a component. -/
def templateClose : Text := "</template>".toList

theorem opens_opening (kind : SectionKind) (s : Text) : opens kind (kind.opening ++ s) = true := by
  refine opens_iff.2 ⟨'<' :: kind.tag, '>', s, ?_, ?_, .inl rfl⟩
  · simp [SectionKind.opening]
  · cases kind <;> decide

theorem closes_ending (kind : SectionKind) (s : Text) : closes kind (kind.ending ++ s) = true := by
  rw [closes, lower_append]
  refine startsWith_append ?_ _
  cases kind <;> decide

theorem closeTag_ending (kind : SectionKind) (s : Text) :
    closeTag (kind.ending ++ s) = (kind.ending, s) := by
  have hmem : '>' ∉ '<' :: '/' :: kind.tag := by cases kind <;> decide
  have hcut := cut?_singleton_append hmem s
  have hending : kind.ending ++ s = '<' :: '/' :: kind.tag ++ '>' :: s := by
    simp [SectionKind.ending]
  rw [hending, closeTag, hcut]
  simp [SectionKind.ending]

/-- A block without attributes that starts at byte `start`. -/
def blockAt (kind : SectionKind) (start : Nat) (content close : Text) : Section :=
  let first := start + width kind.opening
  let stop := first + width content
  ⟨⟨start, first⟩, ⟨first, stop⟩, ⟨start, stop + width close⟩⟩

/-- A block takes its content, and the close tag behind it. -/
theorem readAt_opening (kind : SectionKind) (start : Nat) (s : Text) :
    readAt kind start (kind.opening ++ s) =
      match content? kind s with
      | none => .error ⟨.openSection kind.tag, start⟩
      | some (content, r) => .ok (blockAt kind start content (closeTag r).1, (closeTag r).2) := by
  have htag : tagEnd? none (kind.opening ++ s) = some (kind.opening, s) :=
    tagEnd?_congr (s := kind.opening) (r := []) (by cases kind <;> decide) s
  have hself : endsWith ['/', '>'] kind.opening = false := by cases kind <;> decide
  simp only [readAt, htag, hself, Bool.false_eq_true, if_false]
  rfl

/-- A block is read with its content, if that is found again. -/
theorem readAt_block {kind : SectionKind} {content s : Text}
    (h : content? kind (content ++ (kind.ending ++ s)) = some (content, kind.ending ++ s))
    (start : Nat) : readAt kind start (kind.opening ++ (content ++ (kind.ending ++ s))) =
      .ok (blockAt kind start content kind.ending, s) := by
  rw [readAt_opening, h]
  simp only [closeTag_ending]

/-- A new template is read with its content, if that has no marks. -/
theorem readAt_new (start : Nat) {c : Text} (hc : hasMark c = false) (s : Text) :
    ∃ b, readAt .template start (templateOpen ++ (c ++ (templateClose ++ s))) = .ok (b, s) ∧
      b.content = ⟨start + width templateOpen, start + width templateOpen + width c⟩ := by
  have hopen : templateOpen = SectionKind.template.opening := by decide
  have hclose : templateClose = SectionKind.template.ending := by decide
  have hcontent : content? .template (c ++ (SectionKind.template.ending ++ s)) =
      some (c, SectionKind.template.ending ++ s) :=
    templateContent?_append hc (closes_ending .template s)
  rw [hopen, hclose]
  exact ⟨_, readAt_block hcontent start, rfl⟩

end Section

namespace Sections

variable {found sections : Sections} {n : Nat} {s : Text} {block : Section}

theorem template_add {kind : SectionKind} (h : found.template = some block) (b : Section) :
    (found.add kind b).template = some block := by
  cases kind <;> simp [add, h]

theorem template_add_of_ne {kind : SectionKind} (hkind : kind ≠ .template) (b : Section) :
    (found.add kind b).template = found.template := by
  cases kind with
  | template => exact absurd rfl hkind
  | script | style => rfl

theorem splitAt_of_nextOpen? (h : Section.nextOpen? s = none) : splitAt n found s = .ok found := by
  rw [splitAt]
  split
  · rfl
  next hsome => rw [h] at hsome; cases hsome

theorem splitAt_nil : splitAt n found [] = .ok found :=
  splitAt_of_nextOpen? (by rw [Section.nextOpen?])

theorem splitAt_of_nextOpen?_eq_some {kind : SectionKind} {p rest : Text}
    (hnext : Section.nextOpen? s = some (kind, p, rest)) :
    splitAt n found s = (Section.readAt kind (n + width p) rest).bind fun (block, r) =>
      splitAt block.outer.stop (found.add kind block) r := by
  rw [splitAt]
  split
  next h => rw [hnext] at h; cases h
  next h =>
    rw [hnext] at h
    cases h
    split
    next h => rw [h]; rfl
    next h => rw [h]; rfl

theorem splitAt_of_readAt {kind : SectionKind} {p rest r : Text}
    (hnext : Section.nextOpen? s = some (kind, p, rest))
    (hread : Section.readAt kind (n + width p) rest = .ok (block, r)) :
    splitAt n found s = splitAt block.outer.stop (found.add kind block) r := by
  rw [splitAt_of_nextOpen?_eq_some hnext, hread]
  rfl

/-- Of two templates the first counts. -/
theorem template_splitAt (h : splitAt n found s = .ok sections)
    (hfound : found.template = some block) : sections.template = some block := by
  fun_induction splitAt n found s with
  | case1 =>
    cases h
    exact hfound
  | case2 => cases h
  | case3 n found s kind skipped rest hnext b r hread ih => exact ih h (template_add hfound b)

/-- Blocks are found wherever their text starts. -/
theorem exists_splitAt (h : splitAt n found s = .ok sections) (m : Nat) (found' : Sections) :
    ∃ sections', splitAt m found' s = .ok sections' := by
  fun_induction splitAt n found s generalizing m found' with
  | case1 n found s hnext => exact ⟨found', splitAt_of_nextOpen? hnext⟩
  | case2 => cases h
  | case3 n found s kind skipped rest hnext b r hread ih =>
    obtain ⟨b', hb'⟩ := Section.exists_readAt hread (m + width skipped)
    obtain ⟨sections', hs⟩ := ih h b'.outer.stop (found'.add kind b')
    refine ⟨sections', ?_⟩
    rw [splitAt_of_readAt hnext hb']
    exact hs

/-- So they are behind another character. -/
theorem exists_splitAt_cons {c : Char} (hc : c ≠ '<') (h : splitAt n found s = .ok sections)
    (m : Nat) (found' : Sections) : ∃ sections', splitAt m found' (c :: s) = .ok sections' := by
  have hnext := Section.nextOpen?_cons hc s
  rw [splitAt] at h
  split at h
  next hnone =>
    refine ⟨found', splitAt_of_nextOpen? ?_⟩
    rw [hnext, hnone]
    rfl
  next kind p rest hsome =>
    split at h
    · cases h
    next hread =>
      obtain ⟨b', hb'⟩ := Section.exists_readAt hread (m + width (c :: p))
      rw [hsome] at hnext
      rw [splitAt_of_readAt hnext hb']
      exact exists_splitAt h _ _

/-- **A template with a close tag has other content in its place**, if that has no marks. -/
theorem exists_edited (h : splitAt n found s = .ok sections) (hfound : found.template = none)
    (ht : sections.template = some block) (hclosed : block.IsClosed) :
    ∃ front content back, s = front ++ (content ++ back) ∧
      block.content = ⟨n + width front, n + width front + width content⟩ ∧
      ∀ c, Section.hasMark c = false → ∃ sections' b,
        splitAt n found (front ++ (c ++ back)) = .ok sections' ∧ sections'.template = some b ∧
          b.content = ⟨n + width front, n + width front + width c⟩ := by
  fun_induction splitAt n found s with
  | case1 =>
    cases h
    rw [hfound] at ht
    cases ht
  | case2 => cases h
  | case3 n found s kind skipped rest hnext b r hread ih =>
    have hs := Section.eq_of_nextOpen? hnext
    have hopens := Section.opens_of_nextOpen? hnext
    by_cases hkind : kind = .template
    · subst hkind
      have hb : (found.add .template b).template = some b := by simp [add, hfound]
      obtain rfl : b = block := Option.some.inj ((template_splitAt h hb).symm.trans ht)
      obtain ⟨tag, content, back, rfl, hcontent, hedited⟩ :=
        Section.exists_readAt_template hread hclosed
      refine ⟨skipped ++ tag, content, back, by simp [hs], by simp [hcontent, Nat.add_assoc],
        fun c hc => ?_⟩
      obtain ⟨ho, b', hread', hcontent'⟩ := hedited c hc
      have hnext' := Section.nextOpen?_congr hnext (ho hopens)
      obtain ⟨sections', hsections'⟩ := exists_splitAt h b'.outer.stop (found.add .template b')
      have hb' : (found.add .template b').template = some b' := by simp [add, hfound]
      refine ⟨sections', b', ?_, template_splitAt hsections' hb', by
        simp [hcontent', Nat.add_assoc]⟩
      rw [List.append_assoc, splitAt_of_readAt hnext' hread']
      exact hsections'
    · have hfound' : (found.add kind b).template = none := (template_add_of_ne hkind b).trans hfound
      have hr : r ≠ [] := by
        rintro rfl
        rw [splitAt_nil] at h
        cases h
        rw [hfound'] at ht
        cases ht
      obtain ⟨bt, rfl, hstop, hcongr⟩ := Section.readAt_congr hkind hread hr
      obtain ⟨front, content, back, rfl, hcontent, hedited⟩ := ih h hfound'
      have hwidth : b.outer.stop + width front = n + width (skipped ++ (bt ++ front)) := by
        rw [hstop]
        simp [Nat.add_assoc]
      refine ⟨skipped ++ (bt ++ front), content, back, by simp [hs], hwidth ▸ hcontent,
        fun c hc => ?_⟩
      obtain ⟨sections', b', hsections', hb', hcontent'⟩ := hedited c hc
      obtain ⟨hread', ho⟩ := hcongr (front ++ (c ++ back))
      refine ⟨sections', b', ?_, hb', hwidth ▸ hcontent'⟩
      have happend : skipped ++ (bt ++ front) ++ (c ++ back) =
          skipped ++ (bt ++ (front ++ (c ++ back))) := by simp
      rw [happend, splitAt_of_readAt (Section.nextOpen?_congr hnext (ho hopens)) hread']
      exact hsections'

/-- **A new template is found in front of a component.** -/
theorem exists_added (h : split s = .ok sections) {c : Text} (hc : Section.hasMark c = false) :
    ∃ sections' b, split (Section.templateOpen ++ (c ++ (Section.templateClose ++ '\n' :: s))) =
      .ok sections' ∧ sections'.template = some b ∧
      b.content = ⟨width Section.templateOpen, width Section.templateOpen + width c⟩ := by
  obtain ⟨b, hread, hcontent⟩ := Section.readAt_new 0 hc ('\n' :: s)
  have hopens : Section.opens .template
      (Section.templateOpen ++ (c ++ (Section.templateClose ++ '\n' :: s))) = true :=
    Section.opens_iff.2 ⟨"<template".toList, '>', _, rfl, by decide, .inl rfl⟩
  obtain ⟨sections', hsections'⟩ := exists_splitAt_cons (c := '\n') (by decide) h b.outer.stop
    (add ⟨none, none, none⟩ .template b)
  refine ⟨sections', b, ?_, template_splitAt hsections' rfl, by simpa using hcontent⟩
  rw [split, splitAt_of_readAt (Section.nextOpen?_of_opens hopens) hread]
  exact hsections'

end Sections

end MarkupSync
