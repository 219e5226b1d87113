import MarkupSync.Patch.Component
import MarkupSync.Proofs.Document.Spans
import MarkupSync.Proofs.Patch.Kept
import MarkupSync.Proofs.Section

/-!
# Patches stay in their region

* `Document.IsReadFrom`: the ways to read a document from a region of a source;
* `Document.IsPatchable`: edits fail, or their splices stay in the root of the document;
* **`Component.isPatchable_of_read`**: edits of a document that was read are patchable, and the
  splices of a template stay in its section.
-/

namespace MarkupSync

open Text

variable {flavor target : Flavor} {source : Text} {region : Span} {d : Document}
  {edits : List Edit} {options : FormatOptions}

namespace Document

/-- A document was read from a region of a source: from the whole text, from a part of it, or from
the element or the fragment that a part starts with. -/
inductive IsReadFrom (flavor : Flavor) (source : Text) : Span → Document → Prop
  | whole {d : Document} (h : read flavor source = .ok d) :
    IsReadFrom flavor source ⟨0, width source⟩ d
  | part {region : Span} {d : Document} (hle : region.start ≤ region.stop)
    (hstart : Boundary region.start source) (hstop : Boundary region.stop source)
    (h : readWithin flavor region source = .ok d) : IsReadFrom flavor source region d
  | root {region : Span} {d : Document} {stop : Nat} (hle : region.start ≤ region.stop)
    (hstart : Boundary region.start source) (hstop : Boundary region.stop source)
    (h : readRootWithin flavor region source = .ok (d, stop)) : IsReadFrom flavor source region d

theorem IsReadFrom.isSound (h : d.IsReadFrom flavor source region) :
    d.IsSound flavor source region := by
  cases h with
  | whole h => exact isSound_read h
  | part hle hstart hstop h =>
    obtain ⟨s, hs⟩ := exists_holds hle hstart hstop
    rw [readWithin, hs.at_eq] at h
    exact isSound_readAt hs h
  | root hle hstart hstop h => exact isSound_readRootWithin hle hstart hstop h

/-- Edits of a document cannot be carried over to its source, or their splices are in order, between
characters and in the place of the root, and can be applied. -/
structure IsPatchable (source : Text) (region : Span) (d : Document) (edits : List Edit)
    (flavor : Flavor) (options : FormatOptions) : Prop where
  outcome : (∃ path, textSplices source d edits flavor options = .error (.unresolved path)) ∨
    (∃ path what, textSplices source d edits flavor options = .error (.unsupported path what)) ∨
    ∃ es t, textSplices source d edits flavor options = .ok es ∧
      (∀ e ∈ es, source.IsRange d.place.outer e.span) ∧
      es.Pairwise (fun a b => a.span.stop ≤ b.span.start) ∧
      Splice.applyAll es source = .ok t ∧ patchText source d edits flavor options = .ok t ∧
      Component.confine region es = .ok es
  /-- The changes inside a node that was kept stay in its place. -/
  nested : ∀ root, (Shadow.ofDocument d).applyAll edits = .ok root →
    ∀ path s o raw, Tree.descend root path = some s → s.origin = some o →
      ∃ es, (Patcher.mk source flavor options).splices raw s = .ok es ∧
        ∀ e ∈ es, source.IsRange o.place.outer e.span

end Document

/-- What cannot be carried over is a path or is not supported. -/
theorem Shadow.error_of_applyAll {s : Shadow} {e : PatchError} (h : s.applyAll edits = .error e) :
    (∃ path, e = .unresolved path) ∨ ∃ path what, e = .unsupported path what := by
  induction edits generalizing s with
  | nil => cases h
  | cons edit edits ih =>
    rw [applyAll, apply] at h
    cases hedit : s.edit edit with
    | ok t =>
      rw [hedit] at h
      exact ih h
    | error f =>
      rw [hedit] at h
      cases h
      rw [PatchError.ofEdit]
      split
      · exact .inr ⟨_, _, rfl⟩
      · exact .inl ⟨_, rfl⟩

namespace Component

/-- Splices in a region are confined to it. -/
theorem confine_eq_ok {es : List Splice} (h : ∀ e ∈ es, e.span.Within region) :
    confine region es = .ok es := by
  rw [confine]
  split
  next e he =>
    obtain ⟨h1, h2⟩ := h e (List.mem_of_find?_eq_some he)
    have := List.find?_some he
    simp only [Bool.or_eq_true, decide_eq_true_eq] at this
    omega
  next => rfl

/-- Edits of a document with sound places are patchable. -/
theorem isPatchable_of_isSound (hd : d.IsSound flavor source region) (edits : List Edit)
    (target : Flavor) (options : FormatOptions) :
    d.IsPatchable source region edits target options := by
  have hgenuine {root : Shadow} (hroot : (Shadow.ofDocument d).applyAll edits = .ok root) :
      Shadow.IsGenuine d root :=
    Shadow.isGenuine_applyAll (Shadow.isGenuine_ofSource hd.fits rfl) hroot
  constructor
  case outcome =>
    cases hroot : (Shadow.ofDocument d).applyAll edits with
    | error e =>
      simp only [textSplices, hroot, Except.error.injEq, reduceCtorEq, false_and, exists_false,
        or_false]
      exact Shadow.error_of_applyAll hroot
    | ok root =>
      obtain ⟨es, hes, hin⟩ := Patcher.confined_rootSplices (p := ⟨source, target, options⟩) hd
        (hgenuine hroot)
      have hsplices : textSplices source d edits target options = .ok es := by
        simp only [textSplices, hroot, hes]
      obtain ⟨t, ht⟩ := hin.exists_applyAll (hd.isRange.exists_holds.elim fun _ h => h.stop_le)
      have hrange := hd.isRange.within
      refine .inr (.inr ⟨es, t, hsplices, hin.isRange, ?_, ht, ?_, confine_eq_ok fun e he => ?_⟩)
      · exact List.pairwise_map.1 hin.order.pairwise
      · simp only [patchText, hsplices, ht, Except.mapError]
      · obtain ⟨h1, h2⟩ := (hin.isRange e he).within
        exact ⟨Nat.le_trans hrange.1 h1, Nat.le_trans h2 hrange.2⟩
  case nested =>
    intro root hroot path s o raw hs ho
    obtain ⟨es, hes, hin⟩ := Patcher.confined_splices (p := ⟨source, target, options⟩) hd raw
      (Shadow.hereditary_isGenuine.descend (hgenuine hroot) hs) ho
    exact ⟨es, hes, hin.isRange⟩

/-- The splices of a document stay in the place of its root. -/
theorem confined_outer_textSplices (hd : d.IsSound flavor source region) {es : List Splice}
    (h : textSplices source d edits target options = .ok es) :
    Splice.AreConfined source d.place.outer.start d.place.outer.stop es := by
  unfold textSplices at h
  split at h
  · cases h
  next root hroot =>
    have hgenuine := Shadow.isGenuine_applyAll (Shadow.isGenuine_ofSource hd.fits rfl) hroot
    obtain ⟨fs, hfs, hin⟩ :=
      Patcher.confined_rootSplices (p := ⟨source, target, options⟩) hd hgenuine
    rw [hfs] at h
    cases h
    exact hin

/-- The splices of a document stay in its region. -/
theorem confined_textSplices (hd : d.IsSound flavor source region) {es : List Splice}
    (h : textSplices source d edits target options = .ok es) :
    Splice.AreConfined source region.start region.stop es :=
  (confined_outer_textSplices hd h).mono hd.isRange.within.1 hd.isRange.within.2

/-- The splices of a template stay in its section. -/
theorem templateSplices_ne_invalidSplice {sections : Sections}
    (hsections : Sections.split source = .ok sections) (e : SpliceError) :
    templateSplices source sections.template edits options ≠ .error (.invalidSplice e) := by
  intro htemplate
  unfold templateSplices at htemplate
  split at htemplate
  · cases htemplate
  split at htemplate
  next block hblock =>
    have hblock : sections.get? .template = some block := hblock
    have hrange := Sections.isRange_content hsections hblock
    split at htemplate
    · cases htemplate
    next d hd =>
      have hread := Document.IsReadFrom.part hrange.le hrange.start hrange.stop hd
      obtain ⟨path, hes⟩ | ⟨path, what, hes⟩ | ⟨es, t, hes, -, -, -, -, hconfine⟩ :=
        (isPatchable_of_isSound hread.isSound edits .html options).outcome
      · rw [hes] at htemplate
        cases htemplate
      · rw [hes] at htemplate
        cases htemplate
      · simp only [hes, hconfine] at htemplate
        cases htemplate
  next =>
    split at htemplate <;> cases htemplate

/-- **Patches stay in their region.** Edits of a document that was read from a region of a source
either cannot be carried over or have splices that stay in the place of its root and can be applied;
those of the template of a component always stay in its section. -/
theorem isPatchable_of_read (source : Text) (edits : List Edit) (options : FormatOptions) :
    (∀ flavor region d, Document.IsReadFrom flavor source region d →
      ∀ target, d.IsPatchable source region edits target options) ∧
    ∀ sections, Sections.split source = .ok sections →
      ∀ e, templateSplices source sections.template edits options ≠ .error (.invalidSplice e) :=
  ⟨fun _ _ _ h target => isPatchable_of_isSound h.isSound edits target options,
    fun _ h e => templateSplices_ne_invalidSplice h e⟩

/-- A component from whose template an attribute is taken, and a node is put into it. -/
theorem isPatchable_of_read_paragraph :
    let source := "é<template><p id=a b>x<!-- -->y</p></template>".toList
    let region : Span := ⟨12, 36⟩
    let edits : List Edit := [.updateAttributes [] ⟨.empty, .empty, [['i', 'd']]⟩ ⟨.empty, .empty, []⟩,
      .insert [] 1 (.element ['i'] .empty .empty [])]
    ∃ d sections, Document.IsReadFrom .html source region d ∧ Sections.split source = .ok sections ∧
      textSplices source d edits .html {} =
        .ok [⟨⟨14, 19⟩, []⟩, ⟨⟨22, 32⟩, "x<!-- -->y<i></i>".toList⟩] ∧
      d.IsPatchable source region edits .html {} ∧
      ∀ e, templateSplices source sections.template edits {} ≠ .error (.invalidSplice e) := by
  intro source region edits
  obtain ⟨d, hd⟩ := Option.isSome_iff_exists.1
    (show (Document.readWithin .html region source).toOption.isSome = true by decide +kernel)
  obtain ⟨sections, hsections⟩ := Option.isSome_iff_exists.1
    (show (Sections.split source).toOption.isSome = true by decide +kernel)
  have hsplices : ((Document.readWithin .html region source).toOption.bind fun d =>
      (textSplices source d edits .html {}).toOption) =
      some [⟨⟨14, 19⟩, []⟩, ⟨⟨22, 32⟩, "x<!-- -->y<i></i>".toList⟩] := by decide +kernel
  rw [hd] at hsplices
  have hread : Document.IsReadFrom .html source region d :=
    .part (by decide) (isBoundary_iff.1 (by decide)) (isBoundary_iff.1 (by decide))
      (eq_ok_of_toOption hd)
  have hsplit := eq_ok_of_toOption hsections
  have hpatchable := isPatchable_of_read source edits {}
  exact ⟨d, sections, hread, hsplit, eq_ok_of_toOption hsplices,
    hpatchable.1 .html region d hread .html, hpatchable.2 sections hsplit⟩

end Component

end MarkupSync
