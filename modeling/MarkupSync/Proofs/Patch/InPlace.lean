import MarkupSync.Proofs.Patch.Component
import MarkupSync.Proofs.Patch.Script
import MarkupSync.Proofs.Script.Region

/-!
# Two ways to patch a module

A module is patched by its syntax tree or, where that cannot express an edit, in place.

* `Document.range_of_readScript`: the markup of a module is a range of its text, and its document
  stands in it;
* `patchMarkup_around`, `patchMarkupText_around`: either way the code around the markup stays;
* `not_patchMarkup_agrees`: the blanks at the ends of texts are kept in one way and stay behind in
  the other;
* **`patchMarkup_agrees`**: the two ways differ in the markup only, and not at all where it is
  replaced.
-/

namespace MarkupSync

open Text

variable {source t t' : Text} {d : Document} {region : Span} {edits : List Edit}
  {options : FormatOptions}

/-- The markup of a module is a range of whole characters, in which the root of its document
stands. -/
theorem Document.range_of_readScript (h : readScript source = .ok (d, region)) :
    (∃ r, d.IsSound .jsx source r) ∧ source.IsRange ⟨0, width source⟩ region ∧
      d.place.outer.Within region := by
  rw [readScript] at h
  split at h
  · cases h
  next located hlocated =>
    split at h
    · cases h
    next d' stop hread =>
      cases h
      obtain ⟨hstart, hstop⟩ := Script.located_locateMarkup hlocated
      obtain ⟨hsound, hrange, hwithin⟩ := isSound_and_within_readRootWithin
        (Nat.le_of_lt (lt_of_readRootWithin hread)) hstart hstop hread
      obtain ⟨x, hx⟩ := hrange.exists_holds
      exact ⟨⟨_, hsound⟩, hx.isRange ⟨Nat.zero_le _, hx.stop_le⟩, hwithin⟩

/-- What is done by the syntax tree leaves the code around the markup as it is. -/
theorem patchMarkup_around (hd : Document.readScript source = .ok (d, region))
    (h : patchMarkup source edits options = .ok t) : ∃ m : ScriptModule,
      ((ScriptModule.ofDocument source d region).applyAll edits).result = .ok m ∧
      t = before region.start source ++
        (indented (lineIndent region.start source) ((options.printer .jsx).print m.markup.toNode) ++
          after region.stop source) := by
  rw [patchMarkup, ScriptModule.read, hd] at h
  obtain ⟨m, hm, rfl⟩ := exists_of_map_eq_ok h
  refine ⟨m, hm, ?_⟩
  rw [ScriptModule.print, (ScriptModule.eq_of_applyAll hm).2, List.append_assoc]
  rfl

/-- What is done in place leaves the code around the markup as it is. -/
theorem patchMarkupText_around (hd : Document.readScript source = .ok (d, region))
    (h : patchMarkupText source edits options = .ok t) :
    ∃ x, t = before region.start source ++ (x ++ after region.stop source) := by
  obtain ⟨⟨r, hsound⟩, hrange, hwithin⟩ := Document.range_of_readScript hd
  rw [patchMarkupText, hd] at h
  simp only [patchText] at h
  split at h
  · cases h
  next es hes =>
    obtain ⟨x, hx⟩ := hrange.exists_holds
    obtain ⟨y, hy⟩ := ((Component.confined_outer_textSplices hsound hes).mono hwithin.1
      hwithin.2).exists_rewrites hx
    rw [hx.applyAll hy] at h
    cases h
    exact ⟨y, rfl⟩

/-- Markup that is replaced is printed anew by its syntax tree. -/
theorem patchMarkup_replace (hd : Document.readScript source = .ok (d, region)) {new : Node}
    (hfixes : options.Fixes new) (h : patchMarkup source [.replace [] new] options = .ok t) :
    t = before region.start source ++
      (indented (lineIndent region.start source) ((options.printer .jsx).print new) ++
        after region.stop source) := by
  obtain ⟨n, hn, hsame⟩ := hfixes
  obtain ⟨hwritable, htext⟩ := Document.isWritable_of_readRootAt hn
  have hspec := Markup.ofRoot_spec (hwritable.same hsame).isMarkup (hsame.isText.symm.trans htext)
  obtain ⟨m, hm, rfl⟩ := patchMarkup_around hd h
  obtain ⟨hrun, -⟩ := ScriptModule.eq_of_applyAll hm
  have hmarkup : m.markup = Markup.ofRoot new := by
    simpa [Outcome.run, Outcome.andThen, Markup.apply, Outcome.result] using hrun.symm
  rw [hmarkup, hspec.1]

/-- Markup that is one element and is replaced is printed anew in place. -/
theorem patchMarkupText_replace (hd : Document.readScript source = .ok (d, region))
    (hregion : Patcher.documentSpan d.place = region) {new : Node} (hnew : new.isText = false) :
    patchMarkupText source [.replace [] new] options = .ok (before region.start source ++
      (indented (lineIndent region.start source) ((options.printer .jsx).print new) ++
        after region.stop source)) := by
  obtain ⟨-, hrange, -⟩ := Document.range_of_readScript hd
  obtain ⟨x, hx⟩ := hrange.exists_holds
  have hroot : (Shadow.ofDocument d).applyAll [.replace [] new] = .ok (Shadow.fresh new) := rfl
  have hfresh : (Patcher.mk source .jsx options).fresh false (lineIndent region.start source) new =
      indented (lineIndent region.start source) ((options.printer .jsx).print new) := by
    cases new with
    | text => cases hnew
    | element => rfl
  simp only [patchMarkupText, hd, patchText, textSplices, hroot, Patcher.rootSplices,
    Shadow.origin_fresh, Shadow.toNode_fresh, hregion, hfresh]
  rw [hx.applyAll (.of_holds hx _)]
  rfl

/-- **The two ways to patch a module differ in the markup only.** The code around it stays either
way. Where a difference replaces the markup, an element, by a tree that the printer fixes, they give
the same text. -/
theorem patchMarkup_agrees (hd : Document.readScript source = .ok (d, region)) {new : Node}
    (h : patchMarkup source (d.root.diff new) options = .ok t)
    (h' : patchMarkupText source (d.root.diff new) options = .ok t') :
    (∃ x x', t = before region.start source ++ (x ++ after region.stop source) ∧
      t' = before region.start source ++ (x' ++ after region.stop source)) ∧
    (options.Fixes new → Patcher.documentSpan d.place = region → d.root.tag? ≠ new.tag? →
      t = t') := by
  constructor
  · obtain ⟨m, -, ht⟩ := patchMarkup_around hd h
    obtain ⟨x', ht'⟩ := patchMarkupText_around hd h'
    exact ⟨_, x', ht, ht'⟩
  · intro hfixes hregion htag
    rw [Node.diff_eq_replace htag] at h h'
    obtain ⟨n, hn, hsame⟩ := id hfixes
    have htext := hsame.isText.symm.trans (Document.isWritable_of_readRootAt hn).2
    rw [patchMarkupText_replace hd hregion htext] at h'
    rw [patchMarkup_replace hd hfixes h]
    exact Except.ok.inj h'

/-- A paragraph becomes another element. -/
theorem patchMarkup_agrees_paragraph :
    let source := "const A = () => (\n  <p>a</p>\n);".toList
    let new : Node := .element ['b'] .empty .empty [.element ['i'] .empty .empty []]
    let options : FormatOptions := {}
    ∃ d region t, Document.readScript source = .ok (d, region) ∧ options.Fixes new ∧
      patchMarkup source (d.root.diff new) options = .ok t ∧
      patchMarkupText source (d.root.diff new) options = .ok t := by
  intro source new options
  have h : (Document.readScript source).toOption.map (fun x =>
      ((patchMarkup source (x.1.root.diff new) options).toOption.isSome,
        (patchMarkupText source (x.1.root.diff new) options).toOption.isSome,
        Patcher.documentSpan x.1.place == x.2, x.1.root.tag? == new.tag?)) =
      some (true, true, true, false) := by decide +kernel
  obtain ⟨⟨d, region⟩, hd, h⟩ := Option.map_eq_some_iff.1 h
  simp only [Prod.mk.injEq, beq_iff_eq, beq_eq_false_iff_ne] at h
  obtain ⟨hok, hok', hregion, htag⟩ := h
  obtain ⟨t, ht⟩ := Option.isSome_iff_exists.1 hok
  obtain ⟨t', ht'⟩ := Option.isSome_iff_exists.1 hok'
  have ht := eq_ok_of_toOption ht
  have ht' := eq_ok_of_toOption ht'
  have hfixes : options.Fixes new := FormatOptions.fixes_iff.1 (by decide +kernel)
  have hd := eq_ok_of_toOption hd
  obtain rfl := (patchMarkup_agrees hd ht ht').2 hfixes hregion htag
  exact ⟨d, region, t, hd, hfixes, ht, ht'⟩

/-- A text that ends with a blank gets another character: in place, the blank behind the old text
stays and comes behind the new one. -/
theorem not_patchMarkup_agrees :
    let source := "export default () => <p>a <b></b></p>;".toList
    let new : Node := .element ['p'] .empty .empty [.text ['c', ' '], .element ['b'] .empty .empty []]
    let options : FormatOptions := {}
    ∃ d region t t' shown shown' r r', Document.readScript source = .ok (d, region) ∧
      options.Fixes d.root ∧ options.Fixes new ∧
      patchMarkup source (d.root.diff new) options = .ok t ∧
      patchMarkupText source (d.root.diff new) options = .ok t' ∧
      Document.readScript t = .ok (shown, r) ∧ Document.readScript t' = .ok (shown', r') ∧
      ¬ shown.root.Same shown'.root := by
  intro source new options
  have h : (Document.readScript source).toOption.map (fun x =>
      (options.fixes x.1.root, (patchMarkup source (x.1.root.diff new) options).toOption,
        (patchMarkupText source (x.1.root.diff new) options).toOption)) =
      some (true, some "export default () => <p>c <b /></p>;".toList,
        some "export default () => <p>c  <b></b></p>;".toList) := by decide +kernel
  obtain ⟨⟨d, region⟩, hd, h⟩ := Option.map_eq_some_iff.1 h
  simp only [Prod.mk.injEq] at h
  obtain ⟨hfixes, ht, ht'⟩ := h
  have hshown : ((Document.readScript "export default () => <p>c <b /></p>;".toList).toOption.bind
      fun x => (Document.readScript "export default () => <p>c  <b></b></p>;".toList).toOption.map
        fun x' => x.1.root.same x'.1.root) = some false := by decide +kernel
  obtain ⟨⟨shown, r⟩, hshown, hdiffer⟩ := Option.bind_eq_some_iff.1 hshown
  obtain ⟨⟨shown', r'⟩, hshown', hdiffer⟩ := Option.map_eq_some_iff.1 hdiffer
  refine ⟨d, region, _, _, shown, shown', r, r', eq_ok_of_toOption hd, FormatOptions.fixes_iff.1 hfixes,
    FormatOptions.fixes_iff.1 (by decide +kernel), eq_ok_of_toOption ht, eq_ok_of_toOption ht',
    eq_ok_of_toOption hshown, eq_ok_of_toOption hshown', fun hsame => ?_⟩
  rw [(Node.same_iff _ _).2 hsame] at hdiffer
  cases hdiffer

end MarkupSync
