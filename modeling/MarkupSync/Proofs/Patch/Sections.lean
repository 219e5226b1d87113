import MarkupSync.Proofs.Patch.Component
import MarkupSync.Proofs.Patch.Order
import MarkupSync.Proofs.Script.Region

/-!
# Patches of components touch only their sections

* `ComponentPatch.changed`: the sections that a patch changes;
* `Component.Makes`: what it makes of the content of a section;
* `Component.IsFront`, `Component.back`: what it puts around the component;
* `patchScript_ne_invalidSplice`: a module is never patched by splices that cannot be applied;
* **`patchComponent_frame`**: a patched component is the old one with new contents of its changed
  sections, a template in front and a style behind if they were missing.
-/

namespace MarkupSync

open Text

/-- A module is never patched by splices that cannot be applied. -/
theorem patchScript_ne_invalidSplice (source : Text) (edits : List Edit) (options : FormatOptions)
    (e : SpliceError) : patchScript source edits options ≠ .error (.invalidSplice e) := by
  intro h
  rw [patchScript] at h
  split at h
  · cases h
  rw [patchMarkupText] at h
  split at h
  · cases h
  next d region hread =>
    obtain ⟨region', hsound⟩ := Document.isSound_of_readScript hread
    obtain ⟨path, hes⟩ | ⟨path, what, hes⟩ | ⟨es, t, -, -, -, -, ht, -⟩ :=
      (Component.isPatchable_of_isSound hsound edits .jsx options).outcome
    · rw [patchText, hes] at h
      cases h
    · rw [patchText, hes] at h
      cases h
    · rw [ht] at h
      cases h

/-! ## The parts of a patch -/

namespace ComponentPatch

/-- Whether a patch concerns a kind of section. -/
def concerns (p : ComponentPatch) : SectionKind → Bool
  | .template => !p.template.isEmpty
  | .script => !p.script.isEmpty
  | .style => p.style.isSome

/-- The section of a kind if a patch changes it. -/
def changedOf (p : ComponentPatch) (sections : Sections) (kind : SectionKind) :
    List (SectionKind × Section) :=
  if p.concerns kind then (sections.get? kind).toList.map (kind, ·) else []

/-- The sections that a patch changes. -/
def changed (p : ComponentPatch) (sections : Sections) : List (SectionKind × Section) :=
  SectionKind.all.flatMap (p.changedOf sections)

end ComponentPatch

namespace Component

variable {source : Text} {sections : Sections} {p : ComponentPatch} {options : FormatOptions}

/-- A patch makes the text `t` of the content of a section. -/
def Makes (source : Text) (p : ComponentPatch) (options : FormatOptions) (block : Section)
    (t : Text) : SectionKind → Prop
  | .template => ∃ d es, Document.readWithin .html block.content source = .ok d ∧
      textSplices source d p.template .html options = .ok es ∧
      Rewrites block.content.start (source.at block.content) es t
  | .script => patchScript (source.at block.content) p.script options = .ok t
  | .style => p.style = some t

/-- A patch puts the text `t` in front of a component: a printed template, if it has none. -/
def IsFront (sections : Sections) (p : ComponentPatch) (options : FormatOptions) (t : Text) : Prop :=
  if p.concerns .template ∧ sections.template = none then
    ∃ n, ((Node.root []).applyAll p.template).result = .ok n ∧ t = Dialect.vue.printFile options n
  else t = []

/-- What a patch puts behind a component: a style section on a line of its own, if it has none. -/
def back (source : Text) (sections : Sections) (p : ComponentPatch) : Text :=
  match p.style, sections.style with
  | some content, none =>
    (if source = [] ∨ Text.endsWith ['\n'] source then [] else ['\n']) ++ styleBlock content
  | _, _ => []

theorem changedOf_of_get? {kind : SectionKind} {block : Section} (hp : p.concerns kind = true)
    (hblock : sections.get? kind = some block) :
    p.changedOf sections kind = [(kind, block)] := by
  rw [ComponentPatch.changedOf, if_pos hp, hblock]
  rfl

theorem changedOf_eq_nil {kind : SectionKind}
    (h : p.concerns kind = false ∨ sections.get? kind = none) : p.changedOf sections kind = [] := by
  obtain h | h := h <;> simp [ComponentPatch.changedOf, h]

theorem mem_changedOf {kind k : SectionKind} {block : Section} :
    (k, block) ∈ p.changedOf sections kind ↔
      k = kind ∧ p.concerns kind = true ∧ sections.get? kind = some block := by
  rw [ComponentPatch.changedOf]
  split
  next hc =>
    simp only [List.mem_map, Option.mem_toList, Prod.mk.injEq]
    constructor
    · rintro ⟨b, hb, rfl, rfl⟩
      exact ⟨rfl, hc, hb⟩
    · rintro ⟨rfl, -, hb⟩
      exact ⟨block, hb, rfl, rfl⟩
  next hc => simp [hc]

/-- The sections that a patch changes are those that it concerns. -/
theorem mem_changed {kind : SectionKind} {block : Section} :
    (kind, block) ∈ p.changed sections ↔
      p.concerns kind = true ∧ sections.get? kind = some block := by
  simp only [ComponentPatch.changed, List.mem_flatMap, mem_changedOf]
  constructor
  · rintro ⟨k, -, rfl, h⟩
    exact h
  · exact fun h => ⟨kind, by cases kind <;> decide, rfl, h⟩

/-- The sections that a patch changes are of different kinds. -/
theorem pairwise_changed (p : ComponentPatch) (sections : Sections) :
    (p.changed sections).Pairwise fun a b => a.1 ≠ b.1 := by
  rw [ComponentPatch.changed, List.pairwise_flatMap]
  refine ⟨fun kind _ => ?_, ?_⟩
  · rw [ComponentPatch.changedOf]
    split
    · cases sections.get? kind <;> simp
    · exact .nil
  · have hkinds : SectionKind.all.Pairwise (· ≠ ·) := by decide
    refine hkinds.imp fun {k k'} hne => ?_
    rintro ⟨_, b⟩ hb ⟨_, b'⟩ hb'
    rw [(mem_changedOf.1 hb).1, (mem_changedOf.1 hb').1]
    exact hne

theorem flatMap_changed {α : Type} (f : SectionKind → List α) :
    (p.changed sections).flatMap (fun b => f b.1) =
      ((p.changedOf sections .template).flatMap fun _ => f .template) ++
        (((p.changedOf sections .script).flatMap fun _ => f .script) ++
          (p.changedOf sections .style).flatMap fun _ => f .style) := by
  have hkind (kind : SectionKind) : (p.changedOf sections kind).flatMap (fun b => f b.1) =
      (p.changedOf sections kind).flatMap fun _ => f kind :=
    List.flatMap_congr fun b hb => by rw [(mem_changedOf.1 hb).1]
  simp only [ComponentPatch.changed, SectionKind.all, List.flatMap_cons, List.flatMap_nil,
    List.append_nil, List.flatMap_append, hkind]

/-- Splices make the text `t` of the content of a section, if the patch changes it. -/
def IsPart (source : Text) (sections : Sections) (p : ComponentPatch) (options : FormatOptions)
    (kind : SectionKind) (t : Text) (es : List Splice) : Prop :=
  ∀ b ∈ p.changedOf sections kind, Makes source p options b.2 t kind ∧
    Rewrites b.2.content.start (source.at b.2.content) es t

theorem isPart_of_eq_nil {kind : SectionKind} {t : Text} {es : List Splice}
    (h : p.changedOf sections kind = []) : IsPart source sections p options kind t es := by
  rw [IsPart, h]
  exact nofun

/-- The content of a section is replaced as a whole. -/
theorem rewrites_content (hsections : Sections.split source = .ok sections) {kind : SectionKind}
    {block : Section} (hblock : sections.get? kind = some block) (t : Text) :
    Rewrites block.content.start (source.at block.content) [⟨block.content, t⟩] t := by
  obtain ⟨s, hs⟩ := (Sections.isRange_content hsections hblock).exists_holds
  rw [hs.at_eq]
  exact .of_holds hs t

/-- The splices in the template or in front of the component. -/
theorem exists_part_template (hsections : Sections.split source = .ok sections) {fs : List Splice}
    (h : templateSplices source sections.template p.template options = .ok fs) :
    ∃ front atFront t es, IsFront sections p options front ∧ Rewrites 0 [] atFront front ∧
      IsPart source sections p options .template t es ∧
      fs = atFront ++ (p.changedOf sections .template).flatMap fun _ => es := by
  unfold templateSplices at h
  split at h
  next hedits =>
    cases h
    have hp : p.concerns .template = false := by simp [ComponentPatch.concerns, hedits]
    have hnil : p.changedOf sections .template = [] := changedOf_eq_nil (.inl hp)
    refine ⟨[], [], [], [], ?_, .nil, isPart_of_eq_nil hnil, by simp [hnil]⟩
    rw [IsFront, if_neg (by simp [hp])]
  next hedits =>
    have hp : p.concerns .template = true := by simpa [ComponentPatch.concerns] using hedits
    split at h
    next block hblock =>
      have hget : sections.get? .template = some block := hblock
      have hone := changedOf_of_get? hp hget
      have hrange := Sections.isRange_content hsections hget
      split at h
      · cases h
      next d hd =>
        split at h
        · cases h
        next es hes =>
          have hread := Document.IsReadFrom.part hrange.le hrange.start hrange.stop hd
          have hin := confined_textSplices hread.isSound hes
          obtain ⟨s, hs⟩ := hrange.exists_holds
          obtain ⟨t, ht⟩ := hin.exists_rewrites hs
          rw [confine_eq_ok fun e he => (hin.isRange e he).within] at h
          rw [← hs.at_eq] at ht
          refine ⟨[], [], t, es, ?_, .nil, ?_, ?_⟩
          · rw [IsFront, if_neg (by simp [hblock])]
          · rw [IsPart, hone]
            exact List.forall_mem_singleton.2 ⟨⟨d, es, hd, hes, ht⟩, ht⟩
          · cases h
            simp [hone]
    next hnone =>
      have hnil : p.changedOf sections .template = [] := changedOf_eq_nil (.inr hnone)
      split at h
      · cases h
      next n hn =>
        cases h
        refine ⟨Dialect.vue.printFile options n, [⟨⟨0, 0⟩, Dialect.vue.printFile options n⟩], [], [],
          ?_, .single 0 [] _, isPart_of_eq_nil hnil, by simp [hnil]⟩
        rw [IsFront, if_pos ⟨hp, hnone⟩]
        exact ⟨n, hn, rfl⟩

/-- The splices in the script. -/
theorem exists_part_script (hsections : Sections.split source = .ok sections) {fs : List Splice}
    (h : scriptSplices source sections.script p.script options = .ok fs) :
    ∃ t es, IsPart source sections p options .script t es ∧
      fs = (p.changedOf sections .script).flatMap fun _ => es := by
  unfold scriptSplices at h
  split at h
  next hedits =>
    cases h
    have hp : p.concerns .script = false := by simp [ComponentPatch.concerns, hedits]
    have hnil : p.changedOf sections .script = [] := changedOf_eq_nil (.inl hp)
    exact ⟨[], [], isPart_of_eq_nil hnil, by simp [hnil]⟩
  next hedits =>
    have hp : p.concerns .script = true := by simpa [ComponentPatch.concerns] using hedits
    split at h
    · cases h
    next block hblock =>
      have hget : sections.get? .script = some block := hblock
      have hone := changedOf_of_get? hp hget
      obtain ⟨t, ht, rfl⟩ := exists_of_map_eq_ok h
      refine ⟨t, [⟨block.content, t⟩], ?_, by simp [hone]⟩
      rw [IsPart, hone]
      exact List.forall_mem_singleton.2
        ⟨ht, rewrites_content hsections hget t⟩

/-- The splice in the style section or behind the component. -/
theorem exists_part_style (p : ComponentPatch) (options : FormatOptions)
    (hsections : Sections.split source = .ok sections) :
    ∃ atBack t es, Rewrites (width source) [] atBack (back source sections p) ∧
      IsPart source sections p options .style t es ∧
      (p.style.map (styleSplice source sections.style)).toList =
        ((p.changedOf sections .style).flatMap fun _ => es) ++ atBack := by
  cases hstyle : p.style with
  | none =>
    have hp : p.concerns .style = false := by simp [ComponentPatch.concerns, hstyle]
    have hnil : p.changedOf sections .style = [] := changedOf_eq_nil (.inl hp)
    refine ⟨[], [], [], ?_, isPart_of_eq_nil hnil, by simp [hnil]⟩
    simpa only [back, hstyle] using .nil
  | some t =>
    have hp : p.concerns .style = true := by simp [ComponentPatch.concerns, hstyle]
    cases hblock : sections.style with
    | none =>
      have hnil : p.changedOf sections .style = [] := changedOf_eq_nil (.inr hblock)
      refine ⟨[⟨⟨width source, width source⟩, back source sections p⟩], [], [],
        .single _ [] _, isPart_of_eq_nil hnil, ?_⟩
      simp [hnil, styleSplice, back, hstyle, hblock]
    | some block =>
      have hget : sections.get? .style = some block := hblock
      have hone := changedOf_of_get? hp hget
      refine ⟨[], t, [⟨block.content, t⟩], ?_, ?_, by simp [hone, styleSplice]⟩
      · simpa only [back, hstyle, hblock] using .nil
      · rw [IsPart, hone]
        exact List.forall_mem_singleton.2
          ⟨hstyle, rewrites_content hsections hget t⟩

/-- The splices of a script can be applied. -/
theorem scriptSplices_ne_invalidSplice (source : Text) (block : Option Section) (edits : List Edit)
    (options : FormatOptions) (e : SpliceError) :
    scriptSplices source block edits options ≠ .error (.invalidSplice e) := by
  intro h
  unfold scriptSplices at h
  split at h
  · cases h
  split at h
  · cases h
  next block =>
    cases hscript : patchScript (source.at block.content) edits options with
    | ok t =>
      rw [hscript] at h
      cases h
    | error f =>
      rw [hscript] at h
      cases h
      exact patchScript_ne_invalidSplice _ _ _ e hscript

/-- No part of a patch has splices that cannot be applied. -/
theorem componentSplices_ne_invalidSplice (hsections : Sections.split source = .ok sections)
    (e : SpliceError) : componentSplices source sections p options ≠ .error (.invalidSplice e) := by
  intro h
  unfold componentSplices at h
  split at h
  next f hf =>
    cases h
    exact templateSplices_ne_invalidSplice hsections e hf
  split at h
  next f hf =>
    cases h
    exact scriptSplices_ne_invalidSplice _ _ _ _ e hf
  next => cases h

/-- A patched component: `front` stands in front of `body`, which is the source with the new
content `text kind` in each changed section. -/
structure IsFrame (source : Text) (sections : Sections) (p : ComponentPatch)
    (options : FormatOptions) (front body : Text) (text : SectionKind → Text) (es : List Splice) :
    Prop where
  front : IsFront sections p options front
  body : Rewrites 0 source es body
  apart : es.Pairwise fun a b => a.span.stop < b.span.start
  contents : es.Perm ((p.changed sections).map fun b => ⟨b.2.content, text b.1⟩)
  makes : ∀ b ∈ p.changed sections, Makes source p options b.2 (text b.1) b.1

/-- The splices of a patch make new contents of its sections and texts around the component. -/
theorem exists_applyAll_componentSplices (hsections : Sections.split source = .ok sections)
    {fs : List Splice} (h : componentSplices source sections p options = .ok fs) :
    ∃ front body text es,
      Splice.applyAll fs source = .ok (front ++ body ++ back source sections p) ∧
      IsFrame source sections p options front body text es := by
  unfold componentSplices at h
  split at h
  · cases h
  next inTemplate htemplate =>
    split at h
    · cases h
    next inScript hscript =>
      cases h
      obtain ⟨front, atFront, t1, es1, hfront, hatFront, hpart1, rfl⟩ :=
        exists_part_template hsections htemplate
      obtain ⟨t2, es2, hpart2, rfl⟩ := exists_part_script hsections hscript
      obtain ⟨atBack, t3, es3, hatBack, hpart3, hstyle⟩ :=
        exists_part_style p options hsections
      let text : SectionKind → Text
        | .template => t1
        | .script => t2
        | .style => t3
      let fine : SectionKind → List Splice
        | .template => es1
        | .script => es2
        | .style => es3
      have hpart (b) (hb : b ∈ p.changed sections) : Makes source p options b.2 (text b.1) b.1 ∧
          Rewrites b.2.content.start (source.at b.2.content) (fine b.1) (text b.1) := by
        obtain ⟨kind, block⟩ := b
        have hb := mem_changedOf.2 ⟨rfl, mem_changed.1 hb⟩
        cases kind with
        | template => exact hpart1 _ hb
        | script => exact hpart2 _ hb
        | style => exact hpart3 _ hb
      obtain ⟨es, body, hperm, hlt, hbody, happly⟩ := Splice.exists_applyAll_flatMap
        (p.changed sections) (fun b => ⟨b.2.content, text b.1⟩) (fun b => fine b.1)
        (fun b hb => Sections.isRange_content hsections (mem_changed.1 hb).2)
        ((pairwise_changed p sections).imp_of_mem fun ha hb hne =>
          Sections.isApart_content hsections hne (mem_changed.1 ha).2 (mem_changed.1 hb).2)
        (fun b hb => (hpart b hb).2) hatFront hatBack
      refine ⟨front, body, text, es, ?_, hfront, hbody, hlt, hperm, fun b hb => (hpart b hb).1⟩
      rw [← happly, hstyle, flatMap_changed]
      simp only [List.append_assoc]
      rfl

end Component

open Component

/-- **Patches of components touch only their sections.** They never fail for splices that cannot be
applied. A patched component is the old one with new contents of the sections that the patch
changes, with a printed template in front if it had none, and with a style section behind if it had
none. -/
theorem patchComponent_frame {source : Text} {sections : Sections}
    (hsections : Sections.split source = .ok sections) (p : ComponentPatch)
    (options : FormatOptions) :
    (∀ e, patchComponent source p options ≠ .error (.invalidSplice e)) ∧
    ∀ t, patchComponent source p options = .ok t → ∃ front body text es,
      t = front ++ body ++ back source sections p ∧
      IsFrame source sections p options front body text es := by
  simp only [patchComponent, hsections]
  cases hsplices : componentSplices source sections p options with
  | error f =>
    refine ⟨fun e h => ?_, fun t ht => ?_⟩
    · cases h
      exact componentSplices_ne_invalidSplice hsections e hsplices
    · cases ht
  | ok fs =>
    obtain ⟨front, body, text, es, happly, hframe⟩ :=
      exists_applyAll_componentSplices hsections hsplices
    simp only [happly]
    refine ⟨fun e h => ?_, fun t ht => ⟨front, body, text, es, ?_, hframe⟩⟩
    · cases h
    · cases ht
      rfl

/-- A component whose script stands in front of its template: both are changed, and a style comes
behind. -/
theorem patchComponent_frame_script :
    let source := "<script>export default () => <b>é</b></script><template><p id=a>x</p></template>".toList
    let p : ComponentPatch :=
      ⟨[.updateAttributes [] ⟨.empty, .empty, [['i', 'd']]⟩ ⟨.empty, .empty, []⟩, .updateText [0] ['y']],
        [.updateText [0] ['z']], some ['c']⟩
    ∃ sections t front body text es, Sections.split source = .ok sections ∧
      patchComponent source p {} = .ok t ∧ t = front ++ body ++ "\n<style>\nc\n</style>\n".toList ∧
      IsFrame source sections p {} front body text es := by
  intro source p
  obtain ⟨sections, hsections⟩ := Option.isSome_iff_exists.1
    (show (Sections.split source).toOption.isSome = true by decide +kernel)
  have hparts : ((Sections.split source).toOption.bind fun sections =>
      (componentSplices source sections p {}).toOption.map fun es => (es.length, back source sections p)) =
      some (4, "\n<style>\nc\n</style>\n".toList) := by decide +kernel
  simp only [hsections, Option.bind_some, Option.map_eq_some_iff, Prod.mk.injEq] at hparts
  have hsections := eq_ok_of_toOption hsections
  obtain ⟨fs, hfs, -, hback⟩ := hparts
  obtain ⟨front, body, text, es, happly, -⟩ :=
    exists_applyAll_componentSplices hsections (eq_ok_of_toOption hfs)
  have ht : patchComponent source p {} = .ok (front ++ body ++ back source sections p) := by
    simp only [patchComponent, hsections, eq_ok_of_toOption hfs, happly]
    rfl
  obtain ⟨front, body, text, es, heq, hframe⟩ := (patchComponent_frame hsections p {}).2 _ ht
  exact ⟨sections, _, front, body, text, es, hsections, ht, hback ▸ heq, hframe⟩

end MarkupSync
