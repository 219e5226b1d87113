import MarkupSync.Outcome
import MarkupSync.Proofs.Document.Flow
import MarkupSync.Proofs.Section.Edited

/-!
# Sections with any content

The end of a template is found by counting what looks like a tag of a template, so that its content
is found again exactly if that is well nested.

* `Section.templateMarks`, `depthBehind`: what looks like a tag of a template, and the depth behind
  it;
* **`Section.templateContent?_append_iff`**: content is found again exactly if its marks are well
  nested;
* `Component`, `Component.IsFound`: a template, a script and a style, and the same blocks found in a
  file;
* `Reader.depth_of_steps`: the tags of templates in markup that is read are well nested;
* **`Component.isFound_iff`**: the blocks of a file are found exactly if the marks of the template
  are well nested, as they are if they are the tags that are read;
* `Component.not_isFound`: an element whose name starts with that of templates ends the template.
-/

namespace MarkupSync

open Text

/-- The depth behind open tags (`true`) and close tags; none if one closes what was not opened. -/
def depthBehind : Nat → List Bool → Option Nat
  | depth, [] => some depth
  | depth, true :: marks => depthBehind (depth + 1) marks
  | 0, false :: _ => none
  | depth + 1, false :: marks => depthBehind depth marks

namespace Section

/-! ## Marks of templates -/

/-- What looks like a tag of a template: open tags (`true`) and close tags. -/
def templateMarks : Text → List Bool
  | [] => []
  | c :: s =>
    if closes .template (c :: s) then false :: templateMarks s
    else if opens .template (c :: s) then true :: templateMarks s
    else templateMarks s

theorem extend_eq_some_iff {c : Char} {found : Option (Text × Text)} {m t : Text} :
    extend [c] found = some (c :: m, t) ↔ found = some (m, t) := by
  rw [extend_eq_some]
  constructor
  · rintro ⟨m', h, hm⟩
    obtain rfl := (List.cons.inj hm).2
    exact h
  · exact fun h => ⟨m, h, rfl⟩

theorem templateContent?_of_closes {c : Char} {s : Text} (h : closes .template (c :: s) = true)
    (depth : Nat) : templateContent? depth (c :: s) =
      match depth with
      | 0 => some ([], c :: s)
      | depth + 1 => extend [c] (templateContent? depth s) := by
  cases depth <;> simp [templateContent?, h]

theorem templateContent?_of_not_closes {c : Char} {s : Text}
    (h : closes .template (c :: s) = false) (depth : Nat) : templateContent? depth (c :: s) =
      extend [c] (templateContent? (if opens .template (c :: s) then depth + 1 else depth) s) := by
  cases depth <;> by_cases ho : opens .template (c :: s) = true <;> simp [templateContent?, h, ho]

/-- **Content is found again, up to the close tag behind it, exactly if its marks are well
nested.** -/
theorem templateContent?_append_iff {t : Text} (ht : closes .template t = true) (depth : Nat)
    (m : Text) : templateContent? depth (m ++ t) = some (m, t) ↔
      depthBehind depth (templateMarks m) = some 0 := by
  obtain ⟨u, rfl⟩ := angle_of_closes ht
  induction m generalizing depth with
  | nil =>
    rw [List.nil_append, templateContent?_of_closes ht]
    cases depth with
    | zero => exact iff_of_true rfl rfl
    | succ depth =>
      refine iff_of_false (fun h => ?_) nofun
      obtain ⟨p, -, hp⟩ := extend_eq_some.1 h
      cases hp
  | cons c m ih =>
    have hcloses := closes_append_angle .template c m u
    have hopens := opens_append_angle .template c m u
    rw [List.cons_append] at hcloses hopens ⊢
    rw [templateMarks]
    cases hc : closes .template (c :: m) with
    | true =>
      rw [templateContent?_of_closes (hcloses.trans hc), if_pos rfl]
      cases depth with
      | zero => exact iff_of_false nofun nofun
      | succ depth => exact extend_eq_some_iff.trans (ih depth)
    | false =>
      rw [templateContent?_of_not_closes (hcloses.trans hc), if_neg Bool.false_ne_true, hopens]
      split
      · exact extend_eq_some_iff.trans (ih (depth + 1))
      · exact extend_eq_some_iff.trans (ih depth)

/-- Content of other blocks is found again if it has no close tag. -/
theorem flatContent?_append {kind : SectionKind} {s t : Text} (ht : closes kind t = true)
    (hs : containsWord ('<' :: '/' :: kind.tag) (lower s) = false) :
    flatContent? kind (s ++ t) = some (s, t) := by
  obtain ⟨u, rfl⟩ := angle_of_closes ht
  induction s with
  | nil => rw [List.nil_append, flatContent?, if_pos ht]
  | cons c s ih =>
    have hstart : closes kind (c :: s) = false ∧
        containsWord ('<' :: '/' :: kind.tag) (lower s) = false := by
      rw [containsWord, lower, List.map_cons, cut?] at hs
      rw [closes, startsWith, lower, List.map_cons]
      split at hs
      next => cases hs
      next hnone =>
        refine ⟨by rw [hnone]; rfl, ?_⟩
        rw [containsWord, ← hs, lower]
        cases cut? ('<' :: '/' :: kind.tag) (s.map Char.toLower) <;> rfl
    have hcloses := closes_append_angle kind c s u
    rw [hstart.1] at hcloses
    rw [List.cons_append] at hcloses ⊢
    rw [flatContent?, hcloses, if_neg Bool.false_ne_true, ih hstart.2]
    rfl

end Section

namespace Sections

variable {found : Sections} {n : Nat}

/-- Blocks start behind characters that start none. -/
theorem splitAt_append_of_not_mem {b : Text} (hb : '<' ∉ b) (s : Text) :
    splitAt n found (b ++ s) = splitAt (n + width b) found s := by
  induction b generalizing n with
  | nil => simp
  | cons c b ih =>
    simp only [List.mem_cons, not_or] at hb
    have hcons : splitAt n found (c :: (b ++ s)) = splitAt (n + c.utf8Size) found (b ++ s) := by
      have hnext := Section.nextOpen?_cons (Ne.symm hb.1) (b ++ s)
      cases hs : Section.nextOpen? (b ++ s) with
      | none =>
        rw [hs] at hnext
        rw [splitAt_of_nextOpen? hnext, splitAt_of_nextOpen? hs]
      | some next =>
        obtain ⟨kind, p, r⟩ := next
        rw [hs] at hnext
        rw [splitAt_of_nextOpen?_eq_some hnext, splitAt_of_nextOpen?_eq_some hs, width_cons,
          ← Nat.add_assoc]
    rw [List.cons_append, hcons, ih hb.2, width_cons, Nat.add_assoc]

theorem get?_add_self {kind : SectionKind} (h : found.get? kind = none) (b : Section) :
    (found.add kind b).get? kind = some b := by
  cases kind <;> simp_all [add, get?]

theorem get?_add_of_ne {kind k : SectionKind} (h : k ≠ kind) (b : Section) :
    (found.add kind b).get? k = found.get? k := by
  cases kind <;> cases k <;> first | exact absurd rfl h | rfl

/-- The first block of a kind counts. -/
theorem get?_add_of_some {kind k : SectionKind} {block : Section} (h : found.get? k = some block)
    (b : Section) : (found.add kind b).get? k = some block := by
  cases kind <;> cases k <;> simp_all [add, get?]

/-- A block is found behind others. -/
theorem splitAt_block {kind : SectionKind} {content s : Text}
    (h : Section.content? kind (content ++ (kind.ending ++ s)) = some (content, kind.ending ++ s))
    {b : Text} (hb : '<' ∉ b) {t : Text} (hs : s = b ++ t) :
    splitAt n found (kind.opening ++ (content ++ (kind.ending ++ s))) =
      splitAt ((Section.blockAt kind n content kind.ending).outer.stop + width b)
        (found.add kind (Section.blockAt kind n content kind.ending)) t := by
  rw [splitAt_of_readAt (Section.nextOpen?_of_opens (Section.opens_opening kind _))
    (Section.readAt_block h (n + width ([] : Text))), hs, splitAt_append_of_not_mem hb]
  rfl

end Sections

/-! ## Files of three blocks -/

/-- Whether a character breaks a line. -/
def isLineBreak (c : Char) : Bool := c == '\n' || c == '\r'

/-- What a component is made of: its markup, a script and a style without their close tags, and the
line breaks behind each block. -/
structure Component where
  markup : Text
  script : Text
  style : Text
  breaks : SectionKind → Text
  script_open : containsWord ('<' :: '/' :: SectionKind.script.tag) (lower script) = false
  style_open : containsWord ('<' :: '/' :: SectionKind.style.tag) (lower style) = false
  breaks_lines : ∀ kind, (breaks kind).all isLineBreak = true

namespace Component

/-- The content of a block. -/
def content (c : Component) : SectionKind → Text
  | .template => c.markup
  | .script => c.script
  | .style => c.style

/-- The file with these blocks one after another. -/
def source (c : Component) : List SectionKind → Text
  | [] => []
  | kind :: kinds =>
    kind.opening ++ (c.content kind ++ (kind.ending ++ (c.breaks kind ++ source c kinds)))

/-- The blocks of a file are found, each with its content. -/
def IsFound (c : Component) (kinds : List SectionKind) : Prop :=
  ∃ sections, Sections.split (c.source kinds) = .ok sections ∧
    ∀ kind, ∃ b, sections.get? kind = some b ∧ (c.source kinds).at b.content = c.content kind

section Blocks

variable (c : Component)

theorem angle_not_mem_breaks (kind : SectionKind) : '<' ∉ c.breaks kind := fun h =>
  absurd (List.all_eq_true.1 (c.breaks_lines kind) _ h) (by decide)

theorem content?_of_ne {kind : SectionKind} (h : kind ≠ .template) (s : Text) :
    Section.content? kind (c.content kind ++ (kind.ending ++ s)) =
      some (c.content kind, kind.ending ++ s) := by
  have hcloses := Section.closes_ending kind s
  cases kind with
  | template => exact absurd rfl h
  | script => exact Section.flatContent?_append hcloses c.script_open
  | style => exact Section.flatContent?_append hcloses c.style_open

theorem content?_template_iff (s : Text) :
    Section.content? .template (c.markup ++ (SectionKind.template.ending ++ s)) =
        some (c.markup, SectionKind.template.ending ++ s) ↔
      depthBehind 0 (Section.templateMarks c.markup) = some 0 :=
  Section.templateContent?_append_iff (Section.closes_ending .template s) 0 c.markup

end Blocks

section Runs

variable {c : Component} {file : Text} {found : Sections} {n stop : Nat} {kinds : List SectionKind}

/-- A block stands where it is found. -/
theorem holds_block {kind : SectionKind} (hs : file.Holds ⟨n, stop⟩ (c.source (kind :: kinds))) :
    file.Holds (Section.blockAt kind n (c.content kind) kind.ending).content (c.content kind) ∧
      file.Holds ⟨(Section.blockAt kind n (c.content kind) kind.ending).outer.stop +
        width (c.breaks kind), stop⟩ (c.source kinds) :=
  ⟨hs.right.left, hs.right.right.right.right⟩

/-- Blocks with content that is found again are found, one behind another. -/
theorem exists_splitAt (hmarks : depthBehind 0 (Section.templateMarks c.markup) = some 0)
    (hkinds : kinds.Nodup) (hfound : ∀ kind ∈ kinds, found.get? kind = none)
    (hs : file.Holds ⟨n, stop⟩ (c.source kinds)) :
    ∃ sections, Sections.splitAt n found (c.source kinds) = .ok sections ∧
      (∀ kind ∈ kinds, ∃ b, sections.get? kind = some b ∧ file.at b.content = c.content kind) ∧
      ∀ kind b, found.get? kind = some b → sections.get? kind = some b := by
  induction kinds generalizing n found with
  | nil => exact ⟨found, Sections.splitAt_nil, nofun, fun _ _ h => h⟩
  | cons kind kinds ih =>
    obtain ⟨hmem, hkinds⟩ := List.nodup_cons.1 hkinds
    obtain ⟨hnone, hfound⟩ := List.forall_mem_cons.1 hfound
    obtain ⟨hblock, hrest⟩ := holds_block hs
    have hcontent (s : Text) : Section.content? kind (c.content kind ++ (kind.ending ++ s)) =
        some (c.content kind, kind.ending ++ s) := by
      by_cases hkind : kind = .template
      · subst hkind
        exact (c.content?_template_iff s).2 hmarks
      · exact c.content?_of_ne hkind s
    have hadded : ∀ k ∈ kinds, (found.add kind
        (Section.blockAt kind n (c.content kind) kind.ending)).get? k = none := fun k hk =>
      (Sections.get?_add_of_ne (ne_of_mem_of_not_mem hk hmem) _).trans (hfound k hk)
    obtain ⟨sections, hsplit, hall, hkeep⟩ := ih hkinds hadded hrest
    refine ⟨sections, ?_, List.forall_mem_cons.2 ⟨?_, hall⟩, fun k b hb => ?_⟩
    · rw [source, Sections.splitAt_block (hcontent _) (c.angle_not_mem_breaks kind) rfl, hsplit]
    · exact ⟨_, hkeep kind _ (Sections.get?_add_self hnone _), hblock.at_eq⟩
    · exact hkeep k b (Sections.get?_add_of_some hb _)

/-- The marks of a template whose content is found are well nested. -/
theorem depthBehind_of_splitAt (hkinds : .template ∈ kinds) (hfound : found.template = none)
    (hs : file.Holds ⟨n, stop⟩ (c.source kinds)) {sections : Sections}
    (hsplit : Sections.splitAt n found (c.source kinds) = .ok sections) {b : Section}
    (hb : sections.template = some b) (hcontent : file.at b.content = c.markup) :
    depthBehind 0 (Section.templateMarks c.markup) = some 0 := by
  induction kinds generalizing n found with
  | nil => cases hkinds
  | cons kind kinds ih =>
    by_cases hkind : kind = .template
    · subst hkind
      rw [source, Sections.splitAt_of_nextOpen?_eq_some
        (Section.nextOpen?_of_opens (Section.opens_opening .template _)), Section.readAt_opening]
        at hsplit
      split at hsplit
      next => cases hsplit
      next p r hp =>
        -- what is found is the text up to some close tag
        have hnone : found.get? .template = none := hfound
        have hb' := Sections.template_splitAt hsplit (Sections.get?_add_self hnone _)
        obtain rfl := Option.some.inj (hb.symm.trans hb')
        have heq := Section.eq_of_content? hp
        have hrest := hs.right
        rw [heq] at hrest
        have hat : p = c.markup := hrest.left.at_eq.symm.trans hcontent
        subst hat
        obtain rfl := List.append_cancel_left heq
        exact (c.content?_template_iff _).1 hp
    · obtain ⟨-, hrest⟩ := holds_block hs
      rw [source, Sections.splitAt_block (c.content?_of_ne hkind _) (c.angle_not_mem_breaks kind)
        rfl]
        at hsplit
      refine ih ((List.mem_cons.1 hkinds).resolve_left (Ne.symm hkind)) ?_ hrest hsplit
      rw [Sections.template_add_of_ne hkind, hfound]

end Runs

end Component

/-! ## Tags of templates -/

/-- Whether a name is that of templates. -/
def isTemplateName (name : Text) : Bool := lower name == SectionKind.template.tag

/-- Whether a lexeme is the open tag (`true`) or the close tag of a template. A tag that closes
itself opens nothing. -/
def Lexeme.templateTag? : Lexeme → Option Bool
  | .openTag tag => if isTemplateName tag.name && !tag.selfClosing then some true else none
  | .closeTag name _ => if isTemplateName name then some false else none
  | _ => none

/-- The tags of templates in markup. -/
def templateTags (ls : List Lexeme) : List Bool := ls.filterMap Lexeme.templateTag?

theorem depthBehind_cons (depth : Nat) (mark : Bool) (marks : List Bool) :
    depthBehind depth (mark :: marks) =
      (depthBehind depth [mark]).bind fun depth => depthBehind depth marks := by
  cases mark <;> cases depth <;> rfl

/-- Whether something that is open is a template. -/
def Opened.isTemplate : Opened → Bool
  | .element tag => isTemplateName tag.name
  | .fragment _ => false

namespace Reader

/-- The number of templates that are open. -/
def templateDepth (r : Reader) : Nat := r.stack.countP fun o => o.1.isTemplate

/-- The depth behind a lexeme is that of its tag. -/
theorem depth_of_stepTag {r r' : Reader} {l : Lexeme} (h : r.stepTag .html l = .ok r') :
    depthBehind r.templateDepth l.templateTag?.toList = some r'.templateDepth := by
  cases l with
  | text | expression =>
    cases h
    rfl
  | fragmentOpen span =>
    cases h
    simp [Lexeme.templateTag?, depthBehind, templateDepth, Opened.isTemplate]
  | fragmentClose span =>
    rw [stepTag] at h
    split at h
    next hstack =>
      cases h
      simp [Lexeme.templateTag?, depthBehind, templateDepth, hstack, Opened.isTemplate]
    next => cases h
  | openTag tag =>
    rw [stepTag] at h
    split at h
    next hclosed =>
      cases h
      -- no template is void
      have hnone : (isTemplateName tag.name && !tag.selfClosing) = false := by
        rw [Bool.or_eq_true] at hclosed
        obtain hself | hvoid := hclosed
        · rw [hself, Bool.not_true, Bool.and_false]
        · rw [Bool.and_eq_false_iff]
          refine .inl (beq_eq_false_iff_ne.2 fun hname => ?_)
          rw [isVoid, hname] at hvoid
          exact absurd hvoid (by decide)
      rw [Lexeme.templateTag?, hnone]
      rfl
    next hopen =>
      cases h
      rw [Bool.not_eq_true, Bool.or_eq_false_iff] at hopen
      cases hname : isTemplateName tag.name <;>
        simp [Lexeme.templateTag?, hname, hopen.1, depthBehind, templateDepth, Opened.isTemplate]
  | closeTag name span =>
    rw [stepTag] at h
    split at h
    next tag before stack hstack =>
      split at h
      next hcloses =>
        cases h
        have hsame : isTemplateName tag.name = isTemplateName name := by
          rw [isTemplateName, isTemplateName, beq_iff_eq.1 hcloses]
        cases hname : isTemplateName name <;>
          simp [Lexeme.templateTag?, hname, depthBehind, templateDepth, hstack, Opened.isTemplate,
            hsame]
      next => cases h
    next => cases h

theorem depth_of_step {r r' : Reader} {l : Lexeme} (h : r.step .html l = .ok r') :
    depthBehind r.templateDepth l.templateTag?.toList = some r'.templateDepth := by
  have hflush : (r.flush .html).templateDepth = r.templateDepth := by
    rw [templateDepth, stack_flush, templateDepth]
  cases l with
  | text => exact depth_of_stepTag h
  | _ => exact hflush ▸ depth_of_stepTag h

/-- **The depth behind lexemes is that of their tags.** -/
theorem depth_of_steps {r r' : Reader} {ls : List Lexeme} (h : r.steps .html ls = .ok r') :
    depthBehind r.templateDepth (templateTags ls) = some r'.templateDepth := by
  induction ls generalizing r with
  | nil =>
    cases h
    rfl
  | cons l ls ih =>
    rw [steps] at h
    split at h
    next => cases h
    next r₁ hstep =>
      have hl := depth_of_step hstep
      have hls := ih h
      rw [templateTags, List.filterMap_cons]
      split
      next hnone =>
        rw [hnone] at hl
        obtain hl := Option.some.inj hl
        rw [hl]
        exact hls
      next mark hmark =>
        rw [hmark] at hl
        rw [depthBehind_cons, ← Option.toList_some, hl]
        exact hls

end Reader

/-- **The tags of templates in markup that is read are well nested.** -/
theorem Document.depthBehind_of_read {s : Text} {d : Document} (h : Document.read .html s = .ok d) :
    depthBehind 0 (templateTags (scan .html 0 s).lexemes) = some 0 := by
  rw [Document.read, Document.readAt, Scan.nodes] at h
  split at h
  next => cases h
  next r hsteps =>
    have hdepth := Reader.depth_of_steps hsteps
    have hclosed : r.templateDepth = 0 := by
      split at h
      next => cases h
      next =>
        rw [Reader.finish] at h
        split at h
        next => cases h
        next hstack => rw [Reader.templateDepth, hstack]; rfl
    rw [hclosed] at hdepth
    exact hdepth

namespace Component

theorem isFound_iff_depthBehind (c : Component) {kinds : List SectionKind}
    (hkinds : kinds.Perm SectionKind.all) :
    c.IsFound kinds ↔ depthBehind 0 (Section.templateMarks c.markup) = some 0 := by
  have hmem (kind : SectionKind) : kind ∈ kinds := hkinds.mem_iff.2 (by cases kind <;> decide)
  have hself := Holds.self (c.source kinds)
  constructor
  · rintro ⟨sections, hsplit, hall⟩
    obtain ⟨b, hb, hcontent⟩ := hall .template
    exact depthBehind_of_splitAt (hmem .template) rfl hself hsplit hb hcontent
  · intro hmarks
    have hfound : ∀ kind ∈ kinds, (⟨none, none, none⟩ : Sections).get? kind = none :=
      fun kind _ => by cases kind <;> rfl
    obtain ⟨sections, hsplit, hall, -⟩ := exists_splitAt hmarks (hkinds.nodup_iff.2 (by decide))
      hfound hself
    exact ⟨sections, hsplit, fun kind => hall kind (hmem kind)⟩

/-- **The blocks of a file are found exactly if the marks of the template are well nested**, as they
are if the markup is read and its marks are the tags of templates in it. -/
theorem isFound_iff (c : Component) {kinds : List SectionKind}
    (hkinds : kinds.Perm SectionKind.all) :
    (c.IsFound kinds ↔ depthBehind 0 (Section.templateMarks c.markup) = some 0) ∧
      ∀ d, Document.read .html c.markup = .ok d →
        Section.templateMarks c.markup = templateTags (scan .html 0 c.markup).lexemes →
        c.IsFound kinds := by
  refine ⟨c.isFound_iff_depthBehind hkinds, fun d hd hmarks => ?_⟩
  rw [c.isFound_iff_depthBehind hkinds, hmarks]
  exact Document.depthBehind_of_read hd

/-- A template in a template, behind a script that has the open tag of one. -/
theorem isFound_iff_nested :
    let c : Component := ⟨"<TEMPLATE v-if='>'><b>yes</b></TEMPLATE >".toList,
      "const tag = '<template>' // </template>".toList, "p { color: red; }".toList,
      fun _ => ['\n', '\n'], by decide, by decide, fun _ => by decide⟩
    [SectionKind.script, .template, .style].Perm SectionKind.all ∧
      (∃ d, Document.read .html c.markup = .ok d) ∧
      Section.templateMarks c.markup = templateTags (scan .html 0 c.markup).lexemes ∧
      c.IsFound [.script, .template, .style] := by
  intro c
  have hkinds : [SectionKind.script, .template, .style].Perm SectionKind.all := by decide
  have hread : (Document.read .html c.markup).toOption.isSome = true := by decide +kernel
  have hmarks : Section.templateMarks c.markup =
      templateTags (scan .html 0 c.markup).lexemes := by decide +kernel
  obtain ⟨d, hd⟩ := Option.isSome_iff_exists.1 hread
  have hd := eq_ok_of_toOption hd
  exact ⟨hkinds, ⟨d, hd⟩, hmarks, (c.isFound_iff hkinds).2 d hd hmarks⟩

/-- The close tag of an element whose name starts with that of templates ends the template. -/
theorem not_isFound :
    ¬ ∀ (c : Component) (kinds : List SectionKind) (d : Document), kinds.Perm SectionKind.all →
      Document.read .html c.markup = .ok d → c.IsFound kinds := by
  intro h
  let c : Component := ⟨"<template-card></template-card>".toList, ['x'], ['y'],
    fun _ => ['\n'], by decide, by decide, fun _ => by decide⟩
  have hread : (Document.read .html c.markup).toOption.isSome = true := by decide +kernel
  obtain ⟨d, hd⟩ := Option.isSome_iff_exists.1 hread
  have hfound := h c SectionKind.all d (.refl _) (eq_ok_of_toOption hd)
  rw [c.isFound_iff_depthBehind (.refl _)] at hfound
  exact absurd hfound (by decide)

end Component

end MarkupSync
