import MarkupSync.Proofs.Diff.Delta
import MarkupSync.Proofs.Patch.Kept
import MarkupSync.Proofs.Patch.LooseTag
import MarkupSync.Proofs.Patch.Retag

/-!
# Edits of attributes in place

* `Patcher.exists_edit_ofSource`: an edit of attributes changes the open tag of the element;
* `TagSource.Opens`: the open tag of an element in a text;
* **`Document.exists_opens`**: every element with an open tag has one, and another tag of its name in
  its place changes this element only;
* **`patchText_updateAttributes`**: what becomes of the text, and when it has the new attributes and
  declarations;
* `not_patchText_updateAttributes`: that is not always so.
-/

namespace MarkupSync

open Text

/-! ## Splices -/

namespace Patcher

section Splices

variable {p : Patcher} {d : Document} {flavor : Flavor} {region : Span} {cs : List Shadow}
  {c c' : Shadow} {i : Nat}

/-- Another child in place of one with the same origin. -/
theorem keepsChildren_set (path : NodePath) (count : Nat) (hc : cs[i]? = some c)
    (ho : c'.origin = c.origin) : keepsChildren path count (cs.set i c') = keepsChildren path count cs := by
  obtain ⟨hi, rfl⟩ := List.getElem?_eq_some_iff.1 hc
  let originPath (s : Shadow) : Option NodePath := s.origin.map Origin.path
  have hpath : originPath c' = originPath cs[i] := congrArg (Option.map Origin.path) ho
  have hmap : (cs.set i c').map originPath = cs.map originPath := by
    rw [List.map_set, hpath, ← List.map_set, List.set_getElem_self]
  exact congrArg (· == _) hmap

/-- If one child has changed, the changes are those inside it. -/
theorem splicesAll_set {raw : Bool} {es : List Splice} (hcs : ∀ s ∈ cs, p.splices raw s = .ok [])
    (hi : i < cs.length) (h : p.splices raw c' = .ok es) : p.splicesAll raw (cs.set i c') = .ok es := by
  induction cs generalizing i with
  | nil => cases hi
  | cons s cs ih =>
    obtain ⟨hs, hcs⟩ := List.forall_mem_cons.1 hcs
    cases i with
    | zero =>
      rw [List.set_cons_zero, splicesAll, h, splicesAll_eq_nil hcs]
      exact congrArg Except.ok (List.append_nil es)
    | succ i =>
      rw [List.set_cons_succ, splicesAll, hs, ih hcs (Nat.lt_of_succ_lt_succ hi)]
      rfl

/-- A child of an element stands in its place. -/
theorem exists_of_child? {tag : Text} {as st : Attrs} {e : ElementPlace} {l : List (Node × Place)}
    {child : Document}
    (hc : (Document.mk (.element tag as st (l.map Prod.fst)) (.element e (l.map Prod.snd))).child? i =
      some child) : ∃ x, l[i]? = some x ∧ child = ⟨x.1, x.2⟩ := by
  rw [Document.child?] at hc
  split at hc
  next m q hm hq =>
    cases hc
    obtain ⟨x, hx, rfl⟩ := Option.map_eq_some_iff.1 (List.getElem?_map.symm.trans hm)
    obtain ⟨y, hy, rfl⟩ := Option.map_eq_some_iff.1 (List.getElem?_map.symm.trans hq)
    cases hx.symm.trans hy
    exact ⟨x, hx, rfl⟩
  next => cases hc

/-- There are no changes inside children that have not changed. -/
theorem splices_ofSources {l : List (Node × Place)} (hl : ∀ x ∈ l, Fits x) (raw : Bool)
    (path : NodePath) :
    ∀ s ∈ Shadow.ofSources path 0 (l.map Prod.snd) (l.map Prod.fst), p.splices raw s = .ok [] := by
  intro s hs
  obtain ⟨i, x, hx, rfl⟩ := Fits.exists_of_mem_ofSources hs
  exact splices_ofSource (hl x (List.mem_of_getElem? hx)) raw _

/-- **An edit of attributes changes the open tag of the element**, and nothing else. -/
theorem exists_edit_ofSource (h : d.IsSound flavor p.source region) {path : NodePath} {tag : Text}
    {as st : Attrs} {ns : List Node} {e : ElementPlace} {ps : List Place}
    (hat : d.at? path = some ⟨.element tag as st ns, .element e ps⟩) (hopen : e.openTag ≠ none)
    (a b : Delta) (base : NodePath) :
    ∃ t, (Shadow.ofSource base d.place d.root).edit (.updateAttributes path a b) = .ok t ∧
      t.origin = some ⟨base, d.root, d.place⟩ ∧
      ∀ raw, p.splices raw t = .ok (p.tagSplices ⟨as, st⟩ ⟨a.apply as, b.apply st⟩ e) := by
  induction path generalizing d base with
  | nil =>
    cases hat
    have hfits : Fits (.element tag as st ns, .element e ps) := Node.StandsAt.fits h
    cases hfits with
    | @element _ _ _ _ l hl =>
      have hall (raw : Bool) := splicesAll_eq_nil (splices_ofSources hl raw base (p := p))
      refine ⟨_, rfl, rfl, fun raw => ?_⟩
      exact (splices_of_keepsChildren (keepsChildren_ofSources base l) hall
        (fun hnone => absurd hnone hopen) (fun _ => rfl) raw).trans
        (congrArg Except.ok (List.append_nil _))
  | cons i path ih =>
    obtain ⟨c, hc, hcat⟩ := Option.bind_eq_some_iff.1 hat
    obtain ⟨t, ht, horigin, hsplices⟩ := ih (h.child? hc) hcat (base.child i)
    obtain ⟨n, q⟩ := d
    have hfits : Fits (n, q) := Node.StandsAt.fits h
    cases hfits with
    | text => cases hc
    | @element tag' as' st' e' l hl =>
      obtain ⟨x, hx, rfl⟩ := exists_of_child? hc
      have hchild := Fits.getElem?_ofSources base l i
      rw [hx] at hchild
      have hset : keepsChildren base (l.map Prod.snd).length
          ((Shadow.ofSources base 0 (l.map Prod.snd) (l.map Prod.fst)).set i t) = true := by
        rw [keepsChildren_set base _ hchild (horigin.trans (Fits.origin_ofSource ..).symm)]
        exact keepsChildren_ofSources base l
      have hall (raw : Bool) := splicesAll_set (splices_ofSources hl raw base)
        (List.getElem?_eq_some_iff.1 hchild).1 (hsplices raw)
      have hleaf (hinner : e'.inner = none) :
          p.tagSplices ⟨as, st⟩ ⟨a.apply as, b.apply st⟩ e = [] := by
        have hnil : l = [] := List.map_eq_nil_iff.1 (h.1.closed hinner).2
        rw [hnil] at hx
        cases hx
      refine ⟨_, Tree.updateAt_child hchild ht, rfl, fun raw => ?_⟩
      refine (splices_of_keepsChildren hset hall (fun _ => tagSplices_self _ _) hleaf raw).trans ?_
      rw [tagSplices_self]
      rfl

end Splices

end Patcher

/-! ## Open tags -/

/-- The tag `g` is the open tag of an element in the text `s`, between the texts `front` and
`tail`. -/
structure TagSource.Opens (g : TagSource) (front tail s tag : Text) (as st : Attrs)
    (e : ElementPlace) : Prop where
  source : s = front ++ (g.source ++ tail)
  isLoose : g.IsLoose
  name : g.name = tag
  head : g.head = ⟨as, st⟩
  span : e.openTag = some ⟨width front, width front + width g.source⟩
  places : e.attributes = AttrSource.heardPlaces (width front + 1 + width g.name) .empty g.attributes
  attrsEnd : e.attrsEnd =
    width front + 1 + width g.name + width (g.attributes.flatMap AttrSource.source)

theorem TagSource.IsLoose.head_body {g : TagSource} (hg : g.IsLoose) (rest : Text) :
    ∀ c ∈ (g.body ++ rest).head?, isNameChar c = false := by
  have hne : g.body ≠ [] := by
    rw [TagSource.body]
    cases g.selfClosing <;> simp [tagClose]
  intro c hc
  refine hg.apart.name c ?_
  rwa [head?_append_of_ne_nil hne rest [], List.append_nil] at hc

/-- An element has one open tag. -/
theorem TagSource.Opens.unique {g g₁ : TagSource} {front front₁ tail tail₁ s tag : Text} {as st : Attrs}
    {e : ElementPlace} (h : g.Opens front tail s tag as st e) (h₁ : g₁.Opens front₁ tail₁ s tag as st e) :
    front = front₁ ∧ tail = tail₁ ∧ g.selfClosing = g₁.selfClosing := by
  have hspan := Option.some.inj (h.span.symm.trans h₁.span)
  injection hspan with hstart hstop
  have hfront : front = front₁ := by
    rw [← before_width_append front (g.source ++ tail), ← h.source, h₁.source, hstart,
      before_width_append]
  subst hfront
  have hrest := List.append_cancel_left (h.source.symm.trans h₁.source)
  have hsource : g.source = g₁.source := by
    rw [← before_width_append g.source tail, hrest, Nat.add_left_cancel hstop, before_width_append]
  rw [hsource] at hrest
  have hbody : g.body = g₁.body := by
    rw [TagSource.source, TagSource.source, h.name, h₁.name] at hsource
    exact List.append_cancel_left hsource
  have hread := h.isLoose.tagBody 0 []
  rw [hbody, h.name, ← h₁.name, h₁.isLoose.tagBody 0 []] at hread
  exact ⟨rfl, List.append_cancel_left hrest, congrArg TagBody.selfClosing (Except.ok.inj hread).symm⟩

section Read

variable {s : Text} {d : Document} {path : NodePath} {tag : Text} {as st : Attrs} {cs : List Node}
  {e : ElementPlace} {ps : List Place}

/-- Every element with an open tag has one in the text, and another tag of its name in its place
changes this element only. -/
theorem Document.exists_opens_and_read (hd : read .html s = .ok d)
    (hat : d.at? path = some ⟨.element tag as st cs, .element e ps⟩) (hopen : e.openTag ≠ none) :
    ∃ g front tail, TagSource.Opens g front tail s tag as st e ∧
      ∀ g' : TagSource, g'.IsLoose → g'.name = tag → g'.selfClosing = g.selfClosing →
        ∃ d', read .html (front ++ (g'.source ++ tail)) = .ok d' ∧
          d'.root = Tree.modifyAt (fun _ => .element tag g'.head.attributes g'.head.style cs) path
            d.root := by
  obtain ⟨span, hspan⟩ := Option.ne_none_iff_exists'.1 hopen
  obtain ⟨t, ht, rfl, rfl, hcontent, hend⟩ := (isTagged_at? (isTagged_read hd) hat).1 span hspan
  obtain ⟨front, r, rest, stop, hs, hname, hhead, htag, hretag⟩ := exists_read_retag hd ht
  obtain ⟨g, tail, hg, hgname, rfl, hgt, hother⟩ := exists_tagSource_of_openTag hname hhead htag
  have hgspan : t.span = ⟨width front, width front + width g.source⟩ := by
    rw [hgt, OpenTag.span, g.openTag_closing_stop]
    rfl
  have hsource (g' : TagSource) (hname' : g'.name = t.name) :
      '<' :: t.name ++ (g'.body ++ tail) = g'.source ++ tail := by
    rw [TagSource.source, hname', List.append_assoc]
  rw [hgt, g.content_eq_head] at hcontent
  injection hcontent with hattributes hstyle hplaces
  have hend' : e.attrsEnd =
      width front + 1 + width g.name + width (g.attributes.flatMap AttrSource.source) := by
    rw [← hend, hgt, g.attrsEnd_openTag]
  refine ⟨g, front, tail, ⟨by rw [hs, hsource g hgname], hg, hgname, by rw [← hattributes, ← hstyle],
    hgspan ▸ hspan, hplaces.symm, hend'⟩, fun g' hg' hname' hself => ?_⟩
  obtain ⟨raw, stop', htag', hraw⟩ := hother g' hg' hname' hself
  have hself' : (g'.openTag (width front) raw).selfClosing = t.selfClosing := by
    rw [hgt]
    exact hself
  obtain ⟨d', hd', hroot⟩ := hretag _ _ _ (hg'.head_body tail) htag' hself' hraw
  rw [hsource g' hname'] at hd'
  refine ⟨d', hd', ?_⟩
  rw [hroot, g'.content_eq_head, (isSound_read hd).retag_eq hat hspan]

/-- **Every element with an open tag has one in the text.** -/
theorem Document.exists_opens (hd : read .html s = .ok d)
    (hat : d.at? path = some ⟨.element tag as st cs, .element e ps⟩) (hopen : e.openTag ≠ none) :
    ∃ g front tail, TagSource.Opens g front tail s tag as st e := by
  obtain ⟨g, front, tail, h, -⟩ := exists_opens_and_read hd hat hopen
  exact ⟨g, front, tail, h⟩

/-- **Another tag in place of the open tag of an element changes this element only.** -/
theorem TagSource.Opens.exists_read {g g' : TagSource} {front tail : Text}
    (h : g.Opens front tail s tag as st e) (hd : Document.read .html s = .ok d)
    (hat : d.at? path = some ⟨.element tag as st cs, .element e ps⟩) (hg' : g'.IsLoose)
    (hname : g'.name = g.name) (hself : g'.selfClosing = g.selfClosing) :
    ∃ d', Document.read .html (front ++ (g'.source ++ tail)) = .ok d' ∧
      d'.root = Tree.modifyAt (fun _ => .element tag g'.head.attributes g'.head.style cs) path
        d.root := by
  have hopen : e.openTag ≠ none := by
    rw [h.span]
    exact Option.some_ne_none _
  obtain ⟨g₁, front₁, tail₁, h₁, hread⟩ := Document.exists_opens_and_read hd hat hopen
  obtain ⟨rfl, rfl, hself₁⟩ := h.unique h₁
  exact hread g' hg' (hname.trans h.name) (hself.trans hself₁)

end Read

/-! ## Edits of attributes -/

/-- The order of the new attributes does not matter. -/
theorem TagSource.RepeatsStay.same {g : TagSource} {new made : Patcher.Head} (h : g.RepeatsStay new)
    (hattributes : made.attributes.Same new.attributes) (hstyle : made.style.Same new.style) :
    g.RepeatsStay made := by
  have hkeeps {name : Text} (hname : Patcher.Keeps g.head new name) :
      Patcher.Keeps g.head made name := by
    rw [Patcher.Keeps] at hname ⊢
    rwa [hstyle.isEmpty, Attrs.has, hattributes, ← Attrs.has]
  have (head : Patcher.Head) (as : List AttrSource) (h : Patcher.RepeatsStay g.head new head as) :
      Patcher.RepeatsStay g.head made head as := by
    induction as generalizing head with
    | nil => trivial
    | cons a as ih => exact ⟨fun ha => hkeeps (h.1 ha), ih _ h.2⟩
  exact this _ _ h

section Edit

variable {s : Text} {d : Document} {path : NodePath} {tag : Text} {as st : Attrs} {cs : List Node}
  {e : ElementPlace} {ps : List Place} {g : TagSource} {front tail : Text}

/-- An edit of attributes patches the open tag of the element. -/
theorem TagSource.Opens.patchText (h : g.Opens front tail s tag as st e)
    (hd : Document.read .html s = .ok d)
    (hat : d.at? path = some ⟨.element tag as st cs, .element e ps⟩) (a b : Delta)
    (ha : ∀ x ∈ (a.apply as).entries, IsAttribute x) (options : FormatOptions) :
    MarkupSync.patchText s d [.updateAttributes path a b] .html options =
      .ok (front ++ ((g.patched (options.printer .html) ⟨a.apply as, b.apply st⟩).source ++ tail)) := by
  let p : Patcher := ⟨s, .html, options⟩
  have hopen : e.openTag ≠ none := by
    rw [h.span]
    exact Option.some_ne_none _
  obtain ⟨root, hedit, horigin, hsplices⟩ :=
    Patcher.exists_edit_ofSource (p := p) (Document.isSound_read hd) hat hopen a b []
  have happly : (Shadow.ofDocument d).applyAll [.updateAttributes path a b] = .ok root := by
    rw [Shadow.applyAll, Shadow.apply, Shadow.ofDocument, hedit]
    rfl
  have hs : s = front ++ g.source ++ tail := by rw [h.source, List.append_assoc]
  have hrewrites := TagSource.rewrites_patched ⟨a.apply as, b.apply st⟩ (p := p) rfl h.isLoose ha hs
    h.places h.attrsEnd
  rw [h.head] at hrewrites
  have hall := (Rewrites.between (n := 0) front tail (by rwa [Nat.zero_add])).applyAll
  rw [← hs] at hall
  simp only [MarkupSync.patchText, textSplices, happly, Patcher.rootSplices, horigin]
  rw [hsplices]
  simp only [hall, List.append_assoc]
  rfl

end Edit

/-- **An edit of attributes changes the open tag of the element.** -/
theorem patchText_updateAttributes {s : Text} {d : Document} (hd : Document.read .html s = .ok d)
    {path : NodePath} {tag : Text} {as st : Attrs} {cs : List Node} {e : ElementPlace}
    {ps : List Place} (hat : d.at? path = some ⟨.element tag as st cs, .element e ps⟩)
    (hopen : e.openTag ≠ none) {new : Patcher.Head}
    (hnew : ∀ x ∈ new.attributes.entries, IsAttribute x)
    (hstyle : ∀ x ∈ new.style.entries, Style.IsDeclaration x) (options : FormatOptions) :
    let attributes := Delta.between as new.attributes
    let style := Delta.between st new.style
    (∃ g front tail, TagSource.Opens g front tail s tag as st e) ∧
    ∀ g front tail, TagSource.Opens g front tail s tag as st e →
      let patched := g.patched (options.printer .html) ⟨attributes.apply as, style.apply st⟩
      let t := front ++ (patched.source ++ tail)
      patchText s d [.updateAttributes path attributes style] .html options = .ok t ∧
      (patched.IsApart → ∃ d' bs rt, Document.read .html t = .ok d' ∧
        d'.root = Tree.modifyAt (fun _ => .element tag bs rt cs) path d.root ∧
        (g.RepeatsStay new → bs.Same new.attributes ∧ rt.Same new.style)) ∧
      (g.IsValid → patched.IsApart ∧ g.RepeatsStay new) := by
  intro attributes style
  have hattributes := Delta.same_apply_between as new.attributes
  have hdeclarations := Delta.same_apply_between st new.style
  have hnew' : ∀ x ∈ (attributes.apply as).entries, IsAttribute x :=
    fun x hx => hnew x (hattributes.entries.1 hx)
  have hstyle' : ∀ x ∈ (style.apply st).entries, Style.IsDeclaration x :=
    fun x hx => hstyle x (hdeclarations.entries.1 hx)
  have hprinter := options.writesHtml_printer
  refine ⟨Document.exists_opens hd hat hopen, fun g front tail hg => ?_⟩
  intro patched t
  refine ⟨hg.patchText hd hat attributes style hnew' options, fun hapart => ?_, fun hvalid =>
    ⟨hvalid.isApart_patched hprinter hnew', hvalid.repeatsStay new⟩⟩
  obtain ⟨hname, hself, -⟩ :=
    TagSource.patched_spec ⟨attributes.apply as, style.apply st⟩ hprinter hg.isLoose hnew'
  obtain ⟨d', hd', hroot⟩ :=
    hg.exists_read hd hat (hapart.isLoose_patched hprinter hg.isLoose hnew') hname hself
  refine ⟨d', _, _, hd', hroot, fun hstay => ?_⟩
  have hstay' : g.RepeatsStay ⟨attributes.apply as, style.apply st⟩ :=
    hstay.same hattributes hdeclarations
  obtain ⟨h1, h2⟩ := TagSource.head_patched hstay' hnew' hstyle'
  exact ⟨h1.trans hattributes, h2.trans hdeclarations⟩

/-- The parts of an element around one text, and where it stands. -/
def Document.leaf? : Document → Option ((Text × Attrs × Attrs × Text) × ElementPlace)
  | ⟨.element tag as st [.text x], .element e _⟩ => some ((tag, as, st, x), e)
  | _ => none

theorem Document.at?_of_leaf? {d : Document} {tag : Text} {as st : Attrs} {x : Text}
    {e : ElementPlace} (h : d.leaf? = some ((tag, as, st, x), e)) :
    ∃ ps, d.at? [] = some ⟨.element tag as st [.text x], .element e ps⟩ := by
  unfold leaf? at h
  split at h
  next ps =>
    simp only [Option.some.injEq, Prod.mk.injEq] at h
    obtain ⟨⟨rfl, rfl, rfl, rfl⟩, rfl⟩ := h
    exact ⟨ps, rfl⟩
  next => cases h

/-- A tag with little between its attributes and a name that is repeated. -/
theorem patchText_updateAttributes_paragraph :
    let s := "<p a=1/b='2'c a>x</p>".toList
    let new : Patcher.Head := ⟨⟨[(['a'], ['3']), (['c'], [])], by decide⟩, .empty⟩
    ∃ d as st e ps, Document.read .html s = .ok d ∧
      d.at? [] = some ⟨.element ['p'] as st [.text ['x']], .element e ps⟩ ∧ e.openTag ≠ none ∧
      (∀ x ∈ new.attributes.entries, IsAttribute x) ∧
      (∀ x ∈ new.style.entries, Style.IsDeclaration x) ∧
      let edits : List Edit :=
        [.updateAttributes [] (Delta.between as new.attributes) (Delta.between st new.style)]
      patchText s d edits .html {} = .ok "<p a=\"3\"/c a>x</p>".toList ∧
      ∃ d' bs rt, Document.read .html "<p a=\"3\"/c a>x</p>".toList = .ok d' ∧
        d'.root = .element ['p'] bs rt [.text ['x']] ∧ bs.Same new.attributes ∧ rt.Same new.style := by
  intro s new
  let as : Attrs := ⟨[(['a'], ['1']), (['b'], ['2']), (['c'], [])], by decide⟩
  let e : ElementPlace := ⟨⟨0, 21⟩, some ⟨0, 16⟩, 15, some ⟨16, 17⟩,
    [⟨['a'], ⟨3, 6⟩, some ⟨5, 6⟩⟩, ⟨['b'], ⟨7, 12⟩, some ⟨9, 12⟩⟩, ⟨['c'], ⟨12, 13⟩, none⟩]⟩
  have h : (Document.read .html s).toOption.bind Document.leaf? =
      some ((['p'], as, .empty, ['x']), e) := by decide +kernel
  obtain ⟨d, hd, hleaf⟩ := Option.bind_eq_some_iff.1 h
  have hd := eq_ok_of_toOption hd
  obtain ⟨ps, hat⟩ := Document.at?_of_leaf? hleaf
  have hopen : e.openTag ≠ none := Option.some_ne_none _
  have hnew : ∀ x ∈ new.attributes.entries, IsAttribute x := by decide
  have hstyle : ∀ x ∈ new.style.entries, Style.IsDeclaration x := List.forall_mem_nil _
  let g : TagSource := ⟨['p'],
    [⟨[' '], ['a'], some ⟨[], [], .bare, ['1']⟩⟩, ⟨['/'], ['b'], some ⟨[], [], .single, ['2']⟩⟩,
      ⟨[], ['c'], none⟩, ⟨[' '], ['a'], none⟩], [], false⟩
  have hg : g.Opens [] "x</p>".toList s ['p'] as .empty e :=
    ⟨by decide, ⟨by decide, by decide, by decide, by decide⟩, rfl,
      congrArg₂ Patcher.Head.mk (by decide) (by decide), by decide, by decide, by decide⟩
  obtain ⟨-, hall⟩ := patchText_updateAttributes hd hat hopen hnew hstyle {}
  obtain ⟨ht, hread, -⟩ := hall g [] "x</p>".toList hg
  obtain ⟨d', bs, rt, hd', hroot, hsame⟩ := hread (by decide +kernel)
  obtain ⟨hbs, hrt⟩ := hsame (by decide)
  have htext : [] ++ ((g.patched (({} : FormatOptions).printer .html)
      ⟨(Delta.between as new.attributes).apply as,
        (Delta.between .empty new.style).apply .empty⟩).source ++ "x</p>".toList) =
      "<p a=\"3\"/c a>x</p>".toList := by decide +kernel
  rw [htext] at ht hd'
  have hnode : d.root = .element ['p'] as .empty [.text ['x']] :=
    congrArg Document.root (Option.some.inj hat)
  rw [hnode] at hroot
  exact ⟨d, as, .empty, e, ps, hd, hat, hopen, hnew, hstyle, ht, d', bs, rt, hd', hroot, hbs, hrt⟩

/-- Decides whether the root, patched with an edit of attributes, comes to say something else. -/
def missesHead (s : Text) (new : Patcher.Head) : Bool :=
  match Document.read .html s with
  | .ok ⟨.element tag as st cs, .element e ps⟩ =>
    let edits : List Edit :=
      [.updateAttributes [] (Delta.between as new.attributes) (Delta.between st new.style)]
    e.openTag.isSome &&
      match patchText s ⟨.element tag as st cs, .element e ps⟩ edits .html {} with
      | .error _ => true
      | .ok t =>
        match Document.read .html t with
        | .ok ⟨.element _ bs rt _, _⟩ => !(bs.same new.attributes && rt.same new.style)
        | _ => true
  | _ => false

theorem exists_of_missesHead {s : Text} {new : Patcher.Head} (h : missesHead s new = true) :
    ∃ d tag as st cs e ps, Document.read .html s = .ok d ∧
      d.at? [] = some ⟨.element tag as st cs, .element e ps⟩ ∧ e.openTag ≠ none ∧
      ¬ ∃ t d' bs rt, patchText s d [.updateAttributes [] (Delta.between as new.attributes)
          (Delta.between st new.style)] .html {} = .ok t ∧ Document.read .html t = .ok d' ∧
        d'.root = .element tag bs rt cs ∧ bs.Same new.attributes ∧ rt.Same new.style := by
  rw [missesHead] at h
  split at h
  next tag as st cs e ps hd =>
    obtain ⟨hopen, h⟩ := Bool.and_eq_true_iff.1 h
    refine ⟨_, tag, as, st, cs, e, ps, hd, rfl, Option.isSome_iff_ne_none.1 hopen, ?_⟩
    rintro ⟨t, ⟨n, q⟩, bs, rt, ht, hd', rfl, hbs, hrt⟩
    rw [← Attrs.same_iff] at hbs hrt
    simp [ht, hd', hbs, hrt] at h
  next => cases h

/-- A tag is not read any more if the blanks in front of a removed attribute were the only ones in
front of the next; and a repeated name has an effect once the first attribute of it is removed. -/
theorem not_patchText_updateAttributes :
    (let s := "<p a=\"1\"b=\"2\"></p>".toList
      let new : Patcher.Head := ⟨⟨[(['b'], ['2'])], by decide⟩, .empty⟩
      (∀ x ∈ new.attributes.entries, IsAttribute x) ∧
      (∀ x ∈ new.style.entries, Style.IsDeclaration x) ∧
      ∃ d tag as st cs e ps, Document.read .html s = .ok d ∧
        d.at? [] = some ⟨.element tag as st cs, .element e ps⟩ ∧ e.openTag ≠ none ∧
        ¬ ∃ t d' bs rt, patchText s d [.updateAttributes [] (Delta.between as new.attributes)
            (Delta.between st new.style)] .html {} = .ok t ∧ Document.read .html t = .ok d' ∧
          d'.root = .element tag bs rt cs ∧ bs.Same new.attributes ∧ rt.Same new.style) ∧
    (let s := "<p a=\"1\" a=\"2\"></p>".toList
      let new : Patcher.Head := .empty
      (∀ x ∈ new.attributes.entries, IsAttribute x) ∧
      (∀ x ∈ new.style.entries, Style.IsDeclaration x) ∧
      ∃ d tag as st cs e ps, Document.read .html s = .ok d ∧
        d.at? [] = some ⟨.element tag as st cs, .element e ps⟩ ∧ e.openTag ≠ none ∧
        ¬ ∃ t d' bs rt, patchText s d [.updateAttributes [] (Delta.between as new.attributes)
            (Delta.between st new.style)] .html {} = .ok t ∧ Document.read .html t = .ok d' ∧
          d'.root = .element tag bs rt cs ∧ bs.Same new.attributes ∧ rt.Same new.style) :=
  ⟨⟨by decide, List.forall_mem_nil _, exists_of_missesHead (by decide +kernel)⟩,
    List.forall_mem_nil _, List.forall_mem_nil _, exists_of_missesHead (by decide +kernel)⟩

end MarkupSync
