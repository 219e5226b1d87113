import MarkupSync.Proofs.Document.JsxNormal
import MarkupSync.Proofs.Document.Normal
import MarkupSync.Proofs.Document.Sound
import MarkupSync.Proofs.Document.Yield
import MarkupSync.Proofs.Lexeme.Kind
import MarkupSync.Proofs.Style.Reread

/-!
# The documents that reading makes

* `OpenTag.classes_content`, `OpenTag.styles_content`, `OpenTag.style_content`: what the attributes
  of a tag say;
* `OpenTag.IsOf.entries`, `OpenTag.IsOf.declarations`: what they say in HTML;
* `Node.IsReadTag`: an element as it is read from HTML (`yields_isRead`);
* **`Document.isRead_read`**: the elements of a document that was read from HTML;
* `Flavor.key_word`: the names by which a document knows the attributes of JSX;
* `IsJsxWord`, `Node.IsJsxReadTag`: an attribute and an element as they are read from JSX
  (`yields_isJsxReadTag`);
* **`Document.everywhere_of_readRootAt`**: the elements of a document that was read from JSX.
-/

namespace MarkupSync

open Text

/-! ## What tags say -/

namespace OpenTag

variable {flavor : Flavor} (t : OpenTag)

/-- There are single spaces between the classes of a tag. -/
theorem classes_content : ∀ e ∈ (t.content flavor).attributes.entries, e.1 = className →
    isExpression e.2 = false → collapse e.2 = e.2 := by
  intro e he hclass hplain
  obtain ⟨a, -, -, -, hvalue⟩ := (t.records_content flavor).entries e he
  have hstyle : className ≠ styleName := by decide
  rw [hclass] at hvalue
  revert hvalue
  fun_cases AttrMeaning.of className a.value with
  | case1 =>
    intro hvalue
    rw [← AttrMeaning.value.inj hvalue]
    rfl
  | case3 raw _ _ =>
    intro hvalue
    rw [← AttrMeaning.value.inj hvalue, isExpression_braces] at hplain
    cases hplain
  | case5 raw =>
    intro hvalue
    rw [← AttrMeaning.value.inj hvalue, collapse_collapse]
  | _ => simp_all

/-- A `style` attribute of a tag has no value, or an expression as its value. -/
theorem styles_content : ∀ e ∈ (t.content flavor).attributes.entries, e.1 = styleName →
    e.2 = [] ∨ isExpression e.2 = true := by
  intro e he hstyle
  obtain ⟨a, -, -, -, hvalue⟩ := (t.records_content flavor).entries e he
  rw [hstyle] at hvalue
  revert hvalue
  fun_cases AttrMeaning.of styleName a.value with
  | case1 =>
    intro hvalue
    exact .inl (AttrMeaning.value.inj hvalue).symm
  | case3 raw _ _ =>
    intro hvalue
    rw [← AttrMeaning.value.inj hvalue]
    exact .inr (isExpression_braces _)
  | _ => simp_all

/-- The style of a tag is either an attribute or declarations. -/
theorem style_content (h : (t.content flavor).attributes.has styleName = true) :
    (t.content flavor).style.isEmpty = true := by
  revert h
  refine List.foldlRecOn t.attributes (TagContent.add flavor)
    (motive := fun c => c.attributes.has styleName = true → c.style.isEmpty = true) ?_ ?_
  · exact fun _ => rfl
  intro c hc a _
  simp only [TagContent.add]
  split
  · exact hc
  next hnew =>
    obtain ⟨hhas, hstyle⟩ := Bool.or_eq_false_iff.1 (Bool.eq_false_iff.2 hnew)
    split
    next value _ =>
      intro h
      by_cases hkey : flavor.key a.name = styleName
      · simpa [hkey] using hstyle
      · refine hc ?_
        rwa [Attrs.has, Attrs.find?_insert, if_neg (Ne.symm hkey)] at h
    next style hmeaning =>
      intro h
      rw [AttrMeaning.eq_styleName hmeaning, show c.attributes.has styleName = true from h] at hhas
      cases hhas

end OpenTag

namespace OpenTag.IsOf

variable {t : OpenTag} (h : t.IsOf .html)
include h

/-- The attributes of a tag are said again when they are printed. -/
theorem entries : ∀ e ∈ (t.content .html).attributes.entries, IsPrintable e := by
  intro e he
  obtain ⟨a, ha, -, hkey, hvalue⟩ := (t.records_content .html).entries e he
  obtain ⟨hname, hbraces⟩ := h.attributes a ha
  have hword : IsWord e.1 := hkey ▸ hname.resolve_right (by simp)
  cases hv : a.value with
  | none =>
    rw [hv, AttrMeaning.of] at hvalue
    have hempty : e.2 = [] := (AttrMeaning.value.inj hvalue).symm
    exact ⟨hword, fun _ => by rw [hempty]; rfl, fun _ => hempty⟩
  | some raw =>
    have hquoting : raw.quoting ≠ .braces := fun hq => absurd (hbraces raw hv hq) (by simp)
    rw [hv, AttrMeaning.of, if_neg hquoting] at hvalue
    split at hvalue
    · cases hvalue
    next hstyle =>
      refine ⟨hword, fun hclass => ?_, fun hs => absurd hs hstyle⟩
      rw [if_pos hclass] at hvalue
      rw [← AttrMeaning.value.inj hvalue, collapse_collapse]

/-- The declarations of a tag are read from the declarations they make. -/
theorem declarations : ∀ e ∈ (t.content .html).style.entries, Style.IsReadable e := by
  intro e he
  have hne : (t.content .html).style.isEmpty = false := by
    rw [Attrs.isEmpty, List.isEmpty_eq_false_iff]
    exact List.ne_nil_of_mem he
  obtain ⟨a, ha, -, -, hmeaning⟩ := (t.records_content .html).style hne
  cases hv : a.value with
  | none =>
    rw [hv] at hmeaning
    cases hmeaning
  | some raw =>
    have hquoting : raw.quoting ≠ .braces := fun hq =>
      absurd ((h.attributes a ha).value raw hv hq) (by simp)
    rw [hv, AttrMeaning.of, if_neg hquoting, if_pos rfl] at hmeaning
    rw [← AttrMeaning.declarations.inj hmeaning] at he
    exact Style.isReadable_of_mem_readDeclarations he

end OpenTag.IsOf

/-! ## Content that is kept -/

theorem startsClose_append {tag q : Text} (h : startsClose tag q = true) (b : Text) :
    startsClose tag (q ++ b) = true := by
  rw [startsClose] at h
  split at h
  next c r hafter =>
    have heq := eq_of_afterWord? hafter
    have hlower : lower (q ++ b) = '<' :: '/' :: lower tag ++ (c :: r ++ lower b) := by
      rw [lower, List.map_append, ← lower, heq, List.append_assoc]
      rfl
    rw [startsClose, hlower, afterWord?_append]
    exact h
  next => cases h

theorem IsRawContent.trim {tag content : Text} (h : IsRawContent tag content) :
    IsRawContent tag (Text.trim isBlank content) := by
  obtain ⟨a, b, heq, -, -, -⟩ := exists_trim content
  intro q hq hsuf
  have hb : q ++ b <:+ content := by
    rw [heq, List.append_assoc]
    obtain ⟨u, hu⟩ := hsuf
    exact ⟨a ++ u, by rw [← hu]; simp⟩
  have := h (q ++ b) (by simp [hq]) hb
  by_contra hs
  rw [startsClose_append (by simpa using hs) b] at this
  cases this

/-- The child of an element whose content is kept is that content, without the blanks around it. -/
theorem OpenTag.nodes_rawChild (t : OpenTag) :
    t.rawChild.map Prod.fst = t.raw.elim [] fun r => rawNodes r.1 := by
  rw [rawChild]
  cases t.raw with
  | none => rfl
  | some r =>
    obtain ⟨content, span⟩ := r
    obtain ⟨a, b, -, -, -, hspan⟩ := exists_trim content
    have hlength : (trimmedSpan content).length = width (trim isBlank content) := by
      rw [hspan, Span.length, Nat.add_sub_cancel_left]
    simp only [at_trimmedSpan, hlength, width_eq_zero, Option.elim_some, rawNodes]
    split <;> rfl

theorem OpenTag.exists_of_mem_rawChild {t : OpenTag} {n : Node × Place} (h : n ∈ t.rawChild) :
    ∃ r ∈ t.raw, trim isBlank r.1 ≠ [] ∧ n.1 = .text (trim isBlank r.1) := by
  have hmem : n.1 ∈ t.rawChild.map Prod.fst := List.mem_map_of_mem h
  rw [t.nodes_rawChild] at hmem
  cases hr : t.raw with
  | none =>
    rw [hr] at hmem
    cases hmem
  | some r =>
    rw [hr, Option.elim_some, rawNodes] at hmem
    split at hmem
    · cases hmem
    next hne => exact ⟨r, rfl, hne, List.mem_singleton.1 hmem⟩

theorem OpenTag.IsOf.isKept {t : OpenTag} (h : t.IsOf .html) :
    IsKept t.name (t.rawChild.map Prod.fst) := by
  rw [t.nodes_rawChild]
  cases hr : t.raw with
  | none => trivial
  | some r =>
    rw [Option.elim_some, rawNodes]
    split
    · trivial
    next hne => exact ⟨hne, trim_trim .., (h.raw r hr).2.trim⟩

/-! ## Nodes -/

namespace Node

/-- An element as it is read from HTML: a tag that is said again when it is printed, and in it
collapsed texts, or content that is kept as it is written. -/
structure IsReadTag (tag : Text) (as st : Attrs) (cs : List Node) : Prop where
  name : IsTagName tag
  entries : ∀ e ∈ as.entries, MarkupSync.IsPrintable e
  exclusive : as.has styleName = true → st.isEmpty = true
  declarations : ∀ e ∈ st.entries, Style.IsReadable e
  void : isVoid tag = true → cs = []
  kept : isRaw tag = true → IsKept tag cs
  texts : isRaw tag = false → ∀ t, .text t ∈ cs → t ≠ [] ∧ collapse t = t

/-- A node, below a tag, as it is read from HTML. -/
def IsRead (raw : Bool) : Node → Prop
  | .text t => raw = false → t ≠ [] ∧ collapse t = t
  | .element tag as st cs => (element tag as st cs).Everywhere IsReadTag

end Node

/-- **The lexemes of HTML make such nodes.** -/
theorem yields_isRead : Flavor.html.Yields (Lexeme.IsOf .html) Node.IsRead where
  raw {n} h := by
    cases n with
    | text => exact nofun
    | element => exact h
  text {run content} h _ := by
    replace h : collapsed? (decodeEntities run) = some content := h
    rw [collapsed?] at h
    obtain ⟨hne, h⟩ := Option.ite_none_left_eq_some.1 h
    obtain rfl := Option.some.inj h
    exact ⟨hne, collapse_collapse _⟩
  expression h := by cases h
  rawChild {t} ht n hn := by
    obtain ⟨r, hr, -, hn⟩ := OpenTag.exists_of_mem_rawChild hn
    rw [hn, (ht.raw r hr).1]
    exact nofun
  element {t stop inner children} ht hchildren hshape := by
    have hread : ∀ n ∈ children, n.1.IsRead (isRaw t.name) := hchildren
    refine ⟨⟨ht.name, ht.entries, t.style_content, ht.declarations, fun hv => ?_, fun hr => ?_,
      fun hr s hs => ?_⟩, Node.allEverywhere_iff.2 fun n hn => ?_⟩
    · obtain rfl | ⟨hvoid, -⟩ := hshape
      · rfl
      · rw [hvoid] at hv
        cases hv
    · obtain rfl | ⟨-, hkept⟩ := hshape
      · trivial
      · rw [hkept rfl hr]
        exact ht.isKept
    · obtain ⟨x, hx, hxs⟩ := List.mem_map.1 hs
      have hx := hread x hx
      rw [hxs] at hx
      exact hx hr
    · obtain ⟨x, hx, rfl⟩ := List.mem_map.1 hn
      have hx := hread x hx
      cases hnode : x.1 with
      | text => trivial
      | element tag as st cs =>
        rw [hnode] at hx
        exact hx

/-- **The elements of a document that was read from HTML**, and its texts. -/
theorem Document.isRead_read {s : Text} {d : Document} (h : read .html s = .ok d) :
    (∀ n ∈ d.root.topLevel, n.IsRead false) ∧ Node.ofTopLevel d.root.topLevel = d.root := by
  obtain ⟨nodes, hroot, hnodes⟩ := of_readAt yields_isRead (fun _ => isOf_of_mem_scan) h
  have htop : d.root.topLevel = nodes := by
    rw [hroot, Node.topLevel_ofTopLevel fun n hn => ?_]
    cases hn' : n with
    | text => rfl
    | element tag as st cs =>
      have hread := hnodes n hn
      rw [hn'] at hread
      simpa [Node.isRoot, Node.tag?] using hread.1.name.ne_rootTag
  exact ⟨by rwa [htop], by rw [htop, hroot]⟩

/-! ## Names in JSX -/

theorem Flavor.key_eq (name : Text) : Flavor.key .jsx name =
    if name = "className".toList then "class".toList
    else if name = "htmlFor".toList then "for".toList else name := by
  rw [key, renamed, Entries.lookup_cons, Entries.lookup_cons, List.lookup_nil]
  split_ifs <;> rfl

/-- A document knows an attribute by a word, and never by a name that JSX has for another one. -/
theorem Flavor.key_word {name : Text} (h : IsWord name) :
    IsWord (Flavor.key .jsx name) ∧ Flavor.renamed.lookup (Flavor.key .jsx name) = none := by
  rw [key_eq]
  split_ifs with hclass hfor
  · exact ⟨⟨List.cons_ne_nil _ _, rfl⟩, rfl⟩
  · exact ⟨⟨List.cons_ne_nil _ _, rfl⟩, rfl⟩
  · refine ⟨h, ?_⟩
    rw [renamed, Entries.lookup_cons, Entries.lookup_cons, List.lookup_nil, if_neg hclass,
      if_neg hfor]

theorem Flavor.key_of_isClosed {name : Text} (h : IsClosed name) : Flavor.key .jsx name = name := by
  obtain ⟨s, rfl, -⟩ := h.exists_cons
  rfl

/-! ## Attributes in JSX -/

/-- The name is a word and not one that JSX has for another name, classes have single spaces
between them, and a style is code. -/
structure IsJsxWord (e : Entry) : Prop where
  name : IsWord e.1
  not_renamed : Flavor.renamed.lookup e.1 = none
  classes : e.1 = className → isExpression e.2 = false → collapse e.2 = e.2
  style : e.1 = styleName → isExpression e.2 = true → IsClosed e.2

/-- A value that is written in braces is what stands in them, with the braces. -/
theorem RawAttribute.exists_of_isCode {a : RawAttribute} {key value : Text}
    (h : AttrMeaning.of key a.value = .value value) (hcode : a.isCode = true) :
    ∃ raw ∈ a.value, raw.quoting = .braces ∧ value = '\x7b' :: raw.text ++ ['\x7d'] := by
  obtain ⟨raw, hraw, hbraces⟩ := (Option.any_eq_true _ _).1 hcode
  replace hbraces : raw.quoting = .braces := beq_iff_eq.1 hbraces
  rw [hraw, AttrMeaning.of, if_pos hbraces] at h
  split at h
  · cases h
  · exact ⟨raw, hraw, hbraces, (AttrMeaning.value.inj h).symm⟩

theorem RawAttribute.IsJsx.isClosed {a : RawAttribute} (ha : a.IsJsx) {key value : Text}
    (h : AttrMeaning.of key a.value = .value value) (hcode : a.isCode = true) : IsClosed value := by
  obtain ⟨raw, hraw, hbraces, rfl⟩ := a.exists_of_isCode h hcode
  exact ha.value raw hraw hbraces

/-- A style that is no list of declarations is code, or has no value. -/
theorem RawAttribute.isCode_of_style {a : RawAttribute} {value : Text}
    (h : AttrMeaning.of styleName a.value = .value value) (hexpr : isExpression value = true) :
    a.isCode = true := by
  rw [isCode]
  cases hv : a.value with
  | none =>
    rw [hv] at h
    rw [← AttrMeaning.value.inj h] at hexpr
    cases hexpr
  | some raw =>
    rw [hv, AttrMeaning.of] at h
    split at h
    next hbraces => simp [hbraces]
    next =>
      rw [if_pos rfl] at h
      cases h

/-- The attributes that a tag of JSX gives its element. -/
theorem OpenTag.entries_jsx {t : OpenTag} (ht : ∀ a ∈ t.attributes, a.IsJsx) :
    ∀ e ∈ (t.content .jsx).attributes.entries, IsSpread e ∨ IsJsxWord e := by
  intro e he
  obtain ⟨a, ha, -, hkey, hvalue⟩ := (t.records_content .jsx).entries e he
  obtain hname | ⟨hspread, hnone⟩ := (ht a ha).name
  · obtain ⟨hword, hrenamed⟩ := Flavor.key_word hname
    rw [hkey] at hword hrenamed
    refine .inr ⟨hword, hrenamed, t.classes_content e he, fun hstyle hexpr => ?_⟩
    rw [hstyle] at hvalue
    exact (ht a ha).isClosed hvalue (a.isCode_of_style hvalue hexpr)
  · rw [Flavor.key_of_isClosed hspread] at hkey
    rw [hnone] at hvalue
    exact .inl ⟨hkey ▸ hspread, (AttrMeaning.value.inj hvalue).symm⟩

/-! ## Nodes in JSX -/

/-- An element as it is read from JSX. -/
structure Node.IsJsxReadTag (tag : Text) (as _st : Attrs) (cs : List Node) : Prop where
  name : IsTagName tag
  entries : ∀ e ∈ as.entries, IsSpread e ∨ IsJsxWord e
  void : isVoid tag = true → cs = []

/-- **The lexemes of JSX make such nodes.** -/
theorem yields_isJsxReadTag :
    Flavor.jsx.Yields Lexeme.IsJsx fun _ n => n.Everywhere Node.IsJsxReadTag where
  raw := id
  text _ := trivial
  expression _ := trivial
  rawChild {t} ht n hn := by
    rw [OpenTag.rawChild, ht.2.1] at hn
    cases hn
  element {t stop inner children} ht hchildren hshape := by
    obtain ⟨hname, -, hattrs⟩ := ht
    refine ⟨⟨hname, t.entries_jsx hattrs, fun hvoid => ?_⟩, Node.allEverywhere_iff.2 ?_⟩
    · obtain rfl | ⟨hvoid', -⟩ := hshape
      · rfl
      · rw [hvoid'] at hvoid
        cases hvoid
    · exact List.forall_mem_map.2 hchildren

/-- **The elements of a document that was read from JSX.** -/
theorem Document.everywhere_of_readRootAt {n stop : Nat} {s : Text} {d : Document}
    (h : readRootAt .jsx n s = .ok (d, stop)) :
    ∃ nodes, d.root = Node.ofTopLevel nodes ∧ Node.AllEverywhere Node.IsJsxReadTag nodes := by
  obtain ⟨nodes, hroot, hnodes⟩ := of_readRootAt yields_isJsxReadTag (fun _ => isJsx_of_mem_scan) h
  exact ⟨nodes, hroot, Node.allEverywhere_iff.2 hnodes⟩

end MarkupSync
