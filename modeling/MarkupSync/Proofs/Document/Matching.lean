import MarkupSync.Proofs.Document.Nesting

/-!
# Tags that match

* `Reader.Reaches`, `Reader.Fails`: what lexemes make of a reader that has something open, whatever
  follows them;
* `IsMatched`: lexemes in which every tag that does not close itself has a close tag of its name;
* `PairsVoid`: lexemes in which an element that has no close tag in HTML has one;
* **`IsMatched.leads`**: matched lexemes close what they open, or one of those elements stops the
  reader;
* `Reader.untilClosed_element`, `Reader.untilClosed_fragment`: where the first thing that a text
  opens is closed.
-/

namespace MarkupSync

namespace Reader

/-- Lexemes lead from one reader to another, with something open behind each of them. -/
def Reaches (r : Reader) (ls : List Lexeme) (r' : Reader) : Prop :=
  ∀ fault more, untilClosed .jsx fault r (ls ++ more) = untilClosed .jsx fault r' more

/-- A reader refuses one of some lexemes. -/
def Fails (r : Reader) (ls : List Lexeme) : Prop :=
  ∃ e, ∀ fault more, untilClosed .jsx fault r (ls ++ more) = .error e

variable {r r₁ r₂ : Reader} {l : Lexeme} {ls ms : List Lexeme}

theorem reaches_nil (r : Reader) : r.Reaches [] r := fun _ _ => rfl

theorem reaches_single (hstep : r.step .jsx l = .ok r₁) (hopen : r₁.stack ≠ []) :
    r.Reaches [l] r₁ := by
  intro fault more
  simp [untilClosed, hstep, hopen]

theorem fails_single {e : ParseError} (hstep : r.step .jsx l = .error e) : r.Fails [l] :=
  ⟨e, fun fault more => by simp [untilClosed, hstep]⟩

theorem Reaches.append (h : r.Reaches ls r₁) (h' : r₁.Reaches ms r₂) : r.Reaches (ls ++ ms) r₂ := by
  intro fault more
  rw [List.append_assoc, h, h']

theorem Reaches.append_fails (h : r.Reaches ls r₁) (h' : r₁.Fails ms) : r.Fails (ls ++ ms) := by
  obtain ⟨e, he⟩ := h'
  exact ⟨e, fun fault more => by rw [List.append_assoc, h, he]⟩

theorem Fails.append (h : r.Fails ls) (ms : List Lexeme) : r.Fails (ls ++ ms) := by
  obtain ⟨e, he⟩ := h
  exact ⟨e, fun fault more => by rw [List.append_assoc, he]⟩

end Reader

/-! ## Matched lexemes -/

/-- Every tag that does not close itself is followed by a close tag of its name, every open fragment
by its close, and what stands between them is matched too. -/
inductive IsMatched : List Lexeme → Prop
  | nil : IsMatched []
  | text {content : Text} {span : Span} {ls : List Lexeme} (h : IsMatched ls) :
    IsMatched (.text content span :: ls)
  | expression {content : Text} {span : Span} {ls : List Lexeme} (h : IsMatched ls) :
    IsMatched (.expression content span :: ls)
  | leaf {t : OpenTag} {ls : List Lexeme} (ht : t.selfClosing = true) (h : IsMatched ls) :
    IsMatched (.openTag t :: ls)
  | element {t : OpenTag} {span : Span} {inner ls : List Lexeme} (ht : t.selfClosing = false)
    (hinner : IsMatched inner) (h : IsMatched ls) :
    IsMatched (.openTag t :: (inner ++ .closeTag t.name span :: ls))
  | fragment {span span' : Span} {inner ls : List Lexeme} (hinner : IsMatched inner)
    (h : IsMatched ls) : IsMatched (.fragmentOpen span :: (inner ++ .fragmentClose span' :: ls))

theorem IsMatched.append {ls ms : List Lexeme} (h : IsMatched ls) (h' : IsMatched ms) :
    IsMatched (ls ++ ms) := by
  induction h with
  | nil => exact h'
  | text _ ih => exact .text ih
  | expression _ ih => exact .expression ih
  | leaf ht _ ih => exact .leaf ht ih
  | element ht hinner _ _ ih =>
    rw [List.cons_append, List.append_assoc]
    exact .element ht hinner ih
  | fragment hinner _ _ ih =>
    rw [List.cons_append, List.append_assoc]
    exact .fragment hinner ih

/-- Some tag of an element that has no close tag in HTML does not close itself. -/
def PairsVoid (ls : List Lexeme) : Prop :=
  ∃ t, .openTag t ∈ ls ∧ t.selfClosing = false ∧ isVoid t.name = true

theorem PairsVoid.mono {ls ms : List Lexeme} (h : PairsVoid ls) (hsub : ls ⊆ ms) : PairsVoid ms := by
  obtain ⟨t, ht, hvoid⟩ := h
  exact ⟨t, hsub ht, hvoid⟩

/-- No open element is one that has no close tag in HTML. -/
def Reader.HasNoVoid (r : Reader) : Prop :=
  ∀ x ∈ r.stack, ∀ t, x.1 = .element t → isVoid t.name = false

namespace Reader

variable {r r' : Reader} {t : OpenTag} {span : Span}

/-- A tag that closes itself, or that of an element without a close tag, leaves open what was
open. -/
theorem step_leaf (r : Reader) (h : (t.selfClosing || isVoid t.name) = true) :
    ∃ r', r.step .jsx (.openTag t) = .ok r' ∧ r'.stack = r.stack := by
  refine ⟨(r.flush .jsx).push (t.element .jsx t.closing.stop none []), ?_, stack_flush r⟩
  simp only [step, stepTag, h, if_true]

/-- Any other tag opens its element. -/
theorem step_openTag (r : Reader) (h : (t.selfClosing || isVoid t.name) = false) :
    ∃ r' before, r.step .jsx (.openTag t) = .ok r' ∧
      r'.stack = (.element t, before) :: r.stack := by
  refine ⟨⟨t.rawChild, (r.flush .jsx).run, (.element t, (r.flush .jsx).nodes) :: r.stack⟩,
    (r.flush .jsx).nodes, ?_, rfl⟩
  simp only [step, stepTag, h, stack_flush]
  rfl

/-- The close tag of the innermost element closes it. -/
theorem step_closeTag {before : List (Node × Place)} {stack : List (Opened × List (Node × Place))}
    (h : r.stack = (.element t, before) :: stack) (span : Span) :
    ∃ r', r.step .jsx (.closeTag t.name span) = .ok r' ∧ r'.stack = stack := by
  have hcloses : Flavor.jsx.closes t.name t.name = true := by simp [Flavor.closes]
  simp only [step, stepTag, stack_flush, h, hcloses, if_true]
  exact ⟨_, rfl, rfl⟩

/-- The close tag of an element that is not open is refused. -/
theorem step_closeTag_void (hopen : r.HasNoVoid) (hvoid : isVoid t.name = true) (span : Span) :
    ∃ e, r.step .jsx (.closeTag t.name span) = .error e := by
  simp only [step, stepTag, stack_flush]
  cases hstack : r.stack with
  | nil => exact ⟨_, rfl⟩
  | cons x stack =>
    obtain ⟨opened, before⟩ := x
    cases opened with
    | fragment => exact ⟨_, rfl⟩
    | element u =>
      have hne : u.name ≠ t.name := fun hname => by
        have := hopen _ (by rw [hstack]; exact List.mem_cons_self) u rfl
        rw [hname, hvoid] at this
        cases this
      have hcloses : Flavor.jsx.closes u.name t.name = false := by simp [Flavor.closes, hne]
      simp only [hcloses]
      exact ⟨_, rfl⟩

theorem step_fragmentOpen (r : Reader) (span : Span) : ∃ r' before,
    r.step .jsx (.fragmentOpen span) = .ok r' ∧
      r'.stack = (.fragment span, before) :: r.stack := by
  simp only [step, stepTag, stack_flush]
  exact ⟨_, _, rfl, rfl⟩

theorem step_fragmentClose {span' : Span} {before : List (Node × Place)}
    {stack : List (Opened × List (Node × Place))} (h : r.stack = (.fragment span', before) :: stack)
    (span : Span) :
    ∃ r', r.step .jsx (.fragmentClose span) = .ok r' ∧ r'.stack = stack := by
  simp only [step, stepTag, stack_flush, h]
  exact ⟨_, rfl, rfl⟩

theorem HasNoVoid.congr (h : r.HasNoVoid) (hstack : r'.stack = r.stack) : r'.HasNoVoid := by
  rw [HasNoVoid, hstack]
  exact h

theorem HasNoVoid.cons {x : Opened × List (Node × Place)} (h : r.HasNoVoid)
    (hstack : r'.stack = x :: r.stack) (hx : ∀ t, x.1 = .element t → isVoid t.name = false) :
    r'.HasNoVoid := by
  rw [HasNoVoid, hstack]
  exact List.forall_mem_cons.2 ⟨hx, h⟩

end Reader

namespace Reader

/-- Lexemes lead a reader to one that has `stack` open, or a close tag of an element that has none in
HTML stops it. -/
def Leads (r : Reader) (ls : List Lexeme) (stack : List (Opened × List (Node × Place))) : Prop :=
  (∃ r', r.Reaches ls r' ∧ r'.stack = stack) ∨ PairsVoid ls ∧ r.Fails ls

variable {r r₁ : Reader} {l : Lexeme} {ls ms : List Lexeme}
  {stack stack' : List (Opened × List (Node × Place))}

theorem leads_single (hstep : r.step .jsx l = .ok r₁) (hstack : r₁.stack = stack)
    (hopen : stack ≠ []) : r.Leads [l] stack :=
  .inl ⟨r₁, reaches_single hstep (hstack ▸ hopen), hstack⟩

theorem Leads.append (h : r.Leads ls stack)
    (h' : ∀ r' : Reader, r'.stack = stack → r'.Leads ms stack') : r.Leads (ls ++ ms) stack' := by
  obtain ⟨r', hreaches, hstack⟩ | ⟨hpairs, hfails⟩ := h
  · obtain ⟨r'', hreaches', hstack'⟩ | ⟨hpairs, hfails⟩ := h' r' hstack
    · exact .inl ⟨r'', hreaches.append hreaches', hstack'⟩
    · exact .inr ⟨hpairs.mono (List.subset_append_right ..), hreaches.append_fails hfails⟩
  · exact .inr ⟨hpairs.mono (List.subset_append_left ..), hfails.append ms⟩

end Reader

open Reader

/-- **Matched lexemes close what they open**, or a close tag of an element that has none in HTML stops
the reader. -/
theorem IsMatched.leads {ls : List Lexeme} (h : IsMatched ls) {r : Reader} (hopen : r.stack ≠ [])
    (hvoid : r.HasNoVoid) : r.Leads ls r.stack := by
  induction h generalizing r with
  | nil => exact .inl ⟨r, reaches_nil r, rfl⟩
  | @text content span _ _ ih =>
    have hstep : r.step .jsx (.text content span) =
        .ok { r with run := r.run ++ [(content, span.start)] } := rfl
    refine (leads_single hstep rfl hopen).append fun r' hr' => ?_
    exact hr' ▸ ih (hr' ▸ hopen) (hvoid.congr hr')
  | @expression content span _ _ ih =>
    have hstep : r.step .jsx (.expression content span) =
        .ok ((r.flush .jsx).push (.text content, .text span)) := rfl
    refine (leads_single hstep (stack_flush r) hopen).append fun r' hr' => ?_
    exact hr' ▸ ih (hr' ▸ hopen) (hvoid.congr hr')
  | leaf ht _ ih =>
    obtain ⟨r₁, hstep, hstack⟩ := step_leaf r (Bool.or_eq_true_iff.2 (.inl ht))
    refine (leads_single hstep hstack hopen).append fun r' hr' => ?_
    exact hr' ▸ ih (hr' ▸ hopen) (hvoid.congr hr')
  | @element t span inner ls ht _ _ ihinner ih =>
    rw [← List.singleton_append, List.append_cons inner, ← List.append_assoc]
    cases hname : isVoid t.name with
    | false =>
      obtain ⟨r₁, before, hstep, hstack⟩ := step_openTag r (Bool.or_eq_false_iff.2 ⟨ht, hname⟩)
      have hcons : (.element t, before) :: r.stack ≠ [] := List.cons_ne_nil _ _
      refine Leads.append ?_ fun r' (hr' : r'.stack = r.stack) =>
        hr' ▸ ih (hr' ▸ hopen) (hvoid.congr hr')
      refine (leads_single hstep hstack hcons).append fun r₂ hr₂ => ?_
      have hvoid₂ := hvoid.cons hr₂ fun u hu => by
        cases hu
        exact hname
      refine Leads.append (hr₂ ▸ ihinner (hr₂ ▸ hcons) hvoid₂) fun r₃ hr₃ => ?_
      obtain ⟨r₄, hclose, hstack₄⟩ := step_closeTag hr₃ span
      exact leads_single hclose hstack₄ hopen
    | true =>
      -- the tag opens nothing, so its close tag has nothing to close
      refine .inr ⟨⟨t, List.mem_cons_self, ht, hname⟩, Fails.append ?_ ls⟩
      obtain ⟨r₁, hstep, hstack⟩ := step_leaf r (Bool.or_eq_true_iff.2 (.inr hname))
      have hopen₁ : r₁.stack ≠ [] := hstack ▸ hopen
      refine (reaches_single hstep hopen₁).append_fails ?_
      obtain ⟨r₂, hreaches, hstack₂⟩ | ⟨-, hfails⟩ := ihinner hopen₁ (hvoid.congr hstack)
      · obtain ⟨e, he⟩ := step_closeTag_void ((hvoid.congr hstack).congr hstack₂) hname span
        exact hreaches.append_fails (fails_single he)
      · exact hfails.append _
  | @fragment span span' inner ls _ _ ihinner ih =>
    rw [← List.singleton_append, List.append_cons inner, ← List.append_assoc]
    obtain ⟨r₁, before, hstep, hstack⟩ := step_fragmentOpen r span
    have hcons : (.fragment span, before) :: r.stack ≠ [] := List.cons_ne_nil _ _
    refine Leads.append ?_ fun r' (hr' : r'.stack = r.stack) =>
      hr' ▸ ih (hr' ▸ hopen) (hvoid.congr hr')
    refine (leads_single hstep hstack hcons).append fun r₂ hr₂ => ?_
    refine Leads.append (hr₂ ▸ ihinner (hr₂ ▸ hcons) (hvoid.cons hr₂ nofun)) fun r₃ hr₃ => ?_
    obtain ⟨r₄, hclose, hstack₄⟩ := step_fragmentClose hr₃ span'
    exact leads_single hclose hstack₄ hopen

/-! ## The first thing that is opened -/

namespace Reader

theorem hasNoVoid_start : start.HasNoVoid := nofun

/-- A last lexeme closes everything. -/
theorem untilClosed_last {r r₁ : Reader} {l : Lexeme} (hstep : r.step .jsx l = .ok r₁)
    (hclosed : r₁.stack = []) (fault : Option ParseError) (more : List Lexeme) :
    untilClosed .jsx fault r (l :: more) = .ok (r₁.nodes.reverse, l) := by
  simp [untilClosed, hstep, hclosed]

/-- A tag that closes itself, or that of an element without a close tag, is all that is read. -/
theorem untilClosed_leaf {t : OpenTag} (h : (t.selfClosing || isVoid t.name) = true)
    (fault : Option ParseError) (more : List Lexeme) :
    ∃ nodes, untilClosed .jsx fault start (.openTag t :: more) = .ok (nodes, .openTag t) := by
  obtain ⟨r, hstep, hstack⟩ := step_leaf start h
  exact ⟨_, untilClosed_last hstep hstack fault more⟩

variable {ls : List Lexeme} {span span' : Span}

/-- Any other tag is read up to its close tag, if the reader gets there. -/
theorem untilClosed_element {t : OpenTag} (h : (t.selfClosing || isVoid t.name) = false)
    (hls : IsMatched ls) (fault : Option ParseError) (more : List Lexeme) :
    (∃ nodes, untilClosed .jsx fault start (.openTag t :: (ls ++ .closeTag t.name span :: more)) =
      .ok (nodes, .closeTag t.name span)) ∨
    PairsVoid ls ∧ ∃ e, untilClosed .jsx fault start
      (.openTag t :: (ls ++ .closeTag t.name span :: more)) = .error e := by
  obtain ⟨r₁, before, hstep, hstack⟩ := step_openTag start h
  have hopen : r₁.stack ≠ [] := hstack ▸ List.cons_ne_nil _ _
  have hvoid := hasNoVoid_start.cons hstack fun u hu => by
    cases hu
    exact (Bool.or_eq_false_iff.1 h).2
  have hfirst := reaches_single hstep hopen fault (ls ++ .closeTag t.name span :: more)
  rw [List.singleton_append] at hfirst
  rw [hfirst]
  obtain ⟨r₂, hreaches, hstack₂⟩ | ⟨hpairs, e, hfails⟩ := hls.leads hopen hvoid
  · obtain ⟨r₃, hclose, hstack₃⟩ := step_closeTag (hstack₂.trans hstack) span
    rw [hreaches]
    exact .inl ⟨_, untilClosed_last hclose hstack₃ fault more⟩
  · exact .inr ⟨hpairs, e, hfails fault _⟩

/-- A fragment is read up to its close, if the reader gets there. -/
theorem untilClosed_fragment (hls : IsMatched ls) (fault : Option ParseError) (more : List Lexeme) :
    (∃ nodes, untilClosed .jsx fault start
      (.fragmentOpen span :: (ls ++ .fragmentClose span' :: more)) =
        .ok (nodes, .fragmentClose span')) ∨
    PairsVoid ls ∧ ∃ e, untilClosed .jsx fault start
      (.fragmentOpen span :: (ls ++ .fragmentClose span' :: more)) = .error e := by
  obtain ⟨r₁, before, hstep, hstack⟩ := step_fragmentOpen start span
  have hopen : r₁.stack ≠ [] := hstack ▸ List.cons_ne_nil _ _
  have hfirst := reaches_single hstep hopen fault (ls ++ .fragmentClose span' :: more)
  rw [List.singleton_append] at hfirst
  rw [hfirst]
  obtain ⟨r₂, hreaches, hstack₂⟩ | ⟨hpairs, e, hfails⟩ :=
    hls.leads hopen (hasNoVoid_start.cons hstack nofun)
  · obtain ⟨r₃, hclose, hstack₃⟩ := step_fragmentClose (hstack₂.trans hstack) span'
    rw [hreaches]
    exact .inl ⟨_, untilClosed_last hclose hstack₃ fault more⟩
  · exact .inr ⟨hpairs, e, hfails fault _⟩

end Reader

end MarkupSync
