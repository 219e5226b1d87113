import Mathlib.Data.List.Basic
import MarkupSync.Script.Component

/-!
# How a module's component is found

The search for the markup of a component as rules, one for each kind of expression. Bindings may
lead to each other in circles; what ends the search is the number of indirections, and between two
of them the size of the expression.

* `Expr.IsMarkup`, `ReturnsLast`, `Body.Renders`: the markup that a function returns;
* `Resolves`: what the search finds, and how many indirections have led to where it stands;
* **`existsUnique_resolves`**: the search ends, with one result (`Resolves.eq`, `resolves_at`);
* `Leads`: the functions that an expression leads to;
* **`moduleMarkup?_resolves`**: the markup of a module is that of its default export, and else that
  of the last binding that has any.
-/

namespace MarkupSync.Script

/-! ## What a function returns -/

/-- An expression is the markup in the bytes `span`, up to parentheses. -/
inductive Expr.IsMarkup : Expr → Span → Prop
  | markup (span : Span) : IsMarkup (.markup span) span
  | parenthesized {e : Expr} {span : Span} (h : IsMarkup e span) : IsMarkup (.parenthesized e) span

theorem Expr.isMarkup_of_markup? {e : Expr} {span : Span} (h : e.markup? = some span) :
    e.IsMarkup span := by
  match e with
  | .markup _ =>
    cases h
    exact .markup span
  | .parenthesized _ => exact .parenthesized (isMarkup_of_markup? h)
  | .identifier _ | .arrow _ | .function _ | .call _ | .object _ | .array _ | .spread _
  | .assignment _ | .member | .prefixed | .other => cases h

theorem Expr.isMarkup_iff {e : Expr} {span : Span} : e.IsMarkup span ↔ e.markup? = some span := by
  refine ⟨fun h => ?_, isMarkup_of_markup?⟩
  induction h with
  | markup => rfl
  | parenthesized _ ih => exact ih

/-- The last return among the statements of a body returns `e`. Returns inside other statements do
not count. -/
def ReturnsLast (body : List Stmt) (e : Option Expr) : Prop :=
  ∃ front back, body = front ++ .returns e :: back ∧ ∀ s ∈ back, ∀ e', s ≠ .returns e'

theorem Stmt.returned?_eq_some_iff {s : Stmt} {e : Option Expr} :
    s.returned? = some e ↔ s = .returns e := by
  cases s <;> simp [returned?]

theorem Stmt.returned?_eq_none_iff {s : Stmt} : s.returned? = none ↔ ∀ e, s ≠ .returns e := by
  cases s <;> simp [returned?]

/-- The last item for which `f` has a value. -/
theorem findSome?_reverse_eq_some_iff {α β : Type} {f : α → Option β} {as : List α} {b : β} :
    as.reverse.findSome? f = some b ↔
      ∃ front a back, as = front ++ a :: back ∧ f a = some b ∧ ∀ c ∈ back, f c = none := by
  rw [List.findSome?_eq_some_iff]
  constructor
  · rintro ⟨back, a, front, has, ha, hback⟩
    refine ⟨front.reverse, a, back.reverse, ?_, ha, by simpa using hback⟩
    rw [← List.reverse_reverse as, has]
    simp
  · rintro ⟨front, a, back, rfl, ha, hback⟩
    exact ⟨back.reverse, a, front.reverse, by simp, ha, by simpa using hback⟩

theorem returnsLast_iff {body : List Stmt} {e : Option Expr} :
    ReturnsLast body e ↔ body.reverse.findSome? Stmt.returned? = some e := by
  simp only [findSome?_reverse_eq_some_iff, Stmt.returned?_eq_some_iff, Stmt.returned?_eq_none_iff]
  constructor
  · rintro ⟨front, back, rfl, hback⟩
    exact ⟨front, _, back, rfl, rfl, hback⟩
  · rintro ⟨front, _, back, rfl, rfl, hback⟩
    exact ⟨front, back, rfl, hback⟩

/-- A function with this body renders the markup in the bytes `span`. -/
inductive Body.Renders : Body → Span → Prop
  | expression {e : Expr} {span : Span} (h : e.IsMarkup span) : Renders (.expression e) span
  | block {body : List Stmt} {e : Expr} {span : Span} (hreturns : ReturnsLast body (some e))
    (h : e.IsMarkup span) : Renders (.block body) span

/-- The markup that a function with this body renders. -/
def Body.markup? : Body → Option Span
  | .expression e => e.markup?
  | .block body => finalMarkup? body

theorem Body.renders_iff {b : Body} {span : Span} : b.Renders span ↔ b.markup? = some span := by
  constructor
  · rintro (h | ⟨hreturns, h⟩)
    · exact Expr.isMarkup_iff.1 h
    · rw [markup?, finalMarkup?, returnsLast_iff.1 hreturns]
      exact Expr.isMarkup_iff.1 h
  · intro h
    cases b with
    | expression e => exact .expression (Expr.isMarkup_iff.2 h)
    | block body =>
      rw [markup?, finalMarkup?] at h
      split at h
      next e he => exact .block (returnsLast_iff.2 he) (Expr.isMarkup_iff.2 h)
      next => cases h

/-! ## The search -/

/-- The expressions that may stand for a component. -/
def Expr.mayRender : Expr → Bool
  | parenthesized _ | arrow _ | function _ | call _ | object _ | identifier _ => true
  | _ => false

/-- What the search for the markup of an expression finds, where `depth` wrappers and bound values
have led to it: what each question comes to, with the questions that it leads to as premises. -/
inductive Resolves (declared : List Declared) : Nat → Expr → Option Span → Prop
  | tooDeep {depth : Nat} {e : Expr} (h : maxIndirections < depth) : Resolves declared depth e none
  | parenthesized {depth : Nat} {e : Expr} {found : Option Span} (hdepth : depth ≤ maxIndirections)
    (h : Resolves declared depth e found) : Resolves declared depth (.parenthesized e) found
  | arrow {depth : Nat} {body : Body} (hdepth : depth ≤ maxIndirections) :
    Resolves declared depth (.arrow body) body.markup?
  | function {depth : Nat} {body : List Stmt} (hdepth : depth ≤ maxIndirections) :
    Resolves declared depth (.function body) (finalMarkup? body)
  /-- The last argument that has markup counts. -/
  | argument {depth : Nat} {before after : List Expr} {e : Expr} {span : Span}
    (hdepth : depth ≤ maxIndirections) (h : Resolves declared (depth + 1) e (some span))
    (hafter : ∀ f ∈ after, Resolves declared (depth + 1) f none) :
    Resolves declared depth (.call (before ++ e :: after)) (some span)
  | noArgument {depth : Nat} {arguments : List Expr} (hdepth : depth ≤ maxIndirections)
    (h : ∀ f ∈ arguments, Resolves declared (depth + 1) f none) :
    Resolves declared depth (.call arguments) none
  /-- The first member called `render` that has markup counts. -/
  | member {depth : Nat} {before after : List Property} {e : Expr} {span : Span}
    (hdepth : depth ≤ maxIndirections) (h : Resolves declared (depth + 1) e (some span))
    (hbefore : ∀ f, .named (some renderName) f ∈ before → Resolves declared (depth + 1) f none) :
    Resolves declared depth (.object (before ++ .named (some renderName) e :: after)) (some span)
  | noMember {depth : Nat} {properties : List Property} (hdepth : depth ≤ maxIndirections)
    (h : ∀ f, .named (some renderName) f ∈ properties → Resolves declared (depth + 1) f none) :
    Resolves declared depth (.object properties) none
  | boundFunction {depth : Nat} {name : Text} {name' : Option Text} {body : Option (List Stmt)}
    (hdepth : depth ≤ maxIndirections)
    (hfind : declared.find? (·.name == some name) = some (.function name' body)) :
    Resolves declared depth (.identifier name) (body.bind finalMarkup?)
  | boundValue {depth : Nat} {name : Text} {name' : Option Text} {e : Expr} {found : Option Span}
    (hdepth : depth ≤ maxIndirections)
    (hfind : declared.find? (·.name == some name) = some (.bound name' (some e)))
    (h : Resolves declared (depth + 1) e found) : Resolves declared depth (.identifier name) found
  | unset {depth : Nat} {name : Text} {name' : Option Text} (hdepth : depth ≤ maxIndirections)
    (hfind : declared.find? (·.name == some name) = some (.bound name' none)) :
    Resolves declared depth (.identifier name) none
  | unbound {depth : Nat} {name : Text} (hdepth : depth ≤ maxIndirections)
    (hfind : declared.find? (·.name == some name) = none) :
    Resolves declared depth (.identifier name) none
  | other {depth : Nat} {e : Expr} (hdepth : depth ≤ maxIndirections)
    (h : e.mayRender = false) : Resolves declared depth e none

/-- The markup of a component to which `depth` wrappers and bound values have led. -/
def componentAt? (declared : List Declared) (depth : Nat) (e : Expr) : Option Span :=
  if depth ≤ maxIndirections then componentOf? declared (maxIndirections - depth) e else none

section At

variable {declared : List Declared} {depth : Nat}

theorem componentAt?_of_lt (h : maxIndirections < depth) (e : Expr) :
    componentAt? declared depth e = none := if_neg (Nat.not_le_of_lt h)

theorem componentAt?_of_le (h : depth ≤ maxIndirections) (e : Expr) :
    componentAt? declared depth e = componentOf? declared (maxIndirections - depth) e := if_pos h

/-- Behind the last indirection nothing is found. -/
theorem componentAt?_last (h : maxIndirections - depth = 0) :
    componentAt? declared (depth + 1) = fun _ => none :=
  funext fun e => componentAt?_of_lt (by omega) e

/-- Behind an indirection one fewer may follow. -/
theorem componentAt?_next {n : Nat} (h : maxIndirections - depth = n + 1) :
    componentAt? declared (depth + 1) = componentOf? declared n := by
  funext e
  rw [componentAt?_of_le (by omega), show maxIndirections - (depth + 1) = n by omega]

theorem componentAt?_parenthesized (e : Expr) :
    componentAt? declared depth (.parenthesized e) = componentAt? declared depth e := by
  rw [componentAt?, componentAt?, componentOf?.eq_def, componentOf?.eq_def declared _ e]
  rfl

theorem componentAt?_arrow (h : depth ≤ maxIndirections) (body : Body) :
    componentAt? declared depth (.arrow body) = body.markup? := by
  rw [componentAt?_of_le h, componentOf?.eq_def]
  cases body <;> rfl

theorem componentAt?_function (h : depth ≤ maxIndirections) (body : List Stmt) :
    componentAt? declared depth (.function body) = finalMarkup? body := by
  rw [componentAt?_of_le h, componentOf?.eq_def]
  rfl

theorem componentAt?_other {e : Expr} (h : e.mayRender = false) :
    componentAt? declared depth e = none := by
  rw [componentAt?, componentOf?.eq_def]
  split_ifs
  · cases e <;> first | rfl | cases h
  · rfl

theorem findSome?_filterMap {α β γ : Type} (f : α → Option β) (g : β → Option γ) (as : List α) :
    (as.filterMap f).findSome? g = as.findSome? fun a => (f a).bind g := by
  rw [← List.head?_filterMap, ← List.head?_filterMap, List.filterMap_filterMap]

theorem findSome?_none {α β : Type} (as : List α) : as.findSome? (fun _ => (none : Option β)) = none :=
  List.findSome?_eq_none_iff.2 fun _ _ => rfl

/-- Spread arguments have no markup. -/
theorem findSome?_plainArgument? (arguments : List Expr) :
    (arguments.filterMap plainArgument?).findSome? (componentAt? declared depth) =
      arguments.findSome? (componentAt? declared depth) := by
  rw [findSome?_filterMap]
  congr 1
  funext e
  cases e <;> first | rfl | exact (componentAt?_other rfl).symm

theorem componentAt?_call (h : depth ≤ maxIndirections) (arguments : List Expr) :
    componentAt? declared depth (.call arguments) =
      arguments.reverse.findSome? (componentAt? declared (depth + 1)) := by
  rw [← findSome?_plainArgument?, componentAt?_of_le h, componentOf?.eq_def]
  simp only [Expr.bare]
  cases hn : maxIndirections - depth with
  | zero =>
    rw [componentAt?_last hn]
    exact (findSome?_none _).symm
  | succ n => rw [componentAt?_next hn]

theorem componentAt?_object (h : depth ≤ maxIndirections) (properties : List Property) :
    componentAt? declared depth (.object properties) =
      (properties.filterMap renderValue?).findSome? (componentAt? declared (depth + 1)) := by
  rw [componentAt?_of_le h, componentOf?.eq_def]
  simp only [Expr.bare]
  cases hn : maxIndirections - depth with
  | zero =>
    rw [componentAt?_last hn]
    exact (findSome?_none _).symm
  | succ n => rw [componentAt?_next hn]

/-- What a name is bound to is one indirection further on, unless it is a function. -/
theorem componentAt?_identifier (h : depth ≤ maxIndirections) (name : Text) :
    componentAt? declared depth (.identifier name) =
      match declared.find? (·.name == some name) with
      | some (.function _ body) => body.bind finalMarkup?
      | some (.bound _ value) => value.bind (componentAt? declared (depth + 1))
      | none => none := by
  rw [componentAt?_of_le h, componentOf?.eq_def]
  simp only [Expr.bare]
  cases declared.find? (·.name == some name) with
  | none => rfl
  | some d =>
    cases d with
    | function => rfl
    | bound _ value =>
      cases hn : maxIndirections - depth with
      | zero =>
        rw [componentAt?_last hn]
        cases value <;> rfl
      | succ n => rw [componentAt?_next hn]

theorem renderValue?_eq_some_iff {p : Property} {e : Expr} :
    renderValue? p = some e ↔ p = .named (some renderName) e := by
  cases p with
  | named name value =>
    rw [renderValue?]
    split_ifs with hname
    · simp [hname]
    · simp [hname]
  | spread => simp [renderValue?]

/-- The result of the search, by its rules. -/
theorem Resolves.eq {e : Expr} {found : Option Span} (h : Resolves declared depth e found) :
    found = componentAt? declared depth e := by
  induction h with
  | tooDeep h => exact (componentAt?_of_lt h _).symm
  | parenthesized _ _ ih => rw [componentAt?_parenthesized, ih]
  | arrow hdepth => exact (componentAt?_arrow hdepth _).symm
  | function hdepth => exact (componentAt?_function hdepth _).symm
  | argument hdepth _ _ ih ihafter =>
    rw [componentAt?_call hdepth]
    exact (findSome?_reverse_eq_some_iff.2
      ⟨_, _, _, rfl, ih.symm, fun f hf => (ihafter f hf).symm⟩).symm
  | noArgument hdepth _ ih =>
    rw [componentAt?_call hdepth]
    refine (List.findSome?_eq_none_iff.2 fun f hf => ?_).symm
    exact (ih f (List.mem_reverse.1 hf)).symm
  | @member _ before after e span hdepth _ _ ih ihbefore =>
    rw [componentAt?_object hdepth, findSome?_filterMap]
    refine (List.findSome?_eq_some_iff.2 ⟨before, _, after, rfl, ?_, fun p hp => ?_⟩).symm
    · rw [renderValue?_eq_some_iff.2 rfl]
      exact ih.symm
    · rw [Option.bind_eq_none_iff]
      intro f hf
      rw [renderValue?_eq_some_iff.1 hf] at hp
      exact (ihbefore f hp).symm
  | noMember hdepth _ ih =>
    rw [componentAt?_object hdepth]
    refine (List.findSome?_eq_none_iff.2 fun f hf => ?_).symm
    obtain ⟨p, hp, hvalue⟩ := List.mem_filterMap.1 hf
    rw [renderValue?_eq_some_iff.1 hvalue] at hp
    exact (ih f hp).symm
  | boundFunction hdepth hfind => rw [componentAt?_identifier hdepth, hfind]
  | boundValue hdepth hfind _ ih =>
    rw [componentAt?_identifier hdepth, hfind]
    exact ih
  | unset hdepth hfind =>
    rw [componentAt?_identifier hdepth, hfind]
    rfl
  | unbound hdepth hfind => rw [componentAt?_identifier hdepth, hfind]
  | other _ h => exact (componentAt?_other h).symm

variable (declared) in
/-- The search ends: an expression in parentheses is smaller, and everything else that is asked
about is one indirection further on, of which there are only so many. -/
theorem resolves_at (depth : Nat) (e : Expr) :
    Resolves declared depth e (componentAt? declared depth e) := by
  by_cases hdepth : depth ≤ maxIndirections
  case neg =>
    rw [componentAt?_of_lt (Nat.lt_of_not_le hdepth)]
    exact .tooDeep (Nat.lt_of_not_le hdepth)
  have deeper (f : Expr) {found : Option Span} (h : componentAt? declared (depth + 1) f = found) :
      Resolves declared (depth + 1) f found := h ▸ resolves_at (depth + 1) f
  cases e with
  | parenthesized e =>
    rw [componentAt?_parenthesized]
    exact .parenthesized hdepth (resolves_at depth e)
  | arrow body =>
    rw [componentAt?_arrow hdepth]
    exact .arrow hdepth
  | function body =>
    rw [componentAt?_function hdepth]
    exact .function hdepth
  | call arguments =>
    rw [componentAt?_call hdepth]
    cases hfound : arguments.reverse.findSome? (componentAt? declared (depth + 1)) with
    | none =>
      refine .noArgument hdepth fun f hf => deeper f ?_
      exact List.findSome?_eq_none_iff.1 hfound f (List.mem_reverse.2 hf)
    | some span =>
      obtain ⟨before, e, after, rfl, he, hafter⟩ := findSome?_reverse_eq_some_iff.1 hfound
      exact .argument hdepth (deeper e he) fun f hf => deeper f (hafter f hf)
  | object properties =>
    rw [componentAt?_object hdepth, findSome?_filterMap]
    cases hfound : properties.findSome? fun p =>
        (renderValue? p).bind (componentAt? declared (depth + 1)) with
    | none =>
      refine .noMember hdepth fun f hf => deeper f ?_
      have h := List.findSome?_eq_none_iff.1 hfound _ hf
      rwa [renderValue?_eq_some_iff.2 rfl] at h
    | some span =>
      obtain ⟨before, p, after, rfl, hp, hbefore⟩ := List.findSome?_eq_some_iff.1 hfound
      obtain ⟨e, hvalue, he⟩ := Option.bind_eq_some_iff.1 hp
      rw [renderValue?_eq_some_iff.1 hvalue]
      refine .member hdepth (deeper e he) fun f hf => deeper f ?_
      have h := hbefore _ hf
      rwa [renderValue?_eq_some_iff.2 rfl] at h
  | identifier name =>
    rw [componentAt?_identifier hdepth]
    split
    next hfind => exact .boundFunction hdepth hfind
    next value hfind =>
      cases value with
      | none => exact .unset hdepth hfind
      | some e => exact .boundValue hdepth hfind (deeper e rfl)
    next hfind => exact .unbound hdepth hfind
  | _ =>
    rw [componentAt?_other rfl]
    exact .other hdepth rfl
termination_by (maxIndirections + 1 - depth, sizeOf e)
decreasing_by
  · exact Prod.Lex.left _ _ (by omega)
  · refine Prod.Lex.right _ ?_
    simp

/-- **The search for the markup of an expression ends, with one result.** -/
theorem existsUnique_resolves (declared : List Declared) (depth : Nat) (e : Expr) :
    ∃! found, Resolves declared depth e found :=
  ⟨_, resolves_at declared depth e, fun _ h => h.eq⟩

theorem resolves_iff_componentAt? {e : Expr} {found : Option Span} :
    Resolves declared depth e found ↔ componentAt? declared depth e = found :=
  ⟨fun h => h.eq.symm, fun h => h ▸ resolves_at declared depth e⟩

end At

/-! ## The functions that a component leads to -/

/-- The functions that an expression leads to, by their bodies. -/
inductive Leads (declared : List Declared) : Expr → Body → Prop
  | parenthesized {e : Expr} {b : Body} (h : Leads declared e b) :
    Leads declared (.parenthesized e) b
  | arrow (b : Body) : Leads declared (.arrow b) b
  | function (body : List Stmt) : Leads declared (.function body) (.block body)
  | argument {e : Expr} {arguments : List Expr} {b : Body} (he : e ∈ arguments)
    (h : Leads declared e b) : Leads declared (.call arguments) b
  | member {e : Expr} {properties : List Property} {b : Body}
    (he : .named (some renderName) e ∈ properties) (h : Leads declared e b) :
    Leads declared (.object properties) b
  | boundFunction {name : Text} {name' : Option Text} {body : List Stmt}
    (hfind : declared.find? (·.name == some name) = some (.function name' (some body))) :
    Leads declared (.identifier name) (.block body)
  | boundValue {name : Text} {name' : Option Text} {e : Expr} {b : Body}
    (hfind : declared.find? (·.name == some name) = some (.bound name' (some e)))
    (h : Leads declared e b) : Leads declared (.identifier name) b

theorem exists_renders_of_bind {body : Option (List Stmt)} {span : Span}
    (h : body.bind finalMarkup? = some span) :
    ∃ b, body = some b ∧ (Body.block b).Renders span := by
  obtain ⟨b, rfl, hb⟩ := Option.bind_eq_some_iff.1 h
  exact ⟨b, rfl, Body.renders_iff.2 hb⟩

/-- What is found is the markup of a function that the expression leads to. -/
theorem Resolves.exists_leads {declared : List Declared} {depth : Nat} {e : Expr}
    {found : Option Span} (h : Resolves declared depth e found) {span : Span}
    (hspan : found = some span) : ∃ b, Leads declared e b ∧ b.Renders span := by
  induction h with
  | tooDeep | noArgument | noMember | unset | unbound | other => cases hspan
  | parenthesized _ _ ih =>
    obtain ⟨b, hb, hrenders⟩ := ih hspan
    exact ⟨b, .parenthesized hb, hrenders⟩
  | @arrow _ body => exact ⟨body, .arrow body, Body.renders_iff.2 hspan⟩
  | @function _ body => exact ⟨.block body, .function body, Body.renders_iff.2 hspan⟩
  | argument _ _ _ ih =>
    obtain ⟨b, hb, hrenders⟩ := ih hspan
    exact ⟨b, .argument (by simp) hb, hrenders⟩
  | member _ _ _ ih =>
    obtain ⟨b, hb, hrenders⟩ := ih hspan
    exact ⟨b, .member (by simp) hb, hrenders⟩
  | boundFunction _ hfind =>
    obtain ⟨body, rfl, hrenders⟩ := exists_renders_of_bind hspan
    exact ⟨.block body, .boundFunction hfind, hrenders⟩
  | boundValue _ hfind _ ih =>
    obtain ⟨b, hb, hrenders⟩ := ih hspan
    exact ⟨b, .boundValue hfind hb, hrenders⟩

/-! ## Bindings and default exports -/

section Module

variable (declared : List Declared)

/-- What the search finds for a binding. -/
inductive Declared.Resolves : Declared → Option Span → Prop
  | function (name : Option Text) (body : Option (List Stmt)) :
    Resolves (.function name body) (body.bind finalMarkup?)
  | unset (name : Option Text) : Resolves (.bound name none) none
  | value {name : Option Text} {e : Expr} {found : Option Span}
    (h : Script.Resolves declared 0 e found) : Resolves (.bound name (some e)) found

/-- What the search finds for a default export. -/
inductive DefaultExport.Resolves : DefaultExport → Option Span → Prop
  | function (body : Option (List Stmt)) : Resolves (.function body) (body.bind finalMarkup?)
  | expression {e : Expr} {found : Option Span} (h : Script.Resolves declared 0 e found) :
    Resolves (.expression e) found
  | other : Resolves .other none

/-- The functions that a binding leads to. -/
inductive Declared.Leads : Declared → Body → Prop
  | function (name : Option Text) (body : List Stmt) :
    Leads (.function name (some body)) (.block body)
  | value {name : Option Text} {e : Expr} {b : Body} (h : Script.Leads declared e b) :
    Leads (.bound name (some e)) b

/-- The functions that a default export leads to. -/
inductive DefaultExport.Leads : DefaultExport → Body → Prop
  | function (body : List Stmt) : Leads (.function (some body)) (.block body)
  | expression {e : Expr} {b : Body} (h : Script.Leads declared e b) : Leads (.expression e) b

variable {declared}

theorem Declared.resolves_iff_markup? {d : Declared} {found : Option Span} :
    d.Resolves declared found ↔ d.markup? declared = found := by
  constructor
  · rintro (⟨name, body⟩ | ⟨name⟩ | ⟨h⟩)
    · rfl
    · rfl
    · exact Script.resolves_iff_componentAt?.1 h
  · rintro rfl
    cases d with
    | function name body => exact .function name body
    | bound name value =>
      cases value with
      | none => exact .unset name
      | some e => exact .value (resolves_at declared 0 e)

theorem DefaultExport.resolves_iff_markup? {e : DefaultExport} {found : Option Span} :
    e.Resolves declared found ↔ e.markup? declared = found := by
  constructor
  · rintro (⟨body⟩ | ⟨h⟩ | _)
    · rfl
    · exact Script.resolves_iff_componentAt?.1 h
    · rfl
  · rintro rfl
    cases e with
    | function body => exact .function body
    | expression e => exact .expression (resolves_at declared 0 e)
    | other => exact .other

theorem Declared.exists_leads {d : Declared} {span : Span} (h : d.markup? declared = some span) :
    ∃ b, d.Leads declared b ∧ b.Renders span := by
  cases d with
  | function name body =>
    obtain ⟨b, rfl, hrenders⟩ := exists_renders_of_bind h
    exact ⟨_, .function name b, hrenders⟩
  | bound name value =>
    obtain ⟨e, rfl, he⟩ := Option.bind_eq_some_iff.1 h
    obtain ⟨b, hb, hrenders⟩ := (resolves_at declared 0 e).exists_leads he
    exact ⟨b, .value hb, hrenders⟩

theorem DefaultExport.exists_leads {e : DefaultExport} {span : Span}
    (h : e.markup? declared = some span) : ∃ b, e.Leads declared b ∧ b.Renders span := by
  cases e with
  | function body =>
    obtain ⟨b, rfl, hrenders⟩ := exists_renders_of_bind h
    exact ⟨_, .function b, hrenders⟩
  | expression e =>
    obtain ⟨b, hb, hrenders⟩ := (resolves_at declared 0 e).exists_leads h
    exact ⟨b, .expression hb, hrenders⟩
  | other => cases h

end Module

/-! ## Modules -/

/-- The bindings at the top level of a module, in order. -/
def declaredBy (statements : List Stmt) : List Declared := statements.flatMap Declared.ofStatement

/-- The first default export of a module, if there is one. -/
def exportedBy? (statements : List Stmt) : Option DefaultExport :=
  statements.findSome? Stmt.defaultExport?

/-- The functions that the default export or a binding of a module leads to. -/
def ModuleLeads (statements : List Stmt) (b : Body) : Prop :=
  (∃ e ∈ exportedBy? statements, e.Leads (declaredBy statements) b) ∨
    ∃ d ∈ declaredBy statements, d.Leads (declaredBy statements) b

/-- **The markup of a module.** The search for it ends. What it finds is markup, up to parentheses,
that a function of the module returns last or an arrow function is; it is that of the default export
if that has any, and else that of the last binding that has any. -/
theorem moduleMarkup?_resolves (statements : List Stmt) :
    (∀ depth e, ∃! found, Resolves (declaredBy statements) depth e found) ∧
      (∀ span, moduleMarkup? statements = some span →
        ∃ b, ModuleLeads statements b ∧ b.Renders span) ∧
      (∀ e ∈ exportedBy? statements, ∀ span, e.Resolves (declaredBy statements) (some span) →
        moduleMarkup? statements = some span) ∧
      ((∀ e ∈ exportedBy? statements, e.Resolves (declaredBy statements) none) →
        ∀ span, moduleMarkup? statements = some span ↔
          ∃ before d after, declaredBy statements = before ++ d :: after ∧
            d.Resolves (declaredBy statements) (some span) ∧
            ∀ d' ∈ after, d'.Resolves (declaredBy statements) none) := by
  have hmodule : moduleMarkup? statements =
      ((exportedBy? statements).bind (DefaultExport.markup? (declaredBy statements))).or
        ((declaredBy statements).reverse.findSome? (Declared.markup? (declaredBy statements))) := rfl
  simp only [DefaultExport.resolves_iff_markup?, Declared.resolves_iff_markup?, hmodule]
  refine ⟨existsUnique_resolves _, fun span hspan => ?_, fun e he span hspan => ?_,
    fun hnone span => ?_⟩
  · rcases Option.or_eq_some_iff.1 hspan with hexported | ⟨-, hdeclared⟩
    · obtain ⟨e, he, hmarkup⟩ := Option.bind_eq_some_iff.1 hexported
      obtain ⟨b, hb, hrenders⟩ := DefaultExport.exists_leads hmarkup
      exact ⟨b, .inl ⟨e, he, hb⟩, hrenders⟩
    · obtain ⟨d, hd, hmarkup⟩ := List.exists_of_findSome?_eq_some hdeclared
      obtain ⟨b, hb, hrenders⟩ := Declared.exists_leads hmarkup
      exact ⟨b, .inr ⟨d, List.mem_reverse.1 hd, hb⟩, hrenders⟩
  · rw [Option.mem_def.1 he, Option.bind_some, hspan, Option.some_or]
  · rw [Option.bind_eq_none_iff.2 hnone, Option.none_or]
    exact findSome?_reverse_eq_some_iff

/-- A module whose default export is bound in a circle, and a component behind it. -/
def circle : List Stmt :=
  [.variables [.mk (some ['a']) (some (.identifier ['b']))],
    .variables [.mk (some ['b']) (some (.call [.identifier ['c'], .identifier ['a']]))],
    .exported (.variables [.mk (some ['c']) (some (.object
      [.named (some renderName) (.function [.returns (some (.parenthesized (.markup ⟨60, 64⟩))),
        .other])]))]),
    .variables [.mk (some ['d']) (some (.identifier ['d'])), .mk none none],
    .exportedDefault (.expression (.parenthesized (.identifier ['d'])))]

/-- The default export of the circle has no markup, and the last binding that has some is `c`. -/
theorem moduleMarkup?_resolves_circle :
    (∀ e ∈ exportedBy? circle, e.Resolves (declaredBy circle) none) ∧
      moduleMarkup? circle = some ⟨60, 64⟩ ∧
      ∃ b, ModuleLeads circle b ∧ b.Renders ⟨60, 64⟩ := by
  have hexported : ∀ e ∈ exportedBy? circle, e.Resolves (declaredBy circle) none := by
    rintro e ⟨⟩
    exact DefaultExport.resolves_iff_markup?.2 rfl
  obtain ⟨-, hform, -, hlast⟩ := moduleMarkup?_resolves circle
  have hmarkup : moduleMarkup? circle = some ⟨60, 64⟩ := by
    refine (hlast hexported _).2
      ⟨(declaredBy circle).take 2, _, (declaredBy circle).drop 3, rfl, ?_, ?_⟩
    · exact Declared.resolves_iff_markup?.2 rfl
    · rintro d hd
      rcases List.mem_pair.1 hd with rfl | rfl <;> exact Declared.resolves_iff_markup?.2 rfl
  exact ⟨hexported, hmarkup, hform _ hmarkup⟩

end MarkupSync.Script
