import MarkupSync.Proofs.Script.Word
import MarkupSync.Script.Rule

/-!
# Rules stay in their script

* `HasPlaces`, `Located`: values with places in a source, such as syntax trees with the bytes of
  their markup;
* `Rule.Locates`: a rule goes from places of a source to places of it, and what it reads has its
  places there. Rules are put together by instances, one for each combinator;
* `Phrases.Locate`: all rules of a grammar do;
* `Expr.StandsIn`, …: all markup in a syntax tree stands in the source.
-/

namespace MarkupSync.Script

open Text

/-! ## Values with places -/

/-- Values with places in a source. -/
class HasPlaces (α : Type) where
  /-- All places in a value are places of the source. -/
  areIn : Text → α → Prop

/-- All places in `a` are places of the source. -/
class Located (source : Text) {α : Type} [HasPlaces α] (a : α) : Prop where
  areIn : HasPlaces.areIn source a

section Places

instance : HasPlaces Unit := ⟨fun _ _ => True⟩

instance : HasPlaces Bool := ⟨fun _ _ => True⟩

instance : HasPlaces Char := ⟨fun _ _ => True⟩

instance : HasPlaces Setting := ⟨fun _ _ => True⟩

instance : HasPlaces Cursor := ⟨fun source c => c.StandsIn source⟩

instance : HasPlaces Span := ⟨fun source r => Boundary r.start source ∧ Boundary r.stop source⟩

variable {α β : Type} [HasPlaces α] [HasPlaces β]

instance : HasPlaces (List α) := ⟨fun source as => ∀ a ∈ as, HasPlaces.areIn source a⟩

instance : HasPlaces (Option α) := ⟨fun source o => ∀ a ∈ o, HasPlaces.areIn source a⟩

instance : HasPlaces (α × β) :=
  ⟨fun source ab => HasPlaces.areIn source ab.1 ∧ HasPlaces.areIn source ab.2⟩

end Places

section Located

variable {source : Text} {α β : Type} [HasPlaces α] [HasPlaces β]

instance (u : Unit) : Located source u := ⟨trivial⟩

instance (b : Bool) : Located source b := ⟨trivial⟩

instance (t : Text) : Located source t := ⟨fun _ _ => trivial⟩

instance (s : Setting) : Located source s := ⟨trivial⟩

/-- A value that comes with its places. -/
instance (a : {a : α // Located source a}) : Located source a.1 := a.2

instance : Located source (none : Option α) := ⟨fun _ h => nomatch h⟩

instance (a : α) [h : Located source a] : Located source (some a) :=
  ⟨fun _ hb => Option.some.inj hb ▸ h.areIn⟩

instance : Located source ([] : List α) := ⟨fun _ h => nomatch h⟩

instance (a : α) (as : List α) [h : Located source a] [hs : Located source as] :
    Located source (a :: as) := ⟨List.forall_mem_cons.2 ⟨h.areIn, hs.areIn⟩⟩

instance (a : α) (b : β) [h : Located source a] [h' : Located source b] : Located source (a, b) :=
  ⟨⟨h.areIn, h'.areIn⟩⟩

instance (c : Cursor) [h : Located source c] : Located source c.next := ⟨h.areIn.next⟩

instance (c : Cursor) (n : Nat) [h : Located source c] : Located source (c.skip n) :=
  ⟨h.areIn.skip n⟩

/-- A range from the start of a word to the end of another. -/
instance (c d : Cursor) [h : Located source c] [h' : Located source d] :
    Located source (⟨c.start, d.stop⟩ : Span) :=
  ⟨⟨h.areIn.text.boundary_start, h'.areIn.rest.boundary_start⟩⟩

instance (b : Prop) [Decidable b] (x y : α) [hx : Located source x] [hy : Located source y] :
    Located source (if b then x else y) := by
  split <;> assumption

theorem Located.fst {ab : α × β} (h : Located source ab) : Located source ab.1 := ⟨h.areIn.1⟩

theorem Located.snd {ab : α × β} (h : Located source ab) : Located source ab.2 := ⟨h.areIn.2⟩

theorem Located.of_some {a : α} (h : Located source (some a)) : Located source a := ⟨h.areIn a rfl⟩

theorem Located.of_mem {a : α} {as : List α} (h : Located source as) (ha : a ∈ as) :
    Located source a := ⟨h.areIn a ha⟩

end Located

/-! ## Rules -/

/-- From places of the source a rule goes to places of it, and what it reads has its places there. -/
class Rule.Locates (source : Text) {α : Type} [HasPlaces α] (p : Rule α) : Prop where
  spec {s : Setting} {c d : Cursor} {a : α} : Located source c → p s c = some (a, d) →
    Located source a ∧ Located source d

namespace Rule

/-- Rules are read one behind the other. -/
theorem bind_apply {α β : Type} (p : Rule α) (f : α → Rule β) (s : Setting) (c : Cursor) :
    (p >>= f) s c = (p s c).bind fun found => f found.1 s found.2 := by
  dsimp only [bind]
  cases p s c <;> rfl

section Combinators

variable {source : Text} {α β : Type} [HasPlaces α] [HasPlaces β]

instance (a : α) [ha : Located source a] : Locates source (pure a : Rule α) where
  spec hc h := by
    cases h
    exact ⟨ha, hc⟩

theorem locates_bind {p : Rule α} {f : α → Rule β} [hp : Locates source p]
    (hf : ∀ a : {a : α // Located source a}, Locates source (f a.1)) :
    Locates source (p >>= f) where
  spec {s c d b} hc h := by
    rw [bind_apply] at h
    obtain ⟨⟨a, c'⟩, hpc, h⟩ := Option.bind_eq_some_iff.1 h
    obtain ⟨ha, hc'⟩ := hp.spec hc hpc
    exact (hf ⟨a, ha⟩).spec hc' h

instance (p : Rule α) (f : α → Rule β) [Locates source p]
    [hf : ∀ a : {a : α // Located source a}, Locates source (f a.1)] :
    Locates source (p >>= f) := locates_bind hf

instance (f : α → β) (p : Rule α) [Locates source p]
    [∀ a : {a : α // Located source a}, Located source (f a.1)] : Locates source (f <$> p) :=
  inferInstanceAs (Locates source (p >>= fun a => pure (f a)))

instance (b : Prop) [Decidable b] (p q : Rule α) [hp : Locates source p] [hq : Locates source q] :
    Locates source (if b then p else q) := by
  split <;> assumption

instance : Locates source (refuse : Rule α) := ⟨fun _ h => nomatch h⟩

instance (p q : Rule α) [hp : Locates source p] [hq : Locates source q] :
    Locates source (orElse p q) where
  spec {s c d a} hc h := by
    unfold orElse at h
    split at h
    · exact hq.spec hc h
    next found hp' =>
      cases h
      exact hp.spec hc hp'

instance (f : Setting → Setting) (p : Rule α) [hp : Locates source p] :
    Locates source (inSetting f p) := ⟨fun hc h => hp.spec hc h⟩

instance : Locates source setting where
  spec hc h := by
    cases h
    exact ⟨⟨trivial⟩, hc⟩

instance : Locates source cursor where
  spec hc h := by
    cases h
    exact ⟨hc, hc⟩

instance (c : Cursor) [hd : Located source c] : Locates source (goto c) where
  spec hc h := by
    cases h
    exact ⟨⟨trivial⟩, hd⟩

instance : Locates source advance where
  spec {s c d a} hc h := by
    cases h
    exact ⟨⟨trivial⟩, inferInstance⟩

instance (b : Bool) : Locates source (check b) := by
  unfold check
  infer_instance

instance (p : Rule α) [hp : Locates source p] : Locates source (ahead p) where
  spec {s c d o} hc h := by
    cases h
    cases hpc : p s c with
    | none => exact ⟨inferInstanceAs (Located source (none : Option α)), hc⟩
    | some ad =>
      have ha := (hp.spec hc hpc).1
      exact ⟨inferInstanceAs (Located source (some ad.1)), hc⟩

instance (p : Rule α) [hp : Locates source p] : Locates source (optional p) where
  spec {s c d o} hc h := by
    unfold optional at h
    split at h
    · cases h
      exact ⟨inferInstance, hc⟩
    next a c' hpc =>
      cases h
      obtain ⟨ha, hc'⟩ := hp.spec hc hpc
      exact ⟨inferInstance, hc'⟩

instance (b : Bool) (p : Rule Unit) [Locates source p] : Locates source (onlyIf b p) := by
  unfold onlyIf
  infer_instance

instance (p : Rule α) [hp : Locates source p] (n : Nat) : Locates source (manyUpTo p n) := by
  induction n with
  | zero => exact inferInstanceAs (Locates source (pure []))
  | succ n ih =>
    refine ⟨fun {s c d as} hc h => ?_⟩
    unfold manyUpTo at h
    split at h
    · cases h
      exact ⟨inferInstance, hc⟩
    next a c' hpc =>
      obtain ⟨ha, hc'⟩ := hp.spec hc hpc
      split at h
      · cases h
      next as' e hrest =>
        cases h
        obtain ⟨has, hd⟩ := ih.spec hc' hrest
        exact ⟨inferInstance, hd⟩

instance (p : Rule α) [Locates source p] : Locates source (many p) :=
  ⟨fun hc h => Locates.spec (p := manyUpTo p _) hc h⟩

instance (stop : Cursor → Bool) (p : Rule α) [hp : Locates source p] (n : Nat) :
    Locates source (tillUpTo stop p n) := by
  induction n with
  | zero => exact inferInstanceAs (Locates source refuse)
  | succ n ih =>
    refine ⟨fun {s c d as} hc h => ?_⟩
    unfold tillUpTo at h
    split at h
    · cases h
      exact ⟨inferInstance, hc⟩
    split at h
    · cases h
    next a c' hpc =>
      obtain ⟨ha, hc'⟩ := hp.spec hc hpc
      split at h
      · cases h
      next as' e hrest =>
        cases h
        obtain ⟨has, hd⟩ := ih.spec hc' hrest
        exact ⟨inferInstance, hd⟩

instance (stop : Cursor → Bool) (p : Rule α) [Locates source p] :
    Locates source (manyTill stop p) :=
  ⟨fun hc h => Locates.spec (p := tillUpTo stop p _) hc h⟩

end Combinators

/-! ## Words -/

section Words

variable {source : Text} {α : Type} [HasPlaces α]

instance (t : String) : Locates source (isSign t) := by
  unfold isSign
  infer_instance

instance (t : String) : Locates source (isName t) := by
  unfold isName
  infer_instance

instance (t : String) : Locates source (takeSign t) := by
  unfold takeSign
  infer_instance

instance (t : String) : Locates source (takeName t) := by
  unfold takeName
  infer_instance

instance (t : String) : Locates source (sign t) := by
  unfold sign
  infer_instance

instance (t : String) : Locates source (keyword t) := by
  unfold keyword
  infer_instance

instance : Locates source anyName := by
  unfold anyName
  refine locates_bind fun c => ?_
  split <;> infer_instance

instance : Locates source identifier := by
  unfold identifier
  infer_instance

instance : Locates source sameLine := by
  unfold sameLine
  infer_instance

instance : Locates source endStatement := by
  unfold endStatement
  infer_instance

instance (close : String) (p : Rule α) [Locates source p] : Locates source (listUntil close p) := by
  unfold listUntil
  dsimp only
  infer_instance

instance (separator : String) (p : Rule α) [Locates source p] :
    Locates source (separated separator p) := by
  unfold separated
  infer_instance

end Words

end Rule

/-! ## Syntax trees -/

mutual

/-- All markup in an expression stands in the source. -/
inductive Expr.StandsIn (source : Text) : Expr → Prop
  | identifier (name : Text) : Expr.StandsIn source (.identifier name)
  | parenthesized {e : Expr} (he : Expr.StandsIn source e) : Expr.StandsIn source (.parenthesized e)
  | arrow {body : Body} (hbody : Body.StandsIn source body) : Expr.StandsIn source (.arrow body)
  | function {body : List Stmt} (hbody : ∀ s ∈ body, Stmt.StandsIn source s) :
    Expr.StandsIn source (.function body)
  | call {arguments : List Expr} (hes : ∀ e ∈ arguments, Expr.StandsIn source e) :
    Expr.StandsIn source (.call arguments)
  | object {properties : List Property} (hps : ∀ p ∈ properties, Property.StandsIn source p) :
    Expr.StandsIn source (.object properties)
  | array {items : List Expr} (hes : ∀ e ∈ items, Expr.StandsIn source e) :
    Expr.StandsIn source (.array items)
  | spread {e : Expr} (he : Expr.StandsIn source e) : Expr.StandsIn source (.spread e)
  | assignment {e : Expr} (he : Expr.StandsIn source e) : Expr.StandsIn source (.assignment e)
  | member : Expr.StandsIn source .member
  | prefixed : Expr.StandsIn source .prefixed
  | markup {span : Span} (h : Text.Boundary span.start source ∧ Text.Boundary span.stop source) :
    Expr.StandsIn source (.markup span)
  | other : Expr.StandsIn source .other

/-- All markup in the body of an arrow function stands in the source. -/
inductive Body.StandsIn (source : Text) : Body → Prop
  | expression {e : Expr} (he : Expr.StandsIn source e) : Body.StandsIn source (.expression e)
  | block {statements : List Stmt} (hs : ∀ s ∈ statements, Stmt.StandsIn source s) :
    Body.StandsIn source (.block statements)

/-- All markup in a member of an object stands in the source. -/
inductive Property.StandsIn (source : Text) : Property → Prop
  | named (name : Option Text) {e : Expr} (he : Expr.StandsIn source e) :
    Property.StandsIn source (.named name e)
  | spread {e : Expr} (he : Expr.StandsIn source e) : Property.StandsIn source (.spread e)

/-- All markup in a statement stands in the source. -/
inductive Stmt.StandsIn (source : Text) : Stmt → Prop
  | expression {e : Expr} (he : Expr.StandsIn source e) : Stmt.StandsIn source (.expression e)
  | returns {o : Option Expr} (ho : ∀ e ∈ o, Expr.StandsIn source e) :
    Stmt.StandsIn source (.returns o)
  | function (name : Option Text) {body : Option (List Stmt)}
    (hbody : ∀ b ∈ body, ∀ s ∈ b, Stmt.StandsIn source s) :
    Stmt.StandsIn source (.function name body)
  | variables {ds : List Declarator} (hds : ∀ d ∈ ds, Declarator.StandsIn source d) :
    Stmt.StandsIn source (.variables ds)
  | exported {s : Stmt} (hs : Stmt.StandsIn source s) : Stmt.StandsIn source (.exported s)
  | exportedDefault {e : DefaultExport} (he : DefaultExport.StandsIn source e) :
    Stmt.StandsIn source (.exportedDefault e)
  | other : Stmt.StandsIn source .other

/-- All markup in a declared variable stands in the source. -/
inductive Declarator.StandsIn (source : Text) : Declarator → Prop
  | mk (name : Option Text) {o : Option Expr} (ho : ∀ e ∈ o, Expr.StandsIn source e) :
    Declarator.StandsIn source (.mk name o)

/-- All markup in a default export stands in the source. -/
inductive DefaultExport.StandsIn (source : Text) : DefaultExport → Prop
  | function {body : Option (List Stmt)} (hbody : ∀ b ∈ body, ∀ s ∈ b, Stmt.StandsIn source s) :
    DefaultExport.StandsIn source (.function body)
  | expression {e : Expr} (he : Expr.StandsIn source e) :
    DefaultExport.StandsIn source (.expression e)
  | other : DefaultExport.StandsIn source .other

end

instance : HasPlaces Expr := ⟨fun source e => e.StandsIn source⟩

instance : HasPlaces Body := ⟨fun source b => b.StandsIn source⟩

instance : HasPlaces Property := ⟨fun source p => p.StandsIn source⟩

instance : HasPlaces Stmt := ⟨fun source s => s.StandsIn source⟩

instance : HasPlaces Declarator := ⟨fun source d => d.StandsIn source⟩

instance : HasPlaces DefaultExport := ⟨fun source e => e.StandsIn source⟩

section

variable {source : Text}

instance (name : Text) : Located source (Expr.identifier name) := ⟨.identifier name⟩

instance (e : Expr) [h : Located source e] : Located source e.parenthesized :=
  ⟨.parenthesized h.areIn⟩

instance (b : Body) [h : Located source b] : Located source (Expr.arrow b) := ⟨.arrow h.areIn⟩

instance (b : List Stmt) [h : Located source b] : Located source (Expr.function b) :=
  ⟨.function h.areIn⟩

instance (es : List Expr) [h : Located source es] : Located source (Expr.call es) :=
  ⟨.call h.areIn⟩

instance (ps : List Property) [h : Located source ps] : Located source (Expr.object ps) :=
  ⟨.object h.areIn⟩

instance (es : List Expr) [h : Located source es] : Located source (Expr.array es) :=
  ⟨.array h.areIn⟩

instance (e : Expr) [h : Located source e] : Located source e.spread := ⟨.spread h.areIn⟩

instance (e : Expr) [h : Located source e] : Located source e.assignment := ⟨.assignment h.areIn⟩

instance : Located source Expr.member := ⟨.member⟩

instance : Located source Expr.prefixed := ⟨.prefixed⟩

instance (r : Span) [h : Located source r] : Located source (Expr.markup r) := ⟨.markup h.areIn⟩

instance : Located source Expr.other := ⟨.other⟩

instance (e : Expr) [h : Located source e] : Located source (Body.expression e) :=
  ⟨.expression h.areIn⟩

instance (b : List Stmt) [h : Located source b] : Located source (Body.block b) :=
  ⟨.block h.areIn⟩

instance (name : Option Text) (e : Expr) [h : Located source e] :
    Located source (Property.named name e) := ⟨.named name h.areIn⟩

instance (e : Expr) [h : Located source e] : Located source (Property.spread e) :=
  ⟨.spread h.areIn⟩

instance (e : Expr) [h : Located source e] : Located source (Stmt.expression e) :=
  ⟨.expression h.areIn⟩

instance (o : Option Expr) [h : Located source o] : Located source (Stmt.returns o) :=
  ⟨.returns h.areIn⟩

instance (name : Option Text) (b : Option (List Stmt)) [h : Located source b] :
    Located source (Stmt.function name b) := ⟨.function name h.areIn⟩

instance (ds : List Declarator) [h : Located source ds] : Located source (Stmt.variables ds) :=
  ⟨.variables h.areIn⟩

instance (s : Stmt) [h : Located source s] : Located source s.exported := ⟨.exported h.areIn⟩

instance (e : DefaultExport) [h : Located source e] : Located source (Stmt.exportedDefault e) :=
  ⟨.exportedDefault h.areIn⟩

instance : Located source Stmt.other := ⟨.other⟩

instance (name : Option Text) (o : Option Expr) [h : Located source o] :
    Located source (Declarator.mk name o) := ⟨.mk name h.areIn⟩

instance (b : Option (List Stmt)) [h : Located source b] :
    Located source (DefaultExport.function b) := ⟨.function h.areIn⟩

instance (e : Expr) [h : Located source e] : Located source (DefaultExport.expression e) :=
  ⟨.expression h.areIn⟩

instance : Located source DefaultExport.other := ⟨.other⟩

end

/-! ## Grammars -/

/-- All rules of a grammar go from places of the source to places of it. -/
class Phrases.Locate (source : Text) (r : Phrases) : Prop where
  expression : Rule.Locates source r.expression
  assignment : Rule.Locates source r.assignment
  unary : Rule.Locates source r.unary
  statement : Rule.Locates source r.statement
  binding : Rule.Locates source r.binding
  type : Rule.Locates source r.type
  markup : Rule.Locates source r.markup

attribute [instance] Phrases.Locate.expression Phrases.Locate.assignment Phrases.Locate.unary
  Phrases.Locate.statement Phrases.Locate.binding Phrases.Locate.type Phrases.Locate.markup

end MarkupSync.Script
