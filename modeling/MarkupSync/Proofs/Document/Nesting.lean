import MarkupSync.Outcome
import MarkupSync.Proofs.Document.Flow

/-!
# Well-nested markup

What a reader accepts, as a stack machine that sees nothing but the tokens of a text.

* `Level`, `Nesting`: what is open between two tokens;
* `Nesting.step`, `Nesting.run`: one token, and tokens in order;
* `Nesting.Rejects`: the tokens that close nothing, with the error they stand for;
* `Reader.run_tokens`, `Reader.run_flatMap_tokens`: what is open in a reader is what the tokens of
  its lexemes leave open;
* **`Document.readAt_nesting`**: the texts that are read are the well-nested ones, and the error of
  any other text is the first one.
-/

namespace MarkupSync

/-! ## The machine -/

/-- Something open, with the byte at which it was opened. -/
inductive Level
  | element (name : Text) (start : Nat)
  | fragment (start : Nat)
  deriving Repr, DecidableEq

/-- The error of a level that is never closed. -/
def Level.unclosed : Level → ParseError
  | element name start => ⟨.openElement name, start⟩
  | fragment start => ⟨.openFragment, start⟩

/-- What is open, innermost first, and the last tag that was begun. -/
structure Nesting where
  tag : Text × Nat
  levels : List Level
  deriving Repr, DecidableEq

namespace Nesting

/-- Nothing is open. -/
def start : Nesting := ⟨([], 0), []⟩

/-- Take a token. -/
def step (flavor : Flavor) (m : Nesting) : Token × Span → Except ParseError Nesting
  | (.openTag name, span) => .ok { m with tag := (name, span.start) }
  | (.tagEnd selfClosing, _) =>
    if selfClosing || isVoid m.tag.1 then .ok m
    else .ok { m with levels := .element m.tag.1 m.tag.2 :: m.levels }
  | (.fragmentOpen, span) => .ok { m with levels := .fragment span.start :: m.levels }
  | (.closeTag name, span) =>
    match m.levels with
    | .element tag _ :: levels =>
      if flavor.closes tag name then .ok { m with levels }
      else .error ⟨.mismatch tag name, span.start⟩
    | _ => .error ⟨.strayClose name, span.start⟩
  | (.fragmentClose, span) =>
    match m.levels with
    | .fragment _ :: levels => .ok { m with levels }
    | _ => .error ⟨.strayFragmentClose, span.start⟩
  | (.attr _, _) | (.text _, _) | (.raw _, _) | (.expression _, _) => .ok m

/-- Take tokens in order. -/
def run (flavor : Flavor) (m : Nesting) (ts : List (Token × Span)) : Except ParseError Nesting :=
  ts.foldlM (step flavor) m

variable {flavor : Flavor}

@[simp] theorem run_nil (m : Nesting) : m.run flavor [] = .ok m := rfl

@[simp] theorem run_cons (m : Nesting) (t : Token × Span) (ts : List (Token × Span)) :
    m.run flavor (t :: ts) = (m.step flavor t).bind (·.run flavor ts) := rfl

theorem run_append (m : Nesting) (ts us : List (Token × Span)) :
    m.run flavor (ts ++ us) = (m.run flavor ts).bind (·.run flavor us) :=
  List.foldlM_append

/-- A run fails at the first token that is not taken. -/
theorem run_eq_error {m : Nesting} {ts : List (Token × Span)} {e : ParseError} :
    m.run flavor ts = .error e ↔
      ∃ front t back k, ts = front ++ t :: back ∧ m.run flavor front = .ok k ∧
        k.step flavor t = .error e := by
  constructor
  · intro h
    induction ts generalizing m with
    | nil => cases h
    | cons t ts ih =>
      cases hstep : m.step flavor t with
      | error f =>
        rw [run_cons, hstep] at h
        cases h
        exact ⟨[], t, ts, m, rfl, rfl, hstep⟩
      | ok k =>
        rw [run_cons, hstep] at h
        obtain ⟨front, u, back, l, rfl, hfront, hu⟩ := ih h
        exact ⟨t :: front, u, back, l, rfl, by rw [run_cons, hstep]; exact hfront, hu⟩
  · rintro ⟨front, t, back, k, rfl, hfront, ht⟩
    rw [run_append, hfront]
    show run flavor k (t :: back) = .error e
    rw [run_cons, ht]
    rfl

/-- The tokens that close nothing: what they close is not what is innermost. -/
inductive Rejects (flavor : Flavor) : Nesting → Token × Span → ParseError → Prop
  | mismatch {tag : Text × Nat} {name : Text} {n : Nat} {levels : List Level} {found : Text}
    {span : Span} (h : flavor.closes name found = false) :
    Rejects flavor ⟨tag, .element name n :: levels⟩ (.closeTag found, span)
      ⟨.mismatch name found, span.start⟩
  | stray {m : Nesting} {found : Text} {span : Span}
    (h : ∀ name n, m.levels.head? ≠ some (.element name n)) :
    Rejects flavor m (.closeTag found, span) ⟨.strayClose found, span.start⟩
  | strayFragment {m : Nesting} {span : Span} (h : ∀ n, m.levels.head? ≠ some (.fragment n)) :
    Rejects flavor m (.fragmentClose, span) ⟨.strayFragmentClose, span.start⟩

theorem step_eq_error {m : Nesting} {t : Token × Span} {e : ParseError} :
    m.step flavor t = .error e ↔ m.Rejects flavor t e := by
  constructor
  · intro h
    obtain ⟨tag, levels⟩ := m
    revert h
    fun_cases step flavor ⟨tag, levels⟩ t with
    | case6 name span expected n rest hlevels hcloses =>
      rintro ⟨⟩
      subst hlevels
      exact .mismatch (by simpa using hcloses)
    | case7 name span hlevels =>
      rintro ⟨⟩
      refine .stray fun expected n h => ?_
      obtain ⟨rest, hrest⟩ := List.head?_eq_some_iff.1 h
      exact hlevels _ _ _ hrest
    | case9 span hlevels =>
      rintro ⟨⟩
      refine .strayFragment fun n h => ?_
      obtain ⟨rest, hrest⟩ := List.head?_eq_some_iff.1 h
      exact hlevels _ _ hrest
    | _ => rintro ⟨⟩
  · rintro (⟨h⟩ | ⟨h⟩ | ⟨h⟩)
    · simp [step, h]
    · rw [step]
      split
      next expected n _ hlevels => exact absurd (by rw [hlevels, List.head?_cons]) (h expected n)
      next => rfl
    · rw [step]
      split
      next n _ hlevels => exact absurd (by rw [hlevels, List.head?_cons]) (h n)
      next => rfl

theorem run_attrs (m : Nesting) (as : List RawAttribute) :
    m.run flavor (as.map fun a => (.attr a, a.span)) = .ok m := by
  induction as with
  | nil => rfl
  | cons a as ih => exact ih

/-- An open tag opens its element, unless it is closed at once. -/
theorem run_openTag (m : Nesting) (t : OpenTag) :
    m.run flavor t.tokens = .ok ⟨(t.name, t.nameSpan.start),
      if t.selfClosing || isVoid t.name then m.levels
      else .element t.name t.nameSpan.start :: m.levels⟩ := by
  rw [OpenTag.tokens, List.cons_append, run_cons]
  show run flavor ⟨(t.name, t.nameSpan.start), m.levels⟩ _ = _
  rw [run_append, run_attrs]
  show run flavor ⟨(t.name, t.nameSpan.start), m.levels⟩ _ = _
  rw [run_cons, step]
  split <;> cases t.raw <;> rfl

/-- What is said of the tokens of a text: nothing if they are well nested, and else the first
error. -/
def verdict (flavor : Flavor) (r : Scan) : Except ParseError Unit :=
  match start.run flavor r.tokens with
  | .error e => .error e
  | .ok m =>
    match r.fault, m.levels with
    | some e, _ => .error e
    | none, [] => .ok ()
    | none, l :: _ => .error l.unclosed

end Nesting

/-! ## Readers -/

/-- What is open, without its content. -/
def Opened.level : Opened → Level
  | element tag => .element tag.name tag.nameSpan.start
  | fragment span => .fragment span.start

theorem Opened.unclosed_level (o : Opened) : o.level.unclosed = o.unclosed := by cases o <;> rfl

namespace Reader

variable (flavor : Flavor)

/-- What is open in a reader, innermost first. -/
def levels (r : Reader) : List Level := r.stack.map fun o => o.1.level

/-- A lexeme opens and closes in a reader what its tokens open and close. -/
theorem run_tokens_stepTag (r : Reader) (l : Lexeme) (m : Nesting) (hm : m.levels = r.levels) :
    (m.run flavor l.tokens).map Nesting.levels = (r.stepTag flavor l).map levels := by
  rw [levels] at hm
  cases l with
  | text | expression =>
    exact congrArg Except.ok hm
  | fragmentOpen span => exact congrArg (fun ls => Except.ok (Level.fragment span.start :: ls)) hm
  | openTag t =>
    rw [Lexeme.tokens, Nesting.run_openTag, stepTag]
    split_ifs
    · exact congrArg Except.ok hm
    · exact congrArg (fun ls => Except.ok (Level.element t.name t.nameSpan.start :: ls)) hm
  | closeTag name span =>
    rw [Lexeme.tokens, Nesting.run_cons, Nesting.step, stepTag, hm]
    match r.stack with
    | [] => rfl
    | (.fragment _, _) :: _ => rfl
    | (.element tag, before) :: stack =>
      show (Except.bind (if flavor.closes tag.name name then _ else _) _).map _ = _
      simp only []
      split_ifs <;> rfl
  | fragmentClose span =>
    rw [Lexeme.tokens, Nesting.run_cons, Nesting.step, stepTag, hm]
    match r.stack with
    | [] => rfl
    | (.fragment _, _) :: _ => rfl
    | (.element _, _) :: _ => rfl

/-- A lexeme opens and closes in a reader what its tokens open and close. -/
theorem run_tokens (r : Reader) (l : Lexeme) (m : Nesting) (hm : m.levels = r.levels) :
    (m.run flavor l.tokens).map Nesting.levels = (r.step flavor l).map levels := by
  have hflush : m.levels = (r.flush flavor).levels := by rw [hm, levels, levels, stack_flush]
  cases l with
  | text => exact run_tokens_stepTag flavor r _ m hm
  | _ => exact run_tokens_stepTag flavor (r.flush flavor) _ m hflush

/-- Lexemes open and close in a reader what their tokens open and close. -/
theorem run_flatMap_tokens (r : Reader) (ls : List Lexeme) (m : Nesting) (hm : m.levels = r.levels) :
    (m.run flavor (ls.flatMap Lexeme.tokens)).map Nesting.levels =
      (r.steps flavor ls).map levels := by
  induction ls generalizing r m with
  | nil => exact congrArg Except.ok hm
  | cons l ls ih =>
    rw [List.flatMap_cons, Nesting.run_append, steps]
    obtain ⟨e, hrun, hstep⟩ | ⟨m', r', hrun, hstep, hm'⟩ :=
      cases_of_map_eq (run_tokens flavor r l m hm)
    · rw [hrun, hstep]
      rfl
    · rw [hrun, hstep]
      exact ih r' m' hm'

end Reader

/-! ## Documents -/

namespace Document

variable (flavor : Flavor) (n : Nat) (s : Text)

/-- A text is read if its tokens are well nested, and has their error if they are not. -/
theorem map_readAt :
    (readAt flavor n s).map (fun _ => ()) = Nesting.verdict flavor (scan flavor n s) := by
  rw [readAt, Nesting.verdict, Scan.nodes, Scan.tokens]
  obtain ⟨e, hrun, hsteps⟩ | ⟨m, r, hrun, hsteps, hm⟩ := cases_of_map_eq
    (Reader.run_flatMap_tokens flavor .start (scan flavor n s).lexemes .start rfl)
  · rw [hrun, hsteps]
    rfl
  · rw [hrun, hsteps]
    simp only [hm]
    cases hfault : (scan flavor n s).fault with
    | some e => rfl
    | none =>
      simp only [Reader.finish, Reader.levels]
      match r.stack with
      | [] => rfl
      | (o, before) :: stack => exact congrArg Except.error o.unclosed_level.symm

/-- **The texts that are read are the well-nested ones, and the error of any other text is the first
one**: at a token that closes nothing, where the lexemes end, or for what is open at the end. -/
theorem readAt_nesting :
    ((∃ d, readAt flavor n s = .ok d) ↔
      (scan flavor n s).fault = none ∧
        ∃ m, Nesting.start.run flavor (scan flavor n s).tokens = .ok m ∧ m.levels = []) ∧
    ∀ e, readAt flavor n s = .error e ↔
      (∃ front t back m, (scan flavor n s).tokens = front ++ t :: back ∧
        Nesting.start.run flavor front = .ok m ∧ m.Rejects flavor t e) ∨
      ∃ m, Nesting.start.run flavor (scan flavor n s).tokens = .ok m ∧
        ((scan flavor n s).fault = some e ∨ (scan flavor n s).fault = none ∧
          ∃ l ls, m.levels = l :: ls ∧ e = l.unclosed) := by
  have h := map_readAt flavor n s
  rw [Nesting.verdict] at h
  simp only [← Nesting.step_eq_error, ← Nesting.run_eq_error]
  cases hrun : Nesting.start.run flavor (scan flavor n s).tokens with
  | error e =>
    rw [hrun] at h
    cases hread : readAt flavor n s <;> rw [hread] at h <;> cases h
    simp
  | ok m =>
    rw [hrun] at h
    cases hfault : (scan flavor n s).fault with
    | some e =>
      simp only [hfault] at h
      cases hread : readAt flavor n s <;> rw [hread] at h <;> cases h
      simp
    | none =>
      simp only [hfault] at h
      cases hlevels : m.levels with
      | nil =>
        simp only [hlevels] at h
        cases hread : readAt flavor n s <;> rw [hread] at h <;> cases h
        simp [hlevels]
      | cons l ls =>
        simp only [hlevels] at h
        cases hread : readAt flavor n s <;> rw [hread] at h <;> cases h
        simp [hlevels, eq_comm]

example : Nesting.verdict .html (scan .html 0 "<a><br></b>".toList) =
    .error ⟨.mismatch "a".toList "b".toList, 7⟩ := by decide +kernel

end Document

end MarkupSync
