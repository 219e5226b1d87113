/-!
# Outcomes

* `Outcome`: what is left after a step that may fail on its way, and the error if it did;
* `Outcome.run`: steps for the items of a list, up to the first that fails.
-/

namespace MarkupSync

/-- A state after a step, and why the step failed if it did. -/
structure Outcome (σ ε : Type) where
  state : σ
  error : Option ε

namespace Outcome

variable {σ ε : Type}

/-- Go on with `f` unless there was an error. -/
def andThen (o : Outcome σ ε) (f : σ → Outcome σ ε) : Outcome σ ε :=
  match o.error with
  | none => f o.state
  | some _ => o

/-- The state, or the error. -/
def result (o : Outcome σ ε) : Except ε σ :=
  match o.error with
  | none => .ok o.state
  | some e => .error e

/-- The outcome of a step from the state `s` that changes nothing if it fails. -/
def ofExcept (s : σ) : Except ε σ → Outcome σ ε
  | .ok t => ⟨t, none⟩
  | .error e => ⟨s, some e⟩

/-- Take a step for every item of a list, up to the first that fails. -/
def run {α : Type} (step : σ → α → Outcome σ ε) (s : σ) : List α → Outcome σ ε
  | [] => ⟨s, none⟩
  | a :: as => (step s a).andThen fun s => run step s as

theorem result_ofExcept (s : σ) (r : Except ε σ) : (ofExcept s r).result = r := by
  cases r <;> rfl

theorem eq_of_result {o : Outcome σ ε} {s : σ} (h : o.result = .ok s) : o = ⟨s, none⟩ := by
  obtain ⟨state, error⟩ := o
  cases error <;> cases h
  rfl

theorem run_cons_of_ok {α : Type} {step : σ → α → Outcome σ ε} {s t : σ} {a : α} {as : List α}
    (h : (step s a).result = .ok t) : run step s (a :: as) = run step t as := by
  rw [run, eq_of_result h]
  rfl

theorem run_cons_of_error {α : Type} {step : σ → α → Outcome σ ε} {s : σ} {a : α} {as : List α}
    {e : ε} (h : (step s a).result = .error e) : (run step s (a :: as)).result = .error e := by
  rw [run, andThen]
  rw [result] at h
  split at h
  next => cases h
  next f hf =>
    cases h
    simp only [hf, result]

end Outcome

theorem eq_ok_of_toOption {ε α : Type} {x : Except ε α} {a : α} (h : x.toOption = some a) :
    x = .ok a := by
  cases x with
  | error e => cases h
  | ok b => exact congrArg Except.ok (Option.some.inj h)

theorem exists_of_map_eq_ok {ε α β : Type} {x : Except ε α} {f : α → β} {b : β}
    (h : x.map f = .ok b) : ∃ a, x = .ok a ∧ f a = b := by
  cases x with
  | error e => cases h
  | ok a => exact ⟨a, rfl, Except.ok.inj h⟩

/-- Two computations with the same value either both fail or both succeed. -/
theorem cases_of_map_eq {ε α β γ : Type} {x : Except ε α} {y : Except ε β} {f : α → γ} {g : β → γ}
    (h : x.map f = y.map g) :
    (∃ e, x = .error e ∧ y = .error e) ∨ ∃ a b, x = .ok a ∧ y = .ok b ∧ f a = g b := by
  cases x <;> cases y
  case error.error e e' => exact .inl ⟨e, rfl, congrArg Except.error (Except.error.inj h).symm⟩
  case ok.ok a b => exact .inr ⟨a, b, rfl, rfl, Except.ok.inj h⟩
  all_goals cases h

end MarkupSync
