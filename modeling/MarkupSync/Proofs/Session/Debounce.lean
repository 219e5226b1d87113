import Mathlib.Data.List.Induction
import Mathlib.Data.List.Perm.Basic
import MarkupSync.Session.Debounce

/-!
# Debouncing loses and doubles nothing

* `Debouncer.queue`: the changes that wait, in the order in which they go;
* `Debouncer.take?_of_queue_cons`, `Debouncer.drain_eq`: the first goes when it is due, and all go
  in that order;
* `Debouncer.Request`, `Debouncer.Event`, `Debouncer.serve`: what is asked of a debouncer, and what
  happens then;
* `Debouncer.Holds`, `Debouncer.holds_serve`: on each side a change goes only when it waits, and the
  last that came waits until it goes;
* `Debouncer.Accounts`: every change that goes has come, and every change that has come goes once,
  is superseded or waits;
* **`Debouncer.accounts_serve`**: so it is whatever is asked, and what goes next is what is due
  first.
-/

namespace MarkupSync

namespace Debouncer

variable {d : Debouncer} {w : Nat × Change} {ws : List (Nat × Change)}

/-! ## Changes that wait -/

/-- The change of a direction that waits, with the time when it is due. -/
def held (d : Debouncer) : Direction → Option (Nat × Change)
  | .toCanvas => d.source.map fun (due, text) => (due, .source text)
  | .toSource => d.canvas.map fun due => (due, .canvas)

/-- The changes that wait. -/
def waiting (d : Debouncer) : List (Nat × Change) :=
  (d.held .toCanvas).toList ++ (d.held .toSource).toList

/-- The changes that wait, in the order in which they go. -/
def queue (d : Debouncer) : List (Nat × Change) :=
  if d.canvasIsFirst then (d.held .toSource).toList ++ (d.held .toCanvas).toList else d.waiting

/-- One change goes before another: it is due earlier, or at the same time and is the source. -/
def Precedes (w w' : Nat × Change) : Prop :=
  w.1 < w'.1 ∨ w.1 = w'.1 ∧ w.2.direction = .toCanvas

/-- Without the change of a direction. -/
def release (d : Debouncer) : Direction → Debouncer
  | .toCanvas => { d with source := none }
  | .toSource => { d with canvas := none }

theorem window_release (δ : Direction) : (d.release δ).window = d.window := by
  cases δ <;> rfl

theorem direction_of_held {δ : Direction} (h : d.held δ = some w) : w.2.direction = δ := by
  cases δ
  all_goals
    obtain ⟨_, -, rfl⟩ := Option.map_eq_some_iff.1 h
    rfl

theorem held_release (δ δ' : Direction) :
    (d.release δ).held δ' = if δ' = δ then none else d.held δ' := by
  cases δ <;> cases δ' <;> rfl

theorem perm_queue : d.queue.Perm d.waiting := by
  rw [queue]
  split_ifs
  · exact List.perm_append_comm
  · exact .refl _

theorem pairwise_queue : d.queue.Pairwise Precedes := by
  obtain ⟨window, _ | ⟨due, text⟩, _ | due'⟩ := d
  case some.some =>
    by_cases h : due' < due
    · simp [queue, canvasIsFirst, held, h, Precedes]
    · have hle : due < due' ∨ due = due' := by omega
      simpa [queue, waiting, canvasIsFirst, held, h, Precedes] using hle.imp_right fun h => ⟨h, rfl⟩
  all_goals simp [queue, waiting, canvasIsFirst, held]

/-- The queue has one change of a direction at most. -/
theorem filter_queue (d : Debouncer) (δ : Direction) :
    (d.queue.filter fun w => w.2.direction = δ) = (d.held δ).toList := by
  have hheld : ∀ δ', ((d.held δ').toList.filter fun w => w.2.direction = δ) =
      if δ' = δ then (d.held δ').toList else [] := by
    intro δ'
    cases hw : d.held δ' with
    | none => simp
    | some w => simp [List.filter_cons, direction_of_held hw]
  rw [queue, waiting]
  split_ifs <;> rw [List.filter_append, hheld, hheld] <;> cases δ <;> simp

theorem held_of_mem_queue (h : w ∈ d.queue) : d.held w.2.direction = some w := by
  have hmem : w ∈ (d.held w.2.direction).toList := by
    rw [← filter_queue]
    exact List.mem_filter.2 ⟨h, decide_eq_true rfl⟩
  exact Option.mem_toList.1 hmem

/-- The first of the changes goes when it is due. -/
theorem take?_of_queue_cons (h : d.queue = w :: ws) (now : Nat) :
    d.take? now = if w.1 ≤ now then some (w.2, d.release w.2.direction) else none := by
  obtain ⟨window, _ | ⟨due, text⟩, _ | due'⟩ := d
  case some.some =>
    by_cases hlt : due' < due
    all_goals
      simp only [queue, waiting, canvasIsFirst, held, hlt] at h
      cases h
      simp [take?, canvasIsFirst, takeCanvas?, takeSource?, hlt, release, Change.direction]
  all_goals cases h
  all_goals rfl

theorem queue_release (h : d.queue = w :: ws) : (d.release w.2.direction).queue = ws := by
  obtain ⟨window, _ | ⟨due, text⟩, _ | due'⟩ := d
  case some.some =>
    by_cases hlt : due' < due
    all_goals
      simp only [queue, waiting, canvasIsFirst, held, hlt] at h
      cases h
      rfl
  all_goals cases h
  all_goals rfl

theorem eq_idle_of_queue (h : d.queue = []) : d = idle d.window := by
  obtain ⟨window, _ | ⟨due, text⟩, _ | due'⟩ := d
  case none.none => rfl
  case some.some =>
    by_cases hlt : due' < due <;> simp [queue, waiting, canvasIsFirst, held, hlt] at h
  all_goals cases h

theorem take?_of_queue_nil (h : d.queue = []) (now : Nat) : d.take? now = none := by
  rw [eq_idle_of_queue h]
  rfl

/-- Nothing goes if nothing is due. -/
theorem take?_eq_none_iff {now : Nat} : d.take? now = none ↔ ∀ w ∈ d.waiting, now < w.1 := by
  have hwaiting : (∀ w ∈ d.waiting, now < w.1) ↔ ∀ w ∈ d.queue, now < w.1 :=
    forall_congr' fun w => by rw [perm_queue.mem_iff]
  rw [hwaiting]
  cases hqueue : d.queue with
  | nil => simp [take?_of_queue_nil hqueue]
  | cons w ws =>
    have hfirst := (List.pairwise_cons.1 (hqueue ▸ pairwise_queue (d := d))).1
    rw [take?_of_queue_cons hqueue, List.forall_mem_cons]
    refine ⟨fun h => ?_, fun h => if_neg (Nat.not_le_of_lt h.1)⟩
    have hlt : now < w.1 := by
      by_contra hle
      rw [if_pos (Nat.le_of_not_lt hle)] at h
      cases h
    refine ⟨hlt, fun w' hw' => ?_⟩
    obtain hearlier | ⟨hsame, -⟩ := hfirst w' hw' <;> omega

/-- What goes is due and precedes the other. -/
theorem exists_waiting_of_take? {now : Nat} {change : Change} {rest : Debouncer}
    (h : d.take? now = some (change, rest)) :
    ∃ due, (due, change) ∈ d.waiting ∧ due ≤ now ∧
      (∀ w ∈ d.waiting, w = (due, change) ∨ Precedes (due, change) w) ∧
      rest = d.release change.direction := by
  cases hqueue : d.queue with
  | nil =>
    rw [take?_of_queue_nil hqueue] at h
    cases h
  | cons w ws =>
    have hfirst := (List.pairwise_cons.1 (hqueue ▸ pairwise_queue (d := d))).1
    rw [take?_of_queue_cons hqueue] at h
    split_ifs at h with hdue
    cases h
    refine ⟨w.1, ?_, hdue, fun w' hw' => ?_, rfl⟩
    · rw [← perm_queue.mem_iff, hqueue]
      exact List.mem_cons_self
    · rw [← perm_queue.mem_iff, hqueue] at hw'
      exact (List.mem_cons.1 hw').imp_right (hfirst w')

theorem nextDeadline?_eq : d.nextDeadline? = d.queue.head?.map Prod.fst := by
  obtain ⟨window, _ | ⟨due, text⟩, _ | due'⟩ := d
  case some.some =>
    by_cases hlt : due' < due
    · simp [nextDeadline?, queue, canvasIsFirst, held, hlt, Nat.min_eq_right (Nat.le_of_lt hlt)]
    · simp [nextDeadline?, queue, waiting, canvasIsFirst, held, hlt,
        Nat.min_eq_left (Nat.le_of_not_lt hlt)]
  all_goals rfl

/-- **All changes go in order.** -/
theorem drain_eq : d.drain = (d.queue.map Prod.snd, idle d.window) := by
  fun_induction drain d with
  | case1 d hnone =>
    rw [nextDeadline?_eq, Option.map_eq_none_iff, List.head?_eq_none_iff] at hnone
    rw [hnone, ← eq_idle_of_queue hnone]
    rfl
  | case2 d due hdue htake =>
    rw [nextDeadline?_eq] at hdue
    obtain ⟨w, hhead, rfl⟩ := Option.map_eq_some_iff.1 hdue
    obtain ⟨ws, hqueue⟩ := List.head?_eq_some_iff.1 hhead
    rw [take?_of_queue_cons hqueue, if_pos (Nat.le_refl _)] at htake
    cases htake
  | case3 d due hdue change rest htake changes last hrest ih =>
    rw [nextDeadline?_eq] at hdue
    obtain ⟨w, hhead, rfl⟩ := Option.map_eq_some_iff.1 hdue
    obtain ⟨ws, hqueue⟩ := List.head?_eq_some_iff.1 hhead
    rw [take?_of_queue_cons hqueue, if_pos (Nat.le_refl _)] at htake
    cases htake
    rw [hrest, queue_release hqueue] at ih
    obtain ⟨rfl, rfl⟩ := Prod.ext_iff.1 ih
    rw [hqueue]
    cases w.2.direction <;> rfl

/-! ## What happens -/

/-- What is asked of a debouncer. -/
inductive Request
  /-- The source was edited. -/
  | source (now : Nat) (text : Text)
  /-- The canvas was edited. -/
  | canvas (now : Nat)
  /-- The change that has been due for the longest time. -/
  | take (now : Nat)
  /-- All changes. -/
  | drain
  deriving Repr, DecidableEq

/-- What happens to a change. -/
inductive Event
  | came (now : Nat) (change : Change)
  /-- It goes because it is due at a time, or because all go. -/
  | went (now : Option Nat) (change : Change)
  deriving Repr, DecidableEq

namespace Event

def change : Event → Change
  | came _ change | went _ change => change

/-- The direction of the change. -/
def direction (e : Event) : Direction := e.change.direction

def isDeparture : Event → Bool
  | came .. => false
  | went .. => true

end Event

/-- What happens when something is asked, and the debouncer after it. -/
def answer (d : Debouncer) : Request → List Event × Debouncer
  | .source now text => ([.came now (.source text)], d.pushSource now text)
  | .canvas now => ([.came now .canvas], d.pushCanvas now)
  | .take now =>
    match d.take? now with
    | some (change, rest) => ([.went (some now) change], rest)
    | none => ([], d)
  | .drain => (d.drain.1.map (.went none), d.drain.2)

/-- What happens when one thing is asked after the other, and the debouncer after all. -/
def serve (d : Debouncer) : List Request → List Event × Debouncer
  | [] => ([], d)
  | r :: rs => ((d.answer r).1 ++ ((d.answer r).2.serve rs).1, ((d.answer r).2.serve rs).2)

/-- The events of a direction. -/
def only (δ : Direction) (log : List Event) : List Event := log.filter fun e => e.direction = δ

/-! ## One side -/

/-- The events of one direction, between what waits before and what waits after them. -/
def Holds (window : Nat) : Option (Nat × Change) → List Event → Option (Nat × Change) → Prop
  | held, [], last => last = held
  | _, .came now change :: log, last => Holds window (some (now + window, change)) log last
  | held, .went time change :: log, last =>
    (∃ w, held = some w ∧ w.2 = change ∧ ∀ now ∈ time, w.1 ≤ now) ∧ Holds window none log last

namespace Holds

variable {window : Nat} {held last : Option (Nat × Change)} {log log' : List Event}

theorem append_iff :
    Holds window held (log ++ log') last ↔
      ∃ middle, Holds window held log middle ∧ Holds window middle log' last := by
  induction log generalizing held with
  | nil => simp [Holds]
  | cons e log ih =>
    cases e with
    | came now change => exact ih
    | went time change =>
      simp only [List.cons_append, Holds, ih, and_assoc, exists_and_left]

/-- What waits is what has come last. -/
theorem exists_came (h : Holds window none log (some w)) :
    ∃ log' now, log = log' ++ [.came now w.2] ∧ w.1 = now + window := by
  induction log using List.reverseRecOn with
  | nil => cases h
  | append_singleton log e _ =>
    obtain ⟨middle, hlog, he⟩ := append_iff.1 h
    cases e with
    | came now change =>
      cases he
      exact ⟨log, now, rfl, rfl⟩
    | went time change => cases he.2

end Holds

theorem window_answer (d : Debouncer) (r : Request) : (d.answer r).2.window = d.window := by
  cases r with
  | source | canvas => rfl
  | take now =>
    rw [answer]
    split
    next change rest htake =>
      obtain ⟨_, _, _, _, rfl⟩ := exists_waiting_of_take? htake
      exact window_release _
    next => rfl
  | drain => rw [answer, drain_eq, idle]

/-- **What one request does to a side.** -/
theorem holds_answer (d : Debouncer) (r : Request) (δ : Direction) :
    Holds d.window (d.held δ) (only δ (d.answer r).1) ((d.answer r).2.held δ) := by
  cases r with
  | source | canvas => cases δ <;> rfl
  | take now =>
    rw [answer]
    cases hqueue : d.queue with
    | nil =>
      rw [take?_of_queue_nil hqueue]
      rfl
    | cons w ws =>
      rw [take?_of_queue_cons hqueue]
      by_cases hdue : w.1 ≤ now
      · rw [if_pos hdue]
        have hheld := held_of_mem_queue (hqueue ▸ List.mem_cons_self)
        by_cases hδ : δ = w.2.direction
        · simp [only, Event.direction, Event.change, Holds, held_release, hδ, hheld, hdue]
        · simp [only, Event.direction, Event.change, Holds, held_release, hδ, Ne.symm hδ]
      · rw [if_neg hdue]
        rfl
  | drain =>
    have hlog : only δ (d.queue.map fun w => .went none w.2) =
        (d.held δ).toList.map fun w => .went none w.2 := by
      rw [only, List.filter_map, ← filter_queue]
      rfl
    simp only [answer, drain_eq, List.map_map, Function.comp_def]
    rw [hlog]
    cases δ <;> cases hheld : d.held _ <;> simp [Holds, idle, held]

theorem holds_serve (d : Debouncer) (rs : List Request) (δ : Direction) :
    Holds d.window (d.held δ) (only δ (d.serve rs).1) ((d.serve rs).2.held δ) := by
  induction rs generalizing d with
  | nil => rfl
  | cons r rs ih =>
    have hrest := ih (d.answer r).2
    rw [window_answer] at hrest
    rw [serve, only, List.filter_append]
    exact Holds.append_iff.2 ⟨_, d.holds_answer r δ, hrest⟩

theorem window_serve (d : Debouncer) (rs : List Request) : (d.serve rs).2.window = d.window := by
  induction rs generalizing d with
  | nil => rfl
  | cons r rs ih => exact (ih _).trans (d.window_answer r)

/-! ## Accounts -/

/-- Events in which nothing happens to a side. -/
theorem only_eq_nil_iff {δ : Direction} {log : List Event} :
    only δ log = [] ↔ ∀ e ∈ log, e.direction ≠ δ := by
  simp [only, List.filter_eq_nil_iff]

/-- An event among those of its side stands among all. -/
theorem exists_of_only {δ : Direction} {log before behind : List Event} {e : Event}
    (h : only δ log = before ++ e :: behind) :
    ∃ before' behind', log = before' ++ e :: behind' ∧ only δ before' = before ∧
      only δ behind' = behind := by
  obtain ⟨before₁, rest, rfl, hbefore, hrest⟩ := List.filter_eq_append_iff.1 h
  obtain ⟨before₂, behind', rfl, hbefore₂, -, hbehind⟩ := List.filter_eq_cons_iff.1 hrest
  refine ⟨before₁ ++ before₂, behind', by simp, ?_, hbehind⟩
  rw [only, List.filter_append, hbefore, List.filter_eq_nil_iff.2 hbefore₂, List.append_nil]

/-- A log tells where every change has come from and where it has gone. -/
structure Accounts (window : Nat) (log : List Event) (d : Debouncer) : Prop where
  /-- A change that goes is the last of its side that has come, and if not all go, it came a window
  ago. -/
  went : ∀ before behind time change, log = before ++ .went time change :: behind →
    ∃ earlier between now, before = earlier ++ .came now change :: between ∧
      (∀ e ∈ between, e.direction ≠ change.direction) ∧ ∀ later ∈ time, now + window ≤ later
  /-- Before the next of its side comes, a change that has come goes once, or the next supersedes
  it, or no other comes and it waits. -/
  came : ∀ before behind now change, log = before ++ .came now change :: behind →
    (∃ time, (only change.direction behind).takeWhile Event.isDeparture = [.went time change]) ∨
    (∃ between now' change' rest, behind = between ++ .came now' change' :: rest ∧
      change'.direction = change.direction ∧ ∀ e ∈ between, e.direction ≠ change.direction) ∨
    (∀ e ∈ behind, e.direction ≠ change.direction) ∧
      d.held change.direction = some (now + window, change)
  /-- What waits is the last of its side that has come. -/
  waits : ∀ w ∈ d.waiting, ∃ before between now, log = before ++ .came now w.2 :: between ∧
    w.1 = now + window ∧ ∀ e ∈ between, e.direction ≠ w.2.direction

/-- What waits on a side is the last that has come. -/
theorem exists_of_holds {window : Nat} {δ : Direction} {log : List Event}
    (h : Holds window none (only δ log) (some w)) :
    ∃ before between now, log = before ++ .came now w.2 :: between ∧ w.1 = now + window ∧
      ∀ e ∈ between, e.direction ≠ δ := by
  obtain ⟨earlier, now, honly, hdue⟩ := h.exists_came
  obtain ⟨before, between, rfl, -, hbetween⟩ := exists_of_only honly
  exact ⟨before, between, now, rfl, hdue, only_eq_nil_iff.1 hbetween⟩

/-- **Each side keeps accounts.** -/
theorem accounts_of_holds {window : Nat} {log : List Event}
    (h : ∀ δ, Holds window none (only δ log) (d.held δ)) : Accounts window log d := by
  have hsplit : ∀ before e behind, log = before ++ e :: behind →
      ∃ middle, Holds window none (only e.direction before) middle ∧
        Holds window middle (e :: only e.direction behind) (d.held e.direction) := by
    rintro before e behind rfl
    have hlog := h e.direction
    rw [only, List.filter_append, List.filter_cons_of_pos (by simp)] at hlog
    exact Holds.append_iff.1 hlog
  constructor
  case went =>
    intro before behind time change hlog
    obtain ⟨_, hbefore, ⟨w, rfl, rfl, htime⟩, -⟩ := hsplit _ _ _ hlog
    obtain ⟨earlier, between, now, hsplit, hdue, hbetween⟩ := exists_of_holds hbefore
    exact ⟨earlier, between, now, hsplit, hbetween, fun later hlater => hdue ▸ htime later hlater⟩
  case came =>
    intro before behind now change hlog
    obtain ⟨_, -, hbehind⟩ := hsplit _ _ _ hlog
    change Holds window (some (now + window, change)) (only change.direction behind)
      (d.held change.direction) at hbehind
    match honly : only change.direction behind with
    | [] =>
      rw [honly] at hbehind
      exact .inr (.inr ⟨only_eq_nil_iff.1 honly, hbehind⟩)
    | .came now' change' :: rest =>
      have hfirst : only change.direction behind = [] ++ .came now' change' :: rest := honly
      obtain ⟨between, rest', hsplit, hbetween, -⟩ := exists_of_only hfirst
      refine .inr (.inl ⟨between, now', change', rest', hsplit, ?_, only_eq_nil_iff.1 hbetween⟩)
      have hmem : Event.came now' change' ∈ only change.direction behind := by simp [honly]
      exact of_decide_eq_true (List.mem_filter.1 hmem).2
    | .went time change' :: rest =>
      rw [honly] at hbehind
      obtain ⟨⟨w, hw, rfl, -⟩, hrest⟩ := hbehind
      cases hw
      refine .inl ⟨time, ?_⟩
      -- nothing waits, so what comes next on this side is not a departure
      cases rest with
      | nil => rfl
      | cons e rest =>
        cases e with
        | came => rfl
        | went => exact absurd hrest.1 (by simp)
  case waits =>
    intro w hw
    have hheld := held_of_mem_queue (perm_queue.mem_iff.2 hw)
    exact exists_of_holds (hheld ▸ h w.2.direction)

/-- **Debouncing loses and doubles nothing.** Whatever is asked of a debouncer, a change goes once
if it is not superseded, and not before its window is over; what goes next is what is due first, and
at the end all changes go in that order. -/
theorem accounts_serve (window : Nat) (requests : List Request) :
    ∃ log d, (idle window).serve requests = (log, d) ∧ Accounts window log d ∧
      (∀ now, d.take? now = none ↔ ∀ w ∈ d.waiting, now < w.1) ∧
      (∀ now change rest, d.take? now = some (change, rest) →
        ∃ due, (due, change) ∈ d.waiting ∧ due ≤ now ∧
          (∀ w ∈ d.waiting, w = (due, change) ∨ Precedes (due, change) w) ∧
          ∀ δ, rest.held δ = if δ = change.direction then none else d.held δ) ∧
      ∃ queue : List (Nat × Change), d.drain = (queue.map Prod.snd, idle window) ∧
        queue.Perm d.waiting ∧ queue.Pairwise Precedes := by
  have hwindow := window_serve (idle window) requests
  refine ⟨_, _, rfl, accounts_of_holds fun δ => ?_, fun now => ?_, fun now change rest htake => ?_,
    _, drain_eq.trans (by rw [hwindow]; rfl), perm_queue, pairwise_queue⟩
  · have hserve := holds_serve (idle window) requests δ
    cases δ <;> exact hserve
  · exact take?_eq_none_iff
  · obtain ⟨due, hmem, hdue, hfirst, rfl⟩ := exists_waiting_of_take? htake
    exact ⟨due, hmem, hdue, hfirst, held_release _⟩

end Debouncer

end MarkupSync
