/-!
# Locks of files

Calls that write or restore the same file take turns. A call takes the entry of its path out of a
map of locks, waits for the lock, works on the file, gives the lock back and drops its entry. The
path leaves the map once nobody else has its lock.

* `Stage`, `Call`: how far a call has come;
* `Locks`: the map, and the calls in progress;
* `Locks.owners`: how many have a lock: the map, and the calls that have not dropped their entries;
* `Move`, `Locks.move?`: what a call can do at once. Counting the owners of a lock and giving up
  one's own entry are two moves;
* `Deed`, `Deed.moves`: the steps of a call, where an entry is dropped at once.
-/

namespace MarkupSync

/-- How far a call has come. -/
inductive Stage
  /-- It has the entry of its path and waits for the lock. -/
  | waiting
  /-- It has the lock and works on the file. -/
  | working
  /-- It has given the lock back. -/
  | finished
  /-- It has counted the owners of the lock and is about to give up its entry. -/
  | leaving
  deriving Repr, DecidableEq

/-- A call in progress, with the lock in its entry. -/
structure Call (κ : Type) where
  path : κ
  lock : Nat
  stage : Stage
  deriving Repr, DecidableEq

/-- The locks of paths, by number, and the calls in progress in the order in which they started. -/
structure Locks (κ : Type) where
  entries : List (κ × Nat)
  calls : List (Call κ)
  /-- The number of the next new lock. -/
  next : Nat
  deriving Repr, DecidableEq

/-- What a call can do at once; calls are named by their places among those in progress. -/
inductive Move (κ : Type)
  /-- A new call takes the entry of its path. -/
  | enter (path : κ)
  | acquire (i : Nat)
  | release (i : Nat)
  /-- Count the owners of the lock, and take the path out of the map if there are no others. -/
  | count (i : Nat)
  /-- Give up the entry. -/
  | leave (i : Nat)
  deriving Repr, DecidableEq

/-- The steps of a call. -/
inductive Deed (κ : Type)
  | enter (path : κ)
  | acquire (i : Nat)
  | release (i : Nat)
  | drop (i : Nat)
  deriving Repr, DecidableEq

/-- An entry is dropped without anything in between. -/
def Deed.moves {κ : Type} : Deed κ → List (Move κ)
  | enter path => [.enter path]
  | acquire i => [.acquire i]
  | release i => [.release i]
  | drop i => [.count i, .leave i]

namespace Locks

variable {κ : Type}

/-- Nobody writes. -/
def idle : Locks κ := ⟨[], [], 0⟩

/-- Whether no call has the lock. -/
def isFree (l : Locks κ) (lock : Nat) : Bool :=
  l.calls.all fun c => c.lock != lock || c.stage != .working

/-- How many have a lock: the map, and the calls with an entry. -/
def owners (l : Locks κ) (lock : Nat) : Nat :=
  l.entries.countP (fun e => e.2 == lock) + l.calls.countP fun c => c.lock == lock

/-- A call comes to another stage. -/
def setStage (l : Locks κ) (i : Nat) (stage : Stage) : Locks κ :=
  { l with calls := l.calls.modify i fun c => { c with stage } }

variable [DecidableEq κ]

/-- A new call; a path that is not in the map gets a new lock. -/
def enter (l : Locks κ) (path : κ) : Locks κ :=
  match l.entries.lookup path with
  | some lock => { l with calls := l.calls ++ [⟨path, lock, .waiting⟩] }
  | none => ⟨l.entries ++ [(path, l.next)], l.calls ++ [⟨path, l.next, .waiting⟩], l.next + 1⟩

/-- A path leaves the map if its lock has two owners, the map and the call that asks. -/
def prune (l : Locks κ) (c : Call κ) : Locks κ :=
  if l.owners c.lock = 2 then { l with entries := l.entries.filter fun e => e.1 ≠ c.path } else l

/-- A move of a call, if it can make it. A call that waits may be given up. -/
def move? (l : Locks κ) : Move κ → Option (Locks κ)
  | .enter path => some (l.enter path)
  | .acquire i =>
    match l.calls[i]? with
    | some ⟨_, lock, .waiting⟩ => if l.isFree lock then some (l.setStage i .working) else none
    | _ => none
  | .release i =>
    match l.calls[i]? with
    | some ⟨_, _, .working⟩ => some (l.setStage i .finished)
    | _ => none
  | .count i =>
    match l.calls[i]? with
    | some c =>
      if c.stage = .waiting ∨ c.stage = .finished then some ((l.prune c).setStage i .leaving)
      else none
    | none => none
  | .leave i =>
    match l.calls[i]? with
    | some ⟨_, _, .leaving⟩ => some { l with calls := l.calls.eraseIdx i }
    | _ => none

/-- Moves one after another, if they can be made. -/
def run (l : Locks κ) : List (Move κ) → Option (Locks κ)
  | [] => some l
  | m :: ms => (l.move? m).bind fun l => run l ms

end Locks

end MarkupSync
