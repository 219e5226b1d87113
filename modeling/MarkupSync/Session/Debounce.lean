import MarkupSync.Text.Basic

/-!
# Debouncing

A change waits until nothing of its kind has changed for a while. Times are in milliseconds.

* `Change`, `Direction`: what has changed, and which side has to follow;
* `Debouncer`: the changes that wait, at most one of a kind;
* `Debouncer.pushSource`, `Debouncer.pushCanvas`: a new change takes the place of one that waits;
* `Debouncer.take?`: the change that has been due for the longest time (`length_of_take?`);
* `Debouncer.takeDue`, `Debouncer.drain`: all that are due, and all.
-/

namespace MarkupSync

/-- Which side follows the other. -/
inductive Direction
  /-- The source has changed, the canvas follows. -/
  | toCanvas
  /-- The canvas has changed, the source follows. -/
  | toSource
  deriving Repr, DecidableEq, Inhabited

/-- The name of a direction. -/
def Direction.name : Direction → String
  | toCanvas => "to-visual"
  | toSource => "to-code"

/-- What has changed. -/
inductive Change
  | source (text : Text)
  | canvas
  deriving Repr, DecidableEq, Inhabited

/-- The direction that carries a change over. -/
def Change.direction : Change → Direction
  | source _ => .toCanvas
  | canvas => .toSource

/-- The changes that wait, with the times when they are due. -/
structure Debouncer where
  window : Nat
  source : Option (Nat × Text)
  canvas : Option Nat
  deriving Repr, DecidableEq

namespace Debouncer

/-- No change waits. -/
def idle (window : Nat) : Debouncer := ⟨window, none, none⟩

/-- The source was edited. -/
def pushSource (d : Debouncer) (now : Nat) (text : Text) : Debouncer :=
  { d with source := some (now + d.window, text) }

/-- The canvas was edited. -/
def pushCanvas (d : Debouncer) (now : Nat) : Debouncer :=
  { d with canvas := some (now + d.window) }

/-- Whether no change waits. -/
def isEmpty (d : Debouncer) : Bool := d.source.isNone && d.canvas.isNone

/-- The number of changes that wait. -/
def length (d : Debouncer) : Nat := d.source.toList.length + d.canvas.toList.length

/-- When the next change is due. -/
def nextDeadline? (d : Debouncer) : Option Nat :=
  match d.source, d.canvas with
  | some (s, _), some c => some (min s c)
  | some (s, _), none => some s
  | none, c => c

/-- Take the source change. -/
def takeSource? (d : Debouncer) (now : Nat) : Option (Change × Debouncer) :=
  match d.source with
  | some (due, text) => if due ≤ now then some (.source text, { d with source := none }) else none
  | none => none

/-- Take the canvas change. -/
def takeCanvas? (d : Debouncer) (now : Nat) : Option (Change × Debouncer) :=
  match d.canvas with
  | some due => if due ≤ now then some (.canvas, { d with canvas := none }) else none
  | none => none

/-- Whether the canvas change is due before the source change. -/
def canvasIsFirst (d : Debouncer) : Bool :=
  match d.source, d.canvas with
  | some (s, _), some c => c < s
  | some _, none => false
  | none, _ => true

/-- Take the change that is due first, if it is due now. Of two that are due at the same time the
source goes first. -/
def take? (d : Debouncer) (now : Nat) : Option (Change × Debouncer) :=
  if d.canvasIsFirst then d.takeCanvas? now else d.takeSource? now

/-- A change that is taken does not wait any more. -/
theorem length_of_take? {d d' : Debouncer} {now : Nat} {c : Change}
    (h : d.take? now = some (c, d')) : d'.length < d.length := by
  simp only [take?, takeCanvas?, takeSource?] at h
  split at h
  · split at h
    next due hc =>
      split at h
      · cases h; simp [length, hc]
      · cases h
    next => cases h
  · split at h
    next due text hs =>
      split at h
      · cases h; simp [length, hs]
      · cases h
    next => cases h

/-- Take all changes that are due, the earliest first. -/
def takeDue (d : Debouncer) (now : Nat) : List Change × Debouncer :=
  match _h : d.take? now with
  | none => ([], d)
  | some (c, rest) =>
    let (cs, last) := rest.takeDue now
    (c :: cs, last)
termination_by d.length
decreasing_by exact length_of_take? _h

/-- Take all changes in the order in which they would become due. -/
def drain (d : Debouncer) : List Change × Debouncer :=
  match d.nextDeadline? with
  | none => ([], d)
  | some due =>
    match _h : d.take? due with
    | none => ([], d)
    | some (c, rest) =>
      let (cs, last) := rest.drain
      (c :: cs, last)
termination_by d.length
decreasing_by exact length_of_take? _h

end Debouncer

end MarkupSync
