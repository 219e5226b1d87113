import MarkupSync.Text.Basic

/-!
# Splices

* `Splice`: a range of bytes of a text and what to write in its place;
* `Splice.applyAll`: all ranges replaced at once. The ranges must lie in the text, between
  characters, and must not overlap.
-/

namespace MarkupSync

/-- A range of bytes and what to write in its place. -/
structure Splice where
  span : Span
  replacement : Text
  deriving Repr, DecidableEq, Inhabited

/-- Why a range cannot be replaced. -/
inductive SpliceFault
  | outOfBounds
  | insideCharacter
  | overlap
  /-- The range was recorded for another kind of node. -/
  | wrongKind
  | outsideSection (content : Span)
  deriving Repr, DecidableEq

/-- The wording of a fault. -/
def SpliceFault.message : SpliceFault → String
  | outOfBounds => "out of bounds"
  | insideCharacter => "not on a character boundary"
  | overlap => "overlaps a previous edit"
  | wrongKind => "recorded span does not match the node"
  | outsideSection content =>
    "edit leaves the section at " ++ toString content.start ++ ".." ++ toString content.stop

/-- A range that cannot be replaced, and why. -/
structure SpliceError where
  span : Span
  fault : SpliceFault
  deriving Repr, DecidableEq

/-- The wording of an error. -/
def SpliceError.message (e : SpliceError) : String :=
  "Invalid edit " ++ toString e.span.start ++ ".." ++ toString e.span.stop ++ ": " ++
    e.fault.message

namespace Splice

/-- The order of ranges: by start, then by end. -/
def precedes (a b : Splice) : Bool :=
  a.span.start < b.span.start || (a.span.start == b.span.start && a.span.stop ≤ b.span.stop)

/-- Why a range behind byte `stop` cannot be replaced, if so. -/
def fault? (s : Text) (stop : Nat) (r : Span) : Option SpliceFault :=
  if r.stop < r.start ∨ width s < r.stop then some .outOfBounds
  else if !Text.isBoundary r.start s || !Text.isBoundary r.stop s then some .insideCharacter
  else if r.start < stop then some .overlap
  else none

/-- Check ranges in order, the first of which has to start at byte `stop` or later. -/
def check (s : Text) : Nat → List Splice → Except SpliceError Unit
  | _, [] => .ok ()
  | stop, splice :: rest =>
    match fault? s stop splice.span with
    | some fault => .error ⟨splice.span, fault⟩
    | none => check s splice.span.stop rest

/-- Replace ranges in order in the text `s`, which starts at byte `start`. -/
def fill (start : Nat) (s : Text) : List Splice → Text
  | [] => s
  | splice :: rest =>
    Text.before (splice.span.start - start) s ++ splice.replacement ++
      fill splice.span.stop (Text.after (splice.span.stop - start) s) rest

/-- Replace all ranges at once. Of two insertions at one place the first comes first. -/
def applyAll (splices : List Splice) (s : Text) : Except SpliceError Text :=
  let sorted := splices.mergeSort precedes
  match check s 0 sorted with
  | .error e => .error e
  | .ok () => .ok (fill 0 s sorted)

end Splice

end MarkupSync
