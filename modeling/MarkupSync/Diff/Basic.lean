import MarkupSync.Edit.Apply

/-!
# Differences of trees

The edits that lead from one tree to another. For every list of children they come in this order:
the edits inside matched children; the removals, last child first; the insertions and moves, last
new child first. Matched children that keep their order stay where they are.

* `uniqueKey?`: the key of a child, if no sibling has it;
* `matching`: for each new child the index of the old child that it continues. Children with a
  key that is unique on both sides belong together; the others are matched in order;
* `longestRise`: a longest strictly increasing subsequence of a list of numbers, found by laying
  the numbers on piles: each goes on the first pile whose top is not smaller and remembers the top
  of the pile before;
* `removals`, `placements`: the edits of a list of children;
* `Node.diff`: the edits between two trees.
-/

namespace MarkupSync

/-! ## Matching children -/

/-- The key of a child, if no other of its siblings has it. -/
def uniqueKey? (siblings : List Node) (n : Node) : Option Text :=
  n.key?.filter fun key => siblings.countP (·.key? == some key) = 1

/-- The indices of the children without a key of their own. -/
def looseIndices (siblings : List Node) : List Nat :=
  (siblings.zipIdx.filter fun (n, _) => (uniqueKey? siblings n).isNone).map Prod.snd

/-- Match new children: by key with `find`, without one with the next of the indices `loose`. -/
def matchFrom (key : Node → Option Text) (find : Text → Option Nat) :
    List Nat → List Node → List (Option Nat)
  | _, [] => []
  | loose, n :: ns =>
    match key n, loose with
    | some k, _ => find k :: matchFrom key find loose ns
    | none, [] => none :: matchFrom key find [] ns
    | none, i :: loose => some i :: matchFrom key find loose ns

/-- For each new child the index of the old child that it continues. -/
def matching (old new : List Node) : List (Option Nat) :=
  matchFrom (uniqueKey? new) (fun key => old.findIdx? (uniqueKey? old · == some key))
    (looseIndices old) new

/-! ## Longest rising subsequences -/

/-- Lay a number on the first pile whose top is not smaller. A pile is the rising sequence that
ends in its top, last number first; `below` is the pile to the left. -/
def layOn (v : Nat) (below : List Nat) : List (List Nat) → List (List Nat)
  | [] => [v :: below]
  | pile :: piles =>
    if pile.headD 0 < v then pile :: layOn v pile piles else (v :: below) :: piles

/-- The piles of a list of numbers. -/
def pilesOf (numbers : List Nat) : List (List Nat) :=
  numbers.foldl (fun piles v => layOn v [] piles) []

/-- A longest strictly increasing subsequence. -/
def longestRise (numbers : List Nat) : List Nat := ((pilesOf numbers).getLastD []).reverse

/-! ## Edits -/

/-- The removal of the old children that continue nowhere, last one first. -/
def removals (path : NodePath) (matched : List (Option Nat)) (count : Nat) : List Edit :=
  ((List.range count).reverse.filter fun i => !matched.contains (some i)).map fun i =>
    .remove (path.child i)

/-- A child in the list as it is rearranged. -/
inductive Slot
  | kept (old : Nat)
  | fresh (new : Nat)
  deriving Repr, DecidableEq

/-- A new child with its index, and the index of the old child that it continues. -/
structure Target where
  index : Nat
  source : Option Nat
  node : Node
  deriving Repr

/-- The slot of a new child. -/
def Target.slot (t : Target) : Slot :=
  match t.source with
  | some i => .kept i
  | none => .fresh t.index

/-- The index in front of a slot, or behind all. -/
def indexBefore (anchor : Option Slot) (current : List Slot) : Nat :=
  (anchor.bind fun slot => current.idxOf? slot).getD current.length

/-- Put the new children in their places, last one first. -/
def placements (path : NodePath) (stays : List Nat) :
    Option Slot → List Slot → List Target → List Edit
  | _, _, [] => []
  | anchor, current, t :: ts =>
    match t.source with
    | none =>
      let index := indexBefore anchor current
      .insert path index t.node ::
        placements path stays (some t.slot) (current.insertIdx index t.slot) ts
    | some _ =>
      if stays.contains t.index then placements path stays (some t.slot) current ts
      else
        match current.idxOf? t.slot with
        | none => placements path stays (some t.slot) current ts
        | some source =>
          let others := current.eraseIdx source
          let index := indexBefore anchor others
          .move (path.child source) path index ::
            placements path stays (some t.slot) (others.insertIdx index t.slot) ts

/-- The new children with their indices and what they continue. -/
def targets (matched : List (Option Nat)) (new : List Node) : List Target :=
  (matched.zip new).zipIdx.map fun ((source, node), index) => ⟨index, source, node⟩

/-- The old children that stay, in order. -/
def survivors (matched : List (Option Nat)) (count : Nat) : List Nat :=
  (List.range count).filter fun i => matched.contains (some i)

/-- The new indices of the old children that stay, in their old order. -/
def newOrder (matched : List (Option Nat)) (count : Nat) : List Nat :=
  (survivors matched count).filterMap fun i => matched.idxOf? (some i)

/-- The removals, insertions and moves of a list of children. -/
def rearrangement (path : NodePath) (matched : List (Option Nat)) (count : Nat) (new : List Node) :
    List Edit :=
  removals path matched count ++
    placements path (longestRise (newOrder matched count)) none
      ((survivors matched count).map .kept) (targets matched new).reverse

/-- The change of an element's attributes and declarations. -/
def attributeEdits (path : NodePath) (attributes style : Delta) : List Edit :=
  if attributes.isEmpty && style.isEmpty then [] else [.updateAttributes path attributes style]

namespace Node

mutual

/-- The edits that change the node `old` at a path into another node. -/
def diffAt (path : NodePath) (old : Node) : Node → List Edit
  | .text b =>
    match old with
    | .text a => if a = b then [] else [.updateText path b]
    | .element .. => [.replace path (.text b)]
  | .element tag attributes style children =>
    match old with
    | .text _ => [.replace path (.element tag attributes style children)]
    | .element oldTag oldAttributes oldStyle oldChildren =>
      if oldTag = tag then
        let matched := matching oldChildren children
        attributeEdits path (.between oldAttributes attributes) (.between oldStyle style) ++
          diffMatched path oldChildren matched children ++
          rearrangement path matched oldChildren.length children
      else [.replace path (.element tag attributes style children)]

/-- The edits inside matched children. -/
def diffMatched (path : NodePath) (old : List Node) : List (Option Nat) → List Node → List Edit
  | _, [] => []
  | [], _ :: _ => []
  | source :: sources, n :: ns =>
    (match source with
      | none => []
      | some i =>
        match old[i]? with
        | none => []
        | some o => diffAt (path.child i) o n) ++
      diffMatched path old sources ns

end

/-- The edits that lead from one tree to another. -/
def diff (old new : Node) : List Edit := diffAt [] old new

end Node

end MarkupSync
