import FragmentAlgebra.Fragment.Basic

/-! # Merging two arenas

`merge` joins two arenas into one. The larger arena keeps its numbering, the first one on a tie, and
the states of the other follow with their targets shifted. `mergeInOrder` always keeps the first and
`mergeInReverse` the second. All three give the ends of the operands in argument order.
-/

namespace FragmentAlgebra

/-- The entry and the exit of an operand inside a merged arena. -/
structure Ends where
  entry : StateId
  exit : StateId
deriving DecidableEq

/-- Two arenas joined into one. -/
structure Merged where
  states : Array State
  /-- Where the first operand's entry and exit are now. -/
  first : Ends
  /-- Where the second operand's entry and exit are now. -/
  second : Ends
deriving DecidableEq

/-- The ends of an operand whose states are moved by a fixed distance. -/
def Ends.shift (ends : Ends) (distance : Nat) : Ends :=
  ⟨ends.entry + distance, ends.exit + distance⟩

namespace Fragment

/-- Where a fragment starts and ends in its own arena. -/
def ends (fragment : Fragment) : Ends := ⟨fragment.entry, fragment.exit⟩

/-- The states of `kept`, then those of `moved` with their targets shifted behind them. -/
def appendShifted (kept moved : Array State) : Array State :=
  let distance := kept.size
  kept ++ moved.map (·.shift distance)

/-- Join two arenas; the first keeps its numbering. -/
def mergeInOrder : Fragment → Fragment → Merged
  | ⟨kept, entry, exit⟩, ⟨moved, entry', exit'⟩ =>
    let moving := Ends.shift ⟨entry', exit'⟩ kept.size
    ⟨appendShifted kept moved, ⟨entry, exit⟩, moving⟩

/-- Join two arenas; the second keeps its numbering. -/
def mergeInReverse (a b : Fragment) : Merged :=
  match mergeInOrder b a with
  | ⟨states, second, first⟩ => ⟨states, first, second⟩

/-- Join two arenas; the larger keeps its numbering, the first one on a tie. -/
def merge (a b : Fragment) : Merged :=
  if b.count ≤ a.count then mergeInOrder a b else mergeInReverse a b

end Fragment

end FragmentAlgebra
