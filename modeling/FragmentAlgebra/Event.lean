import FragmentAlgebra.Fragment.Basic
import FragmentAlgebra.Search
import FragmentAlgebra.Walk.Basic
import FragmentAlgebra.Snapshot.Basic

/-! # Events

What the library reports about its work: the end of a search, the moves and the end of a walk, and
the recording and restoring of snapshots. Events are read off the results; nothing is logged while
the work goes on.
-/

namespace FragmentAlgebra

/-- How much detail an event is. -/
inductive EventLevel
  | debug | trace
deriving DecidableEq

def EventLevel.name : EventLevel → String
  | .debug => "debug"
  | .trace => "trace"

/-- What is logged on the way. -/
inductive Event
  | searchEnded (states inputLength : Nat) (report : Search.Report)
  | moved (move : Move)
  | walkComplete (steps produced : Nat)
  | budgetExceeded (maxSteps produced : Nat)
  | captured (states : Nat)
  | restored (states : Nat)
deriving DecidableEq

namespace Event

/-! ## What happened -/

def ofSearch (fragment : Fragment) (input : List Symbol) : Event :=
  .searchEnded fragment.count input.length (fragment.search input)

/-- The reports of a walk: its moves in order, then its end. A dead end is not reported. -/
def ofWalk {σ : Type} (walk : Walk σ) : List Event :=
  walk.moves.reverse.map .moved ++
    match walk.status with
    | .complete => [.walkComplete walk.steps walk.word.length]
    | .budgetExceeded maxSteps => [.budgetExceeded maxSteps walk.word.length]
    | _ => []

def ofRestore (s : Snapshot) : List Event :=
  match s.restore with
  | .ok _ => [.restored s.states.length]
  | .error _ => []

/-! ## Rendering -/

def level : Event → EventLevel
  | .moved _ => .trace
  | _ => .debug

def name : Event → String
  | .searchEnded .. => "match_complete"
  | .moved (.consume ..) => "generation_consume"
  | .moved (.skip ..) => "generation_epsilon"
  | .walkComplete .. => "generation_complete"
  | .budgetExceeded .. => "generation_budget_exceeded"
  | .captured _ => "snapshot_captured"
  | .restored _ => "snapshot_restored"

def fields : Event → List (String × Json)
  | .searchEnded states inputLength report =>
    [("states", .nat states), ("input_len", .nat inputLength), ("explored", .nat report.explored),
      ("accepted", .bool report.accepted)]
  | .moved (.consume origin symbol target) =>
    [("from", .string origin.label), ("to", .string target.label), ("symbol", .nat symbol.toNat)]
  | .moved (.skip origin target) => [("from", .string origin.label), ("to", .string target.label)]
  | .walkComplete steps produced => [("steps", .nat steps), ("produced", .nat produced)]
  | .budgetExceeded maxSteps produced =>
    [("max_steps", .nat maxSteps), ("produced", .nat produced)]
  | .captured states => [("states", .nat states)]
  | .restored states => [("states", .nat states)]

end Event

end FragmentAlgebra
