import FragmentAlgebra.State

/-! # Fragments

A `Fragment` is an arena of states with an entry and an exit. Any graph is a value of the type;
`InRange` says that its entry and all its edges stay inside the arena, and `WellFormed` adds that
the exit is its one final state, which is what every combinator keeps.
-/

namespace FragmentAlgebra

/-- An automaton graph with an entry state and an exit state. -/
structure Fragment where
  states : Array State
  entry : StateId
  exit : StateId
deriving DecidableEq

namespace Fragment

def count (fragment : Fragment) : Nat := fragment.states.size

/-- The state at an index of the arena. -/
def state? (fragment : Fragment) (q : StateId) : Option State := fragment.states[q]?

/-- The positions of the final states, ascending. -/
def finalStates (fragment : Fragment) : List StateId :=
  (List.range fragment.count).filter fun q => (fragment.state? q).any (·.isFinal)

/-- The entry and every target of every edge lie in the arena. -/
def InRange (fragment : Fragment) : Prop :=
  fragment.entry < fragment.count ∧
    ∀ state ∈ fragment.states, ∀ target ∈ state.allTargets, target < fragment.count

/-- The entry, the exit and every edge stay in the arena, and the exit is the one final state. -/
def WellFormed (fragment : Fragment) : Prop :=
  fragment.InRange ∧ fragment.exit < fragment.count ∧ fragment.finalStates = [fragment.exit]

instance (fragment : Fragment) : Decidable fragment.InRange := by
  unfold InRange; infer_instance

instance (fragment : Fragment) : Decidable fragment.WellFormed := by
  unfold WellFormed; infer_instance

end Fragment

end FragmentAlgebra
