import FragmentAlgebra.Fragment.Basic

/-! # The language of a fragment

`Path` reads a graph edge by edge and spells the symbols it consumes. A word is accepted when it
labels a path from the entry to a final state; nothing here says how such a path is found.
-/

namespace FragmentAlgebra

namespace Fragment

/-- `Path fragment q word r`: some walk along the edges leads from `q` to `r` and spells `word`. -/
inductive Path (fragment : Fragment) : StateId → List Symbol → StateId → Prop
  | stay (q : StateId) : Path fragment q [] q
  | skip {q middle r : StateId} {word : List Symbol} {state : State}
      (at_q : fragment.state? q = some state) (edge : middle ∈ state.epsilon)
      (rest : Path fragment middle word r) : Path fragment q word r
  | consume {q middle r : StateId} {symbol : Symbol} {word : List Symbol} {state : State}
      (at_q : fragment.state? q = some state) (edge : middle ∈ state.targets symbol)
      (rest : Path fragment middle word r) : Path fragment q (symbol :: word) r

/-- The state named `q` is in the arena and final. -/
def IsFinal (fragment : Fragment) (q : StateId) : Prop :=
  ∃ state, fragment.state? q = some state ∧ state.isFinal = true

/-- Some path from the entry to a final state spells `word`. -/
def Accepts (fragment : Fragment) (word : List Symbol) : Prop :=
  ∃ q, fragment.Path fragment.entry word q ∧ fragment.IsFinal q

/-- `r` is reached from `q` along epsilon edges alone. -/
def EpsilonReaches (fragment : Fragment) (q r : StateId) : Prop := fragment.Path q [] r

end Fragment

end FragmentAlgebra
