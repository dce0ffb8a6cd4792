import FragmentAlgebra.Search

/-! # Reached entries

`Search.Reached` is the least set of entries that holds the entry at offset zero and, with an
entry, every state that one symbol of the input leads to from its epsilon closure. It says nothing
about the order in which entries are found.
-/

namespace FragmentAlgebra

namespace Search

/-- The entry can come up in a search of `input`. -/
inductive Reached (fragment : Fragment) (input : Array Symbol) : Entry → Prop
  | start : Reached fragment input (fragment.entry, 0)
  | step {q middle next : StateId} {offset : Nat} {symbol : Symbol}
      (before : Reached fragment input (q, offset)) (look : input[offset]? = some symbol)
      (stretch : fragment.EpsilonReaches q middle)
      (edge : next ∈ fragment.targets middle symbol) : Reached fragment input (next, offset + 1)

end Search

end FragmentAlgebra
