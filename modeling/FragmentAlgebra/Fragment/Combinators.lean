import FragmentAlgebra.Fragment.Merge

/-! # Combinators

* `literal` and `empty`: two states joined by one edge.
* `concat`: an epsilon edge from the first exit to the second entry.
* `union`: a fresh entry and a fresh exit around both operands.
* `loop`: epsilon edges from the exit to the entry and back, without new states.
* `ofBytes`: one literal for each byte, closed by an empty fragment.

`concatMerged` and `unionMerged` wire an arena that is already merged.
-/

namespace FragmentAlgebra

namespace Fragment

/-! ## Leaves -/

/-- Accepts exactly the one-symbol word. -/
def literal (symbol : Symbol) : Fragment :=
  ⟨#[State.blank.addSymbolEdge symbol 1, .accepting], 0, 1⟩

/-- Accepts exactly the empty word. -/
def empty : Fragment := ⟨#[State.blank.addEpsilonEdge 1, .accepting], 0, 1⟩

/-! ## Wiring -/

/-- Take the final flag from state `origin` and lead it on to `target`. -/
def leadOn (states : Array State) (origin target : StateId) : Array State :=
  states.modify origin fun state => (state.setFinal false).addEpsilonEdge target

def link (states : Array State) (origin target : StateId) : Array State :=
  states.modify origin (·.addEpsilonEdge target)

/-- Run the first operand, then the second. -/
def concatMerged : Merged → Fragment
  | ⟨states, first, second⟩ => ⟨leadOn states first.exit second.entry, first.entry, second.exit⟩

/-- Run either operand between a fresh entry and a fresh exit. -/
def unionMerged : Merged → Fragment
  | ⟨states, first, second⟩ =>
    let entry := states.size
    let exit := states.size + 1
    let states := states.push .blank |>.push .blank
    let states := leadOn (link states entry first.entry) first.exit exit
    let states := leadOn (link states entry second.entry) second.exit exit
    ⟨states.modify exit (·.setFinal true), entry, exit⟩

/-! ## Combinators -/

/-- Accepts the words of `first` followed by a word of `second`. -/
def concat (first second : Fragment) : Fragment := concatMerged (first.merge second)

/-- Accepts the words of `a` and the words of `b`. -/
def union (a b : Fragment) : Fragment := unionMerged (a.merge b)

/-- Lets the exit start again at the entry, and the entry pass on to the exit. -/
def loop : Fragment → Fragment
  | ⟨states, entry, exit⟩ => ⟨link (link states exit entry) entry exit, entry, exit⟩

/-- Accepts exactly the word `bytes`. -/
def ofBytes (bytes : List Symbol) : Fragment :=
  bytes.foldr (fun symbol rest => (literal symbol).concat rest) empty

end Fragment

end FragmentAlgebra
