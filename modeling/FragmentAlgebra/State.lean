import FragmentAlgebra.EdgeTable

/-! # States

A `State` holds its symbol edges, its epsilon edges in insertion order and its final flag. Edges are
only ever appended. `rename` gives every target another name, and `shift` moves every target by a
fixed distance, as is needed when the state moves behind another arena.
-/

namespace FragmentAlgebra

/-- A node of an automaton graph. -/
structure State where
  isFinal : Bool
  /-- Targets reached without consuming input, in insertion order. -/
  epsilon : List StateId
  /-- Targets reached by consuming a symbol. -/
  edges : EdgeTable
deriving DecidableEq

namespace State

/-- A state without edges that is not final. -/
def blank : State := ⟨false, [], .empty⟩

/-- A final state without edges. -/
def accepting : State := ⟨true, [], .empty⟩

/-! ## Edges -/

/-- Another target under a symbol, behind those it has. -/
def addSymbolEdge (state : State) (symbol : Symbol) (target : StateId) : State :=
  { state with edges := state.edges.insert symbol target }

/-- Another epsilon target, behind those it has. -/
def addEpsilonEdge (state : State) (target : StateId) : State :=
  { state with epsilon := state.epsilon ++ [target] }

def setFinal (state : State) (isFinal : Bool) : State := { state with isFinal }

def rename (state : State) (φ : StateId → StateId) : State :=
  { state with
    epsilon := state.epsilon.map φ
    edges := state.edges.rename φ }

/-- Move every target by a fixed distance. -/
def shift (state : State) (distance : Nat) : State := state.rename (· + distance)

/-! ## Observations -/

/-- Targets reached by consuming `symbol`, in insertion order. -/
def targets (state : State) (symbol : Symbol) : List StateId := state.edges.targets symbol

/-- The symbols with targets, ascending. -/
def symbols (state : State) : List Symbol := state.edges.symbols

/-- Some edge leaves the state. -/
def hasEdges (state : State) : Bool := !state.epsilon.isEmpty || !state.edges.isEmpty

/-- Every target of every edge: epsilon edges first, then the symbols in ascending order. -/
def allTargets (state : State) : List StateId :=
  state.epsilon ++ state.edges.rows.flatMap (·.2)

end State

end FragmentAlgebra
