import FragmentAlgebra.Search

/-! # An expansion in place

`Search.expand` walks a whole closure before it reads from it. `Search.expandInPlace` does the two
at once: every state of the stretch is looked at as it comes off the stack, what it leads to is
queued in front of what is pending, and a final state at the end of the input ends the walk. It
works on the `Agenda` of the search and hands the agenda back.
-/

namespace FragmentAlgebra

open Std (HashSet)

namespace Search

/-- The entries to look at, the first one next, and the entries that are expanded. -/
structure Agenda where
  pending : List Entry
  settled : HashSet Entry

namespace Agenda

/-- Put entries in front of the pending ones; those that are settled are left out. -/
def queue (agenda : Agenda) (next : List Entry) : Agenda :=
  { agenda with pending := next.filter (· ∉ agenda.settled) ++ agenda.pending }

end Agenda

/-- The entries that `symbol` leads to from `state`, one offset further on. -/
def nextEntries (state : State) (symbol : Symbol) (offset : Nat) : List Entry :=
  (state.targets symbol).map fun next => (next, offset + 1)

/-- Look at the states on `stack` and at what they reach along epsilon edges, one after another. The
flag tells whether one of them is final at the end of the input. -/
def stretchFrom (fragment : Fragment) (input : Array Symbol) (offset : Nat)
    (visited : HashSet StateId) (stack : List StateId) (agenda : Agenda) : Bool × Agenda :=
  match stack with
  | [] => (false, agenda)
  | q :: stack =>
    if q ∈ visited then stretchFrom fragment input offset visited stack agenda
    else
      match _found : fragment.state? q with
      | none => stretchFrom fragment input offset visited stack agenda
      | some state =>
        let visited := visited.insert q
        let ahead := state.epsilon.filter (· ∉ visited) ++ stack
        match input[offset]? with
        | none =>
          if state.isFinal then (true, agenda)
          else stretchFrom fragment input offset visited ahead agenda
        | some symbol =>
          stretchFrom fragment input offset visited ahead
            (agenda.queue (nextEntries state symbol offset))
termination_by (unused (List.range fragment.count) visited, stack.length)
decreasing_by
  · exact Prod.Lex.right _ (Nat.lt_succ_self _)
  · exact Prod.Lex.right _ (Nat.lt_succ_self _)
  all_goals
    refine Prod.Lex.left _ _ (unused_insert_lt ?_ ‹_›)
    exact List.mem_range.2 (Array.getElem?_eq_some_iff.1 _found).1

/-- Expand `entry`, and put what it leads to in front of what is pending. -/
def expandInPlace (fragment : Fragment) (input : Array Symbol) (entry : Entry) (agenda : Agenda) :
    Bool × Agenda :=
  stretchFrom fragment input entry.2 ∅ [entry.1] agenda

/-- What an expansion makes of an agenda. -/
def Expansion.carryOut (agenda : Agenda) : Expansion → Bool × Agenda
  | .accepted => (true, agenda)
  | .queued next => (false, { agenda with pending := next ++ agenda.pending })

end Search

end FragmentAlgebra
