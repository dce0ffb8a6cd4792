import FragmentAlgebra.Search

/-! # Plain backtracking search

`Fragment.acceptsFrom` decides acceptance by recursion alone: a state that is already visited
fails; otherwise the state is marked, and the rest of the input is tried from the targets of its
next symbol, each with nothing visited, and then the same input from the epsilon targets, which
share one growing list of visited states. Nothing is remembered from one symbol to the next.

The recursion ends because a step along an epsilon edge visits another state of the arena, and a
step along a symbol edge shortens the input.
-/

namespace FragmentAlgebra

namespace Fragment

/-! ## Tries -/

/-- The answer of a try, and the states visited by then: those visited `before` and more. -/
structure Trial (before : List StateId) where
  found : Bool
  visited : List StateId
  grows : before ⊆ visited

namespace Trial

variable {before : List StateId}

/-- A try that accepts nothing and visits nothing. -/
def refused (before : List StateId) : Trial before := ⟨false, before, fun _ mem => mem⟩

/-- A try that accepts at a state. -/
def accepted (q : StateId) (before : List StateId) : Trial before :=
  ⟨true, q :: before, List.subset_cons_self q before⟩

/-- The same try, seen from a point where fewer states were visited. -/
def since {marked : List StateId} (grows : before ⊆ marked) (trial : Trial marked) : Trial before :=
  ⟨trial.found, trial.visited, fun _ mem => trial.grows (grows mem)⟩

end Trial

/-! ## States that are left -/

/-- The number of states of the arena that are not visited. -/
def unvisited (fragment : Fragment) (visited : List StateId) : Nat :=
  (List.range fragment.count).countP fun q => q ∉ visited

theorem unvisited_cons_lt {fragment : Fragment} {visited : List StateId} {q : StateId}
    (inside : q < fragment.count) (new : q ∉ visited) :
    fragment.unvisited (q :: visited) < fragment.unvisited visited := by
  apply countP_lt_countP_of_imp (a := q) _ (List.mem_range.2 inside)
  · simpa using new
  · simp
  · simp

theorem unvisited_le {fragment : Fragment} {before after : List StateId}
    (grows : before ⊆ after) : fragment.unvisited after ≤ fragment.unvisited before := by
  apply List.countP_mono_left
  intro q _ out
  simp only [decide_eq_true_eq] at out ⊢
  exact fun mem => out (grows mem)

/-! ## The search -/

mutual

/-- Whether `input` is accepted from `q` when the states in `visited` are closed. -/
def acceptsFrom (fragment : Fragment) (visited : List StateId) (input : List Symbol)
    (q : StateId) : Trial visited :=
  if q ∈ visited then .refused visited
  else
    match _found : fragment.state? q with
    | none => .refused visited
    | some state =>
      match input with
      | [] =>
        if state.isFinal then .accepted q visited
        else
          (fragment.anyAccepts (q :: visited) [] state.epsilon).since
            (List.subset_cons_self q visited)
      | symbol :: rest =>
        if (state.targets symbol).any fun next => (fragment.acceptsFrom [] rest next).found then
          .accepted q visited
        else
          (fragment.anyAccepts (q :: visited) (symbol :: rest) state.epsilon).since
            (List.subset_cons_self q visited)
termination_by (input.length, fragment.unvisited visited, 0)
decreasing_by
  · refine Prod.Lex.right _ (Prod.Lex.left _ _ (unvisited_cons_lt ?_ ‹_›))
    exact (Array.getElem?_eq_some_iff.1 _found).1
  · exact Prod.Lex.left _ _ (Nat.lt_succ_self _)
  · refine Prod.Lex.right _ (Prod.Lex.left _ _ (unvisited_cons_lt ?_ ‹_›))
    exact (Array.getElem?_eq_some_iff.1 _found).1

/-- Whether `input` is accepted from one of `origins`. They are tried in order until one accepts,
and each finds closed what the ones before it have visited. -/
def anyAccepts (fragment : Fragment) (visited : List StateId) (input : List Symbol)
    (origins : List StateId) : Trial visited :=
  match origins with
  | [] => .refused visited
  | q :: others =>
    let first := fragment.acceptsFrom visited input q
    if first.found then first
    else (fragment.anyAccepts first.visited input others).since first.grows
termination_by (input.length, fragment.unvisited visited, origins.length + 1)
decreasing_by
  · exact Prod.Lex.right _ (Prod.Lex.right _ (Nat.zero_lt_succ _))
  · apply Prod.Lex.right
    rcases Nat.lt_or_eq_of_le (unvisited_le first.grows) with fewer | same
    · exact Prod.Lex.left _ _ fewer
    · rw [same]
      exact Prod.Lex.right _ (Nat.lt_succ_self _)

end

end Fragment

end FragmentAlgebra
