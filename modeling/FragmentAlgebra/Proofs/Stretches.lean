import FragmentAlgebra.Proofs.Safety
import FragmentAlgebra.Proofs.Words
import FragmentAlgebra.Search.Stretch

/-! # One expansion

An expansion that looks at each state as it comes off the stack does what the search does in two
steps, to walk the closure and then to read from it (`expandInPlace_eq`): a state that is looked at
earlier stands further back in the closure, and what it leads to is pending behind what the later
ones lead to. The settled entries are only looked up on the way.

With that, `expand_covers_closure` says what one expansion achieves: it covers the epsilon closure
of its state, no more and no less, whatever cycles and repetitions the epsilon edges form.
-/

namespace FragmentAlgebra

open Std (HashSet)

namespace Fragment

variable {f : Fragment} {visited : HashSet StateId} {q : StateId} {stack : List StateId}
  {state : State}

/-! ## What is seen in front of what was seen -/

theorem closureFrom_append (f : Fragment) (visited : HashSet StateId)
    (seen stack before : List StateId) :
    f.closureFrom visited (seen ++ before) stack = f.closureFrom visited seen stack ++ before := by
  fun_induction closureFrom f visited seen stack with
  | case1 visited seen => rw [closureFrom]
  | case2 visited seen q stack old ih => rw [closureFrom_of_visited old, ih]
  | case3 visited seen q stack new outside ih => rw [closureFrom_of_outside new outside, ih]
  | case4 visited seen q stack new state at_q visited' ih =>
    rw [closureFrom_of_state new at_q, ← ih]
    rfl

/-- The state on top of the stack is seen before all that are still to come. -/
theorem closureFrom_cons (new : q ∉ visited) (at_q : f.state? q = some state) :
    f.closureFrom visited [] (q :: stack) =
      f.closureFrom (visited.insert q) []
        (state.epsilon.filter (· ∉ visited.insert q) ++ stack) ++ [q] := by
  rw [closureFrom_of_state new at_q]
  exact closureFrom_append f _ [] _ [q]

theorem isFinal_of_state? (at_q : f.state? q = some state) : f.isFinal q = state.isFinal := by
  rw [isFinal, at_q, Option.any_some]

theorem targets_of_state? (at_q : f.state? q = some state) (symbol : Symbol) :
    f.targets q symbol = state.targets symbol := by
  rw [targets, at_q]

end Fragment

namespace Search

variable {f : Fragment} {input : Array Symbol} {offset : Nat} {symbol : Symbol}

/-! ## A stretch in place -/

/-- At the end of the input a stretch looks for a final state and leaves the agenda alone. -/
theorem stretchFrom_of_end (look : input[offset]? = none) (visited : HashSet StateId)
    (stack : List StateId) (agenda : Agenda) :
    stretchFrom f input offset visited stack agenda =
      ((f.closureFrom visited [] stack).any f.isFinal, agenda) := by
  fun_induction stretchFrom f input offset visited stack agenda with
  | case1 visited agenda => rw [Fragment.closureFrom, List.any_nil]
  | case2 visited agenda q stack old ih => rw [ih, Fragment.closureFrom_of_visited old]
  | case3 visited agenda q stack new outside ih =>
    rw [ih, Fragment.closureFrom_of_outside new outside]
  | case4 visited agenda q stack new state at_q none_left final =>
    rw [Fragment.closureFrom_cons new at_q]
    simp [Fragment.isFinal_of_state? at_q, final]
  | case5 visited agenda q stack new state at_q visited' ahead none_left not_final ih =>
    rw [ih, Fragment.closureFrom_cons new at_q]
    simp [Fragment.isFinal_of_state? at_q, not_final, visited', ahead]
  | case6 visited agenda q stack new state at_q visited' ahead c some_left ih =>
    rw [look] at some_left
    cases some_left

/-- What the states of a stretch lead to, apart from settled entries. -/
def queued (f : Fragment) (symbol : Symbol) (offset : Nat) (settled : HashSet Entry)
    (stretch : List StateId) : List Entry :=
  stretch.flatMap fun q =>
    ((f.targets q symbol).map fun next => (next, offset + 1)).filter (· ∉ settled)

/-- At a symbol a stretch puts what its states lead to in front of what is pending. -/
theorem stretchFrom_of_symbol (look : input[offset]? = some symbol) (visited : HashSet StateId)
    (stack : List StateId) (agenda : Agenda) :
    stretchFrom f input offset visited stack agenda = (false, { agenda with
      pending := queued f symbol offset agenda.settled (f.closureFrom visited [] stack) ++
        agenda.pending }) := by
  fun_induction stretchFrom f input offset visited stack agenda with
  | case1 visited agenda =>
    rw [Fragment.closureFrom]
    rfl
  | case2 visited agenda q stack old ih => rw [ih, Fragment.closureFrom_of_visited old]
  | case3 visited agenda q stack new outside ih =>
    rw [ih, Fragment.closureFrom_of_outside new outside]
  | case4 visited agenda q stack new state at_q none_left final =>
    rw [look] at none_left
    cases none_left
  | case5 visited agenda q stack new state at_q visited' ahead none_left not_final ih =>
    rw [look] at none_left
    cases none_left
  | case6 visited agenda q stack new state at_q visited' ahead c some_left ih =>
    obtain rfl : symbol = c := Option.some.inj (look.symm.trans some_left)
    rw [ih, Fragment.closureFrom_cons new at_q]
    simp [queued, Agenda.queue, nextEntries, Fragment.targets_of_state? at_q, visited', ahead]

/-- An expansion in place does to the agenda what the expansion says, and nothing else. -/
theorem expandInPlace_eq (f : Fragment) (input : Array Symbol) (entry : Entry) (agenda : Agenda) :
    expandInPlace f input entry agenda =
      (expand f input agenda.settled entry).carryOut agenda := by
  rw [expandInPlace]
  cases look : input[entry.2]? with
  | none =>
    rw [stretchFrom_of_end look, expand_of_end look, ← Fragment.closure]
    cases (f.closure entry.1).any f.isFinal <;> rfl
  | some symbol =>
    rw [stretchFrom_of_symbol look, expand_of_symbol look]
    rfl

/-! ## Every expansion -/

theorem leads_iff {q : StateId} {e : Entry} (lt : offset < input.size) :
    Leads f input (q, offset) e ↔
      e.2 = offset + 1 ∧ ∃ m, f.EpsilonReaches q m ∧ f.Edge m (some input[offset]) e.1 := by
  have look : input[offset]? = some input[offset] := Array.getElem?_eq_getElem lt
  constructor
  · rintro ⟨next_offset, c, m, look', stretch, edge⟩
    obtain rfl : input[offset] = c := Option.some.inj (look.symm.trans look')
    exact ⟨next_offset, m, stretch, edge⟩
  · rintro ⟨next_offset, m, stretch, edge⟩
    exact ⟨next_offset, _, m, look, stretch, edge⟩

/-- An expansion comes to an end without looking for a missing state, and it leaves the settled
entries as they are. At the end of the input it finds out whether a final state lies in the epsilon
closure, and queues nothing. Anywhere else it queues the entries, not settled yet, that the next
symbol leads to from the closure, and no others. -/
theorem expand_covers_closure (range : f.InRange) {q : StateId} (inside : q < f.count)
    (input : Array Symbol) (offset : Nat) (agenda : Agenda) :
    Checked.expand f input agenda.settled (q, offset) =
        .ok (expand f input agenda.settled (q, offset)) ∧
      expandInPlace f input (q, offset) agenda =
        (expand f input agenda.settled (q, offset)).carryOut agenda ∧
      (offset = input.size →
        ((expandInPlace f input (q, offset) agenda).1 = true ↔
          ∃ r, f.EpsilonReaches q r ∧ f.IsFinal r) ∧
        (expandInPlace f input (q, offset) agenda).2 = agenda) ∧
      ∀ lt : offset < input.size, ∃ next,
        expandInPlace f input (q, offset) agenda =
          (false, { agenda with pending := next ++ agenda.pending }) ∧
        ∀ e, e ∈ next ↔ (e.2 = offset + 1 ∧
          ∃ m, f.EpsilonReaches q m ∧ f.Edge m (some input[offset]) e.1) ∧ e ∉ agenda.settled := by
  refine ⟨Checked.expand_eq_ok range _ inside, expandInPlace_eq f input _ agenda, ?_, ?_⟩
  · rintro rfl
    have used_up : input[input.size]? = none := Array.getElem?_eq_none (Nat.le_refl _)
    rw [expandInPlace, stretchFrom_of_end used_up]
    exact ⟨any_isFinal_closure, rfl⟩
  · intro lt
    have look : input[offset]? = some input[offset] := Array.getElem?_eq_getElem lt
    have expanded : expand f input agenda.settled (q, offset) = .queued _ := expand_of_symbol look
    refine ⟨_, by rw [expandInPlace_eq, expanded, Expansion.carryOut], fun e => ?_⟩
    rw [mem_of_expand_eq_queued expanded e, leads_iff lt]

/-- The epsilon edges of a loop form a cycle: its exit leads to what the entry reads, and from its
entry the exit is found at the end of the input. -/
theorem expand_covers_closure_of_loop :
    let f := (Fragment.literal 97).loop
    let agenda : Agenda := ⟨[(0, 0)], {(0, 1)}⟩
    f.InRange ∧ 1 < f.count ∧
      (∃ next, expandInPlace f #[97] (1, 0) agenda = (false, ⟨next ++ [(0, 0)], {(0, 1)}⟩) ∧
        (1, 1) ∈ next) ∧
      expandInPlace f #[97] (0, 1) agenda = (true, agenda) := by
  intro f agenda
  have range : f.InRange := by decide
  have entry : f.state? 0 = some ((State.blank.addSymbolEdge 97 1).addEpsilonEdge 1) := by decide
  have exit : f.state? 1 = some (State.accepting.addEpsilonEdge 0) := by decide
  have forth : f.EpsilonReaches 0 1 := .skip entry (by decide) (.stay 1)
  have back : f.EpsilonReaches 1 0 := .skip exit (by decide) (.stay 0)
  have read : f.Edge 0 (some 97) 1 := ⟨_, entry, by decide⟩
  have final : f.IsFinal 1 := ⟨_, exit, rfl⟩
  have new : ((1, 1) : Entry) ∉ agenda.settled := by simp [agenda]
  obtain ⟨-, -, -, at_symbol⟩ :=
    expand_covers_closure range (q := 1) (by decide) #[97] 0 agenda
  obtain ⟨-, -, at_end, -⟩ := expand_covers_closure range (q := 0) (by decide) #[97] 1 agenda
  obtain ⟨next, expanded, mem_next⟩ := at_symbol (by decide)
  refine ⟨range, by decide, ⟨next, expanded, (mem_next _).2 ⟨⟨rfl, 0, back, read⟩, new⟩⟩, ?_⟩
  exact Prod.ext ((at_end rfl).1.2 ⟨1, forth, final⟩) (at_end rfl).2

end Search

end FragmentAlgebra
