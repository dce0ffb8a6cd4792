import FragmentAlgebra.Proofs.RenamedSearch
import FragmentAlgebra.Proofs.Walks

/-! # Walks in renumbered fragments

On the same words a walk in a renumbered fragment makes the renamed choices, so it is the renamed
walk after every round (`Walk.run_rename`). A call of a generator then ends in the same way, up to
the name of a dead end, and leaves the same generator behind (`Renumbers.returns_iff`).

With the searches this shows that nothing depends on which operand a merge moves
(`Construction.merge_unobservable`).
-/

namespace FragmentAlgebra

variable {φ : Equiv.Perm StateId} {f g : Fragment}

/-! ## Renamed walks -/

def Move.rename (φ : StateId → StateId) : Move → Move
  | .consume origin symbol target => .consume (φ origin) symbol (φ target)
  | .skip origin target => .skip (φ origin) (φ target)

def WalkStatus.rename (φ : StateId → StateId) : WalkStatus → WalkStatus
  | .running => .running
  | .complete => .complete
  | .budgetExceeded maxSteps => .budgetExceeded maxSteps
  | .deadEnd state => .deadEnd (φ state)

/-- Rename the state that a dead end names. -/
def GenerateError.rename (φ : StateId → StateId) : GenerateError → GenerateError
  | .budgetExceeded maxSteps produced => .budgetExceeded maxSteps produced
  | .deadEnd state => .deadEnd (φ state)
  | .invalidConfig cause => .invalidConfig cause

namespace Walk

variable {σ : Type}

/-- The same walk with the states renamed. -/
def rename (φ : StateId → StateId) (walk : Walk σ) : Walk σ :=
  { walk with
    current := φ walk.current
    moves := walk.moves.map (Move.rename φ)
    status := walk.status.rename φ }

theorem word_rename (φ : StateId → StateId) (walk : Walk σ) : (walk.rename φ).word = walk.word := by
  have symbols : Move.symbol? ∘ Move.rename φ = Move.symbol? := by
    funext move
    cases move <;> rfl
  rw [word, word, rename, List.filterMap_map, symbols]

theorem result_rename (φ : StateId → StateId) (walk : Walk σ) :
    (walk.rename φ).result = walk.result.map (·.mapError (GenerateError.rename φ)) := by
  have status : (walk.rename φ).status = walk.status.rename φ := rfl
  rw [result, result, status, word_rename]
  cases walk.status <;> rfl

theorem status_rename_eq_running {walk : Walk σ} (φ : StateId → StateId) :
    (walk.rename φ).status = .running ↔ walk.status = .running := by
  have status : (walk.rename φ).status = walk.status.rename φ := rfl
  rw [status]
  cases walk.status <;> simp [WalkStatus.rename]

/-! ## Choices -/

variable [RandomSource σ] {state : State} {q : StateId}

theorem pick_map {targets : List StateId} (full : targets ≠ []) (φ : StateId → StateId) :
    (pick (targets.map φ) : StateM σ StateId) = φ <$> pick targets := by
  have pos : 0 < targets.length := List.length_pos_iff.2 full
  rw [pick, pick, List.length_map, map_bind]
  apply (always_below pos).bind_congr
  intro index lt
  have picked : (targets.map φ).getD index 0 = φ (targets.getD index 0) := by simp [lt]
  rw [map_pure, picked]

theorem chooseSkip_rename (p : Binary64) (q : StateId) (state : State) (φ : StateId → StateId) :
    (chooseSkip p (φ q) (state.rename φ) : StateM σ (Option Move)) =
      Option.map (Move.rename φ) <$> chooseSkip p q state := by
  have epsilon : (state.rename φ).epsilon = state.epsilon.map φ := rfl
  rw [chooseSkip, chooseSkip, epsilon, List.isEmpty_map]
  cases none_left : state.epsilon.isEmpty with
  | true => rfl
  | false =>
    have full : state.epsilon ≠ [] := by simpa using none_left
    rw [pick_map full]
    simp only [Bool.false_eq_true, if_false, map_bind, bind_map_left]
    congr 1
    funext taken
    cases taken with
    | true => simp [Move.rename]
    | false => rfl

theorem chooseFrom_rename (p : Binary64) (q : StateId) (state : State) (φ : StateId → StateId)
    {rows : List EdgeRow} (full : ∀ row ∈ rows, row.2 ≠ []) :
    (chooseFrom p (φ q) (state.rename φ) (renameRows φ rows) : StateM σ (Option Move)) =
      Option.map (Move.rename φ) <$> chooseFrom p q state rows := by
  induction rows with
  | nil => exact chooseSkip_rename p q state φ
  | cons row rows ih =>
    obtain ⟨symbol, targets⟩ := row
    rw [List.forall_mem_cons] at full
    have head : renameRows φ ((symbol, targets) :: rows) =
        (symbol, targets.map φ) :: renameRows φ rows := rfl
    rw [head, chooseFrom, chooseFrom, pick_map full.1, ih full.2, map_bind]
    congr 1
    funext taken
    cases taken with
    | true => simp [Move.rename]
    | false => rfl

theorem chooseMove_rename (p : Binary64) (q : StateId) (state : State) (φ : StateId → StateId) :
    (chooseMove p (φ q) (state.rename φ) : StateM σ (Option Move)) =
      Option.map (Move.rename φ) <$> chooseMove p q state :=
  chooseFrom_rename p q state φ state.edges.ordered.2

theorem hasEdges_rename (state : State) (φ : StateId → StateId) :
    (state.rename φ).hasEdges = state.hasEdges := by
  simp [State.hasEdges, State.rename, EdgeTable.isEmpty, EdgeTable.rename, renameRows]

theorem chooseStop_rename (p : Binary64) (state : State) (φ : StateId → StateId) :
    (chooseStop p (state.rename φ) : StateM σ Bool) = chooseStop p state := by
  rw [chooseStop, chooseStop, hasEdges_rename]
  rfl

/-! ## Rounds and runs -/

variable {config : WalkConfig}

theorem act_rename (state : State) (walk : Walk σ) (φ : StateId → StateId) :
    act config (state.rename φ) (walk.rename φ) = (act config state walk).rename φ := by
  have source : (walk.rename φ).source = walk.source := rfl
  have current : (walk.rename φ).current = φ walk.current := rfl
  simp only [act, chooseStop_rename, hasEdges_rename, chooseMove_rename, source, current]
  generalize (chooseStop config.stopProbability state).run walk.source = chosen
  obtain ⟨stop, source⟩ := chosen
  dsimp only
  split
  case isTrue => rfl
  case isFalse =>
    split
    case isTrue => rfl
    case isFalse =>
      rw [StateT.run_map]
      generalize (chooseMove config.branchProbability walk.current state).run source = chosen
      obtain ⟨move, source⟩ := chosen
      cases move with
      | none => rfl
      | some move => cases move <;> rfl

theorem round_rename (h : f.Renumbers φ g) {walk : Walk σ} (running : walk.status = .running) :
    (walk.rename φ).round config g = (walk.round config f).rename φ := by
  have running' := (status_rename_eq_running φ).2 running
  have steps : (walk.rename φ).steps = walk.steps := rfl
  have current : (walk.rename φ).current = φ walk.current := rfl
  simp only [round, running, running', steps, current, h.state?_eq]
  cases spent config walk.steps with
  | some maxSteps => rfl
  | none =>
    cases f.state? walk.current with
    | none => rfl
    | some state =>
      exact act_rename state { walk with steps := walk.steps + 1, status := .running } φ

theorem run_rename (h : f.Renumbers φ g) (walk : Walk σ) (rounds : Nat) :
    (walk.rename φ).run config g rounds = (walk.run config f rounds).rename φ := by
  induction rounds generalizing walk with
  | zero => rfl
  | succ rounds ih =>
    by_cases running : walk.status = .running
    · have running' := (status_rename_eq_running φ).2 running
      rw [run_succ running, run_succ running', round_rename h running, ih]
    · have ended' := mt (status_rename_eq_running φ).1 running
      rw [run_of_ended running, run_of_ended ended']

end Walk

/-! ## Calls of a generator -/

theorem Fragment.Renumbers.returns_iff {σ : Type} [RandomSource σ] (h : f.Renumbers φ g)
    {gen after : Generator σ} {outcome : Except GenerateError (List Symbol)} :
    gen.Returns g outcome after ↔
      ∃ given, gen.Returns f given after ∧ outcome = given.mapError (GenerateError.rename φ) := by
  have walk_eq (rounds : Nat) : gen.walk g rounds = (gen.walk f rounds).rename φ := by
    have start : Walk.start g gen.source = (Walk.start f gen.source).rename φ := by
      rw [Walk.start, ← h.entry]
      rfl
    rw [Generator.walk, Generator.walk, start, Walk.run_rename h]
  constructor
  · rintro ⟨rounds, result, rfl⟩
    rw [walk_eq, Walk.result_rename] at result
    obtain ⟨given, found, rfl⟩ := Option.map_eq_some_iff.1 result
    refine ⟨given, ⟨rounds, found, ?_⟩, rfl⟩
    rw [walk_eq]
    rfl
  · rintro ⟨given, ⟨rounds, result, rfl⟩, rfl⟩
    refine ⟨rounds, ?_, ?_⟩
    · rw [walk_eq, Walk.result_rename, result, Option.map_some]
    · rw [walk_eq]
      rfl

/-! ## The operand that a merge moves -/

namespace Construction

open Fragment

theorem wellFormed_of_mem_leaves_word {bytes : List Symbol} (leaf : f ∈ (word bytes).leaves) :
    f.WellFormed := by
  induction bytes with
  | nil =>
    obtain rfl := List.mem_singleton.1 leaf
    exact wellFormed_empty
  | cons symbol bytes ih =>
    rcases List.mem_cons.1 leaf with rfl | leaf
    · exact wellFormed_literal symbol
    · exact ih leaf

/-- Which operand a merge moves cannot be observed. The fragment in which every join keeps the
larger operand in place and the one in which every join keeps the first are renumberings of each
other, accept the same words, and end every call of a generator in the same way, up to the name of
a dead end, with the same words taken from the source. -/
theorem merge_unobservable (c : Construction) (leaves : ∀ f ∈ c.leaves, f.WellFormed) :
    ∃ φ, Renumbers φ (c.build merge) (c.build mergeInOrder) ∧
      (∀ word, (c.build mergeInOrder).accepts word = (c.build merge).accepts word) ∧
      ∀ (σ : Type) [RandomSource σ] (gen after : Generator σ)
        (outcome : Except GenerateError (List Symbol)),
        gen.Returns (c.build mergeInOrder) outcome after ↔
          ∃ given, gen.Returns (c.build merge) given after ∧
            outcome = given.mapError (GenerateError.rename φ) := by
  have in_order : SideBySide mergeInOrder := fun a b => ⟨_, _, mergeInOrder_layout a b⟩
  obtain ⟨_, φ, renumbers⟩ := c.exists_renumbers merge_layout in_order leaves
  refine ⟨φ, renumbers, ?_, ?_⟩
  · intro word
    rw [accepts, accepts, renumbers.search_eq]
  · intro σ _ gen after outcome
    exact renumbers.returns_iff

/-- The second operand of the product is the larger, and so is the second of the sum in it. -/
theorem merge_unobservable_of_nested_joins :
    let c := concat (leaf (.literal 97)) (loop (union (leaf (.literal 98)) (word [99, 100])))
    c.build mergeInOrder ≠ c.build merge ∧
      ∃ φ, Renumbers φ (c.build merge) (c.build mergeInOrder) ∧
        ∀ word, (c.build mergeInOrder).accepts word = (c.build merge).accepts word := by
  intro c
  have leaves : ∀ f ∈ c.leaves, f.WellFormed := by
    intro f mem
    rcases List.mem_cons.1 mem with rfl | mem
    · exact wellFormed_literal 97
    rcases List.mem_cons.1 mem with rfl | mem
    · exact wellFormed_literal 98
    · exact wellFormed_of_mem_leaves_word mem
  have moved : c.build mergeInOrder ≠ c.build merge := by decide +kernel
  obtain ⟨φ, renumbers, same, _⟩ := c.merge_unobservable leaves
  exact ⟨moved, φ, renumbers, same⟩

end Construction

end FragmentAlgebra
