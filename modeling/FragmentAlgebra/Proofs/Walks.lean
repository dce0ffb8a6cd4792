import FragmentAlgebra.Fragment.Combinators
import FragmentAlgebra.Proofs.Acceptance
import FragmentAlgebra.Proofs.Choices
import FragmentAlgebra.Random.Tape

/-! # Walks and the words they emit

`Turn` says what one round makes of a running walk, with the choices that it makes at its state.
`Step` keeps of this what holds whatever words the source hands out, and `run_induct` carries an
invariant from the steps to a run. A walk is always `Along` its fragment: the word read so far leads
from the entry to where it stands, and it only completes at a final state. A `Session` is a sequence
of calls of one generator; every word that one of them returns is accepted (`accepts_of_session`).
-/

namespace FragmentAlgebra

variable {σ : Type}

namespace Walk

variable {config : WalkConfig} {f : Fragment} {walk next : Walk σ}

/-! ## Steps -/

/-- What one round can make of a running walk. -/
inductive Step (config : WalkConfig) (f : Fragment) (walk : Walk σ) : Walk σ → Prop
  | exhaust {maxSteps : Nat} (exhausted : spent config walk.steps = some maxSteps) :
      Step config f walk { walk with status := .budgetExceeded maxSteps }
  | leave (within : spent config walk.steps = none) (outside : f.state? walk.current = none) :
      Step config f walk
        { walk with steps := walk.steps + 1, status := .deadEnd walk.current }
  | stop {state : State} (source : σ) (within : spent config walk.steps = none)
      (at_current : f.state? walk.current = some state) (final : state.isFinal = true) :
      Step config f walk { walk with steps := walk.steps + 1, source, status := .complete }
  | stick {state : State} (source : σ) (within : spent config walk.steps = none)
      (at_current : f.state? walk.current = some state) (not_final : state.isFinal = false)
      (stuck : state.hasEdges = false) :
      Step config f walk
        { walk with steps := walk.steps + 1, source, status := .deadEnd walk.current }
  | move {state : State} {move : Move} (source : σ) (within : spent config walk.steps = none)
      (at_current : f.state? walk.current = some state)
      (follows : Follows walk.current state move) :
      Step config f walk
        { walk with
          steps := walk.steps + 1
          source
          current := move.target
          moves := move :: walk.moves }
  | wait {state : State} (source : σ) (within : spent config walk.steps = none)
      (at_current : f.state? walk.current = some state) (edges : state.hasEdges = true) :
      Step config f walk { walk with steps := walk.steps + 1, source }

theorem spent_eq_none {budget : Option Nat} {steps : Nat} (room : ∀ n ∈ budget, steps < n) :
    spent { config with maxSteps := budget } steps = none := by
  cases budget with
  | none => rfl
  | some n =>
    have lt := room n rfl
    simp [spent, Option.filter, lt]

/-! ## Results -/

theorem result_eq_ok_iff {word : List Symbol} :
    walk.result = some (.ok word) ↔ walk.status = .complete ∧ walk.word = word := by
  unfold result
  cases walk.status <;> simp

theorem result_eq_budgetExceeded_iff {limit produced : Nat} :
    walk.result = some (.error (.budgetExceeded limit produced)) ↔
      walk.status = .budgetExceeded limit ∧ walk.word.length = produced := by
  unfold result
  cases walk.status <;> simp

/-! ## A walk follows a path -/

theorem word_cons (move : Move) (moves : List Move) (current : StateId) (steps : Nat) (source : σ)
    (status : WalkStatus) : (Walk.mk current steps (move :: moves) source status).word =
      (Walk.mk current steps moves source status).word ++ move.symbol?.toList := by
  cases move <;> simp [word, List.filterMap_cons, Move.symbol?]

/-- The word read so far leads from the entry to where the walk stands, which is final if the walk
is complete. -/
structure Along (f : Fragment) (walk : Walk σ) : Prop where
  path : f.Path f.entry walk.word walk.current
  final : walk.status = .complete → f.IsFinal walk.current

theorem along_start (f : Fragment) (source : σ) : Along f (start f source) where
  path := .stay _
  final complete := by simp [start] at complete

theorem Step.along (running : walk.status = .running) (step : Step config f walk next)
    (along : Along f walk) : Along f next := by
  cases step with
  | exhaust exhausted => exact ⟨along.path, by simp⟩
  | leave within outside => exact ⟨along.path, by simp⟩
  | stop source within at_current final => exact ⟨along.path, fun _ => ⟨_, at_current, final⟩⟩
  | stick source within at_current not_final stuck => exact ⟨along.path, by simp⟩
  | @move state move source within at_current follows =>
    refine ⟨?_, by simp [running]⟩
    rw [word_cons]
    exact along.path.snoc (follows.edge at_current)
  | wait source within at_current edges => exact ⟨along.path, along.final⟩

theorem Along.mem_language (along : Along f walk) {word : List Symbol}
    (result : walk.result = some (.ok word)) : word ∈ f.language := by
  obtain ⟨complete, rfl⟩ := result_eq_ok_iff.1 result
  exact Fragment.mem_language_iff_accepts.2 ⟨_, along.path, along.final complete⟩

variable [RandomSource σ]

/-! ## Rounds and runs -/

/-- What becomes of a walk at `state`, by the choices that it makes there. -/
inductive Acts (config : WalkConfig) (state : State) (walk : Walk σ) : Walk σ → Prop
  | stop {source : σ}
      (stopped : (chooseStop config.stopProbability state).run walk.source = (true, source)) :
      Acts config state walk { walk with source, status := .complete }
  | stick {source : σ}
      (going : (chooseStop config.stopProbability state).run walk.source = (false, source))
      (stuck : state.hasEdges = false) :
      Acts config state walk { walk with source, status := .deadEnd walk.current }
  | move {move : Move} {source later : σ}
      (going : (chooseStop config.stopProbability state).run walk.source = (false, source))
      (edges : state.hasEdges = true)
      (moved : (chooseMove config.branchProbability walk.current state).run source =
        (some move, later)) :
      Acts config state walk
        { walk with source := later, current := move.target, moves := move :: walk.moves }
  | wait {source later : σ}
      (going : (chooseStop config.stopProbability state).run walk.source = (false, source))
      (edges : state.hasEdges = true)
      (waited : (chooseMove config.branchProbability walk.current state).run source =
        (none, later)) :
      Acts config state walk { walk with source := later }

theorem acts_act (config : WalkConfig) (state : State) (walk : Walk σ) :
    Acts config state walk (act config state walk) := by
  obtain ⟨stop, source, chosen⟩ : ∃ stop source,
    (chooseStop config.stopProbability state).run walk.source = (stop, source) := ⟨_, _, rfl⟩
  obtain ⟨move, later, moved⟩ : ∃ move later,
    (chooseMove config.branchProbability walk.current state).run source = (move, later) :=
      ⟨_, _, rfl⟩
  simp only [act, chosen]
  cases stop with
  | true => exact .stop chosen
  | false =>
    cases edges : state.hasEdges with
    | false => exact .stick chosen edges
    | true =>
      cases move with
      | some move =>
        simp only [moved]
        exact .move chosen edges moved
      | none =>
        simp only [moved]
        exact .wait chosen edges moved

theorem round_eq_act {state : State} (running : walk.status = .running)
    (within : spent config walk.steps = none) (at_current : f.state? walk.current = some state) :
    walk.round config f = act config state { walk with steps := walk.steps + 1 } := by
  simp [round, running, within, at_current]

/-- What becomes of a running walk in a round: its budget is spent, it stands at no state, or it acts
at its state. -/
inductive Turn (config : WalkConfig) (f : Fragment) (walk : Walk σ) : Walk σ → Prop
  | exhaust {maxSteps : Nat} (exhausted : spent config walk.steps = some maxSteps) :
      Turn config f walk { walk with status := .budgetExceeded maxSteps }
  | leave (within : spent config walk.steps = none) (outside : f.state? walk.current = none) :
      Turn config f walk
        { walk with steps := walk.steps + 1, status := .deadEnd walk.current }
  | act {state : State} {next : Walk σ} (within : spent config walk.steps = none)
      (at_current : f.state? walk.current = some state)
      (acts : Acts config state { walk with steps := walk.steps + 1 } next) :
      Turn config f walk next

theorem turn_round (running : walk.status = .running) :
    Turn config f walk (walk.round config f) := by
  cases within : spent config walk.steps with
  | some maxSteps =>
    have round : walk.round config f = { walk with status := .budgetExceeded maxSteps } := by
      simp [round, running, within]
    rw [round]
    exact .exhaust within
  | none =>
    cases at_current : f.state? walk.current with
    | none =>
      have round : walk.round config f =
          { walk with steps := walk.steps + 1, status := .deadEnd walk.current } := by
        simp [round, running, within, at_current]
      rw [round]
      exact .leave within at_current
    | some state =>
      rw [round_eq_act running within at_current]
      exact .act within at_current (acts_act _ _ _)

/-- The words enter through the two choices alone; of these a step keeps only what always holds. -/
theorem Acts.step {state : State} (within : spent config walk.steps = none)
    (at_current : f.state? walk.current = some state)
    (acts : Acts config state { walk with steps := walk.steps + 1 } next) :
    Step config f walk next := by
  have stops := always_chooseStop config.stopProbability state walk.source
  cases acts with
  | stop stopped =>
    rw [stopped] at stops
    exact .stop _ within at_current (stops.1 rfl)
  | stick going stuck =>
    rw [going] at stops
    have not_final : state.isFinal = false := by
      by_contra final
      have edges := stops.2 Bool.false_ne_true (by simpa using final)
      rw [stuck] at edges
      cases edges
    exact .stick _ within at_current not_final stuck
  | @move move source later going edges moved =>
    have follows := always_chooseMove config.branchProbability walk.current state source
    rw [moved] at follows
    exact .move later within at_current (follows move rfl)
  | wait going edges waited => exact .wait _ within at_current edges

theorem Turn.step (turn : Turn config f walk next) : Step config f walk next := by
  cases turn with
  | exhaust exhausted => exact .exhaust exhausted
  | leave within outside => exact .leave within outside
  | act within at_current acts => exact acts.step within at_current

theorem step_round (running : walk.status = .running) :
    Step config f walk (round config f walk) :=
  (turn_round running).step

theorem run_succ (running : walk.status = .running) (rounds : Nat) :
    walk.run config f (rounds + 1) = (walk.round config f).run config f rounds := by
  rw [run, running]

theorem run_of_ended (ended : walk.status ≠ .running) (rounds : Nat) :
    walk.run config f rounds = walk := by
  cases rounds with
  | zero => rfl
  | succ rounds =>
    rw [run]
    split
    case h_1 running => exact absurd running ended
    case h_2 => rfl

theorem run_add (m n : Nat) :
    walk.run config f (m + n) = (walk.run config f m).run config f n := by
  induction m generalizing walk with
  | zero => rw [Nat.zero_add, run]
  | succ m ih =>
    by_cases running : walk.status = .running
    · rw [Nat.add_right_comm, run_succ running, run_succ running, ih]
    · rw [run_of_ended running, run_of_ended running, run_of_ended running]

theorem run_induct_round {P : Walk σ → Prop}
    (round : ∀ {walk : Walk σ}, walk.status = .running → P walk → P (walk.round config f))
    (start : P walk) (rounds : Nat) : P (walk.run config f rounds) := by
  induction rounds generalizing walk with
  | zero => exact start
  | succ rounds ih =>
    by_cases running : walk.status = .running
    · rw [run_succ running]
      exact ih (round running start)
    · rw [run_of_ended running]
      exact start

/-- What every step keeps, a run keeps. -/
theorem run_induct {P : Walk σ → Prop}
    (step : ∀ {walk next : Walk σ}, walk.status = .running → Step config f walk next →
      P walk → P next)
    (start : P walk) (rounds : Nat) : P (walk.run config f rounds) :=
  run_induct_round (fun running => step running (step_round running)) start rounds

theorem along_run (along : Along f walk) (rounds : Nat) : Along f (walk.run config f rounds) :=
  run_induct Step.along along rounds

end Walk

/-! ## Calls of a generator -/

namespace Generator

variable [RandomSource σ] {f : Fragment} {outcome : Except GenerateError (List Symbol)}
  {calls : List (Fragment × Except GenerateError (List Symbol))} {g after : Generator σ}

/-- A call on `f` ends with `outcome` and leaves the generator `after` behind. -/
def Returns (g : Generator σ) (f : Fragment) (outcome : Except GenerateError (List Symbol))
    (after : Generator σ) : Prop :=
  ∃ rounds, (g.walk f rounds).result = some outcome ∧
    after = { g with source := (g.walk f rounds).source }

theorem walk_of_result {m : Nat} (result : (g.walk f m).result = some outcome) (n : Nat) :
    g.walk f (m + n) = g.walk f m := by
  have ended : (g.walk f m).status ≠ .running := by
    intro running
    rw [Walk.result, running] at result
    cases result
  exact (Walk.run_add m n).trans (Walk.run_of_ended ended n)

theorem Returns.unique {other : Except GenerateError (List Symbol)} {later : Generator σ}
    (first : g.Returns f outcome after) (second : g.Returns f other later) :
    outcome = other ∧ after = later := by
  obtain ⟨m, result, rfl⟩ := first
  obtain ⟨n, other_result, rfl⟩ := second
  have same : g.walk f m = g.walk f n := by
    rw [← walk_of_result result n, ← walk_of_result other_result m, Nat.add_comm]
  rw [same, other_result] at result
  rw [same]
  exact ⟨(Option.some.inj result).symm, rfl⟩

theorem returns_of_complete {rounds : Nat} (complete : (g.walk f rounds).status = .complete) :
    g.Returns f (.ok (g.walk f rounds).word) { g with source := (g.walk f rounds).source } :=
  ⟨rounds, Walk.result_eq_ok_iff.2 ⟨complete, rfl⟩, rfl⟩

theorem Returns.mem_language {word : List Symbol} (returns : g.Returns f (.ok word) after) :
    word ∈ f.language := by
  obtain ⟨rounds, result, _⟩ := returns
  have along : Walk.Along f (g.walk f rounds) :=
    Walk.along_run (Walk.along_start f g.source) rounds
  exact along.mem_language result

/-- One call after another, each on a fragment of its own, with their outcomes. -/
inductive Session : Generator σ → List (Fragment × Except GenerateError (List Symbol)) →
    Generator σ → Prop
  | done (g : Generator σ) : Session g [] g
  | call {g between after : Generator σ} {f : Fragment}
      {outcome : Except GenerateError (List Symbol)}
      {calls : List (Fragment × Except GenerateError (List Symbol))}
      (returns : g.Returns f outcome between) (later : Session between calls after) :
      Session g ((f, outcome) :: calls) after

/-- Every word that a call returns is accepted by the fragment it was called on. -/
theorem accepts_of_session (session : Session g calls after) {word : List Symbol}
    (emitted : (f, .ok word) ∈ calls) : f.accepts word = true := by
  induction session with
  | done g => cases emitted
  | call returns later ih =>
    rcases List.mem_cons.1 emitted with same | emitted
    · cases same
      exact Fragment.mem_language.1 returns.mem_language
    · exact ih emitted

theorem accepts_of_two_calls :
    let g : Generator Tape := ⟨.default, .ofList [0]⟩
    let calls : List (Fragment × Except GenerateError (List Symbol)) :=
      [(.literal 97, .ok [97]), (.ofBytes [97, 98], .ok [97, 98])]
    ∃ after, Session g calls after ∧ (Fragment.ofBytes [97, 98]).accepts [97, 98] = true := by
  intro g calls
  let between : Generator Tape := { g with source := (g.walk (.literal 97) 2).source }
  have first : (g.walk (.literal 97) 2).status = .complete := by decide +kernel
  have second : (between.walk (.ofBytes [97, 98]) 6).status = .complete := by decide +kernel
  have first_word : (g.walk (.literal 97) 2).word = [97] := by decide +kernel
  have second_word : (between.walk (.ofBytes [97, 98]) 6).word = [97, 98] := by decide +kernel
  have session : Session g calls _ :=
    .call (first_word ▸ returns_of_complete first)
      (.call (second_word ▸ returns_of_complete second) (.done _))
  exact ⟨_, session, accepts_of_session session (.tail _ (.head _))⟩

end Generator

end FragmentAlgebra
