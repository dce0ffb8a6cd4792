import FragmentAlgebra.Fragment.Basic
import FragmentAlgebra.Random.KeyStream
import FragmentAlgebra.Walk.Config

/-! # Random walks

A walk starts at the entry of a fragment and goes on in rounds. A round first checks the budget.
At a final state it may stop: at once if no edge leaves the state, otherwise by a coin. Then one
coin is flipped for each branch, the symbols in ascending order and the epsilon edges last; the
first coin that comes up decides the branch, and one of its targets is picked. If none comes up
the round is over without a move.

* `Walk.round`: one round; it changes nothing once the walk has ended.
* `Walk.run`: a number of rounds.
* `Walk.result`: the word read on the way, or the reason for giving up.
-/

namespace FragmentAlgebra

/-- An edge that is taken. -/
inductive Move
  | consume (origin : StateId) (symbol : Symbol) (target : StateId)
  | skip (origin target : StateId)
deriving DecidableEq

namespace Move

def target : Move → StateId
  | .consume _ _ target => target
  | .skip _ target => target

/-- The symbol that a move reads, if any. -/
def symbol? : Move → Option Symbol
  | .consume _ symbol _ => some symbol
  | .skip _ _ => none

end Move

/-- Whether and how a walk has ended. -/
inductive WalkStatus
  | running
  | complete
  | budgetExceeded (maxSteps : Nat)
  /-- It stands at a state that is neither final nor has edges. -/
  | deadEnd (state : StateId)
deriving DecidableEq

/-- Why a generator returns no word. -/
inductive GenerateError
  | budgetExceeded (maxSteps produced : Nat)
  | deadEnd (state : StateId)
  | invalidConfig (cause : ConfigError)
deriving DecidableEq

def GenerateError.message : GenerateError → String
  | .budgetExceeded maxSteps produced =>
    "Generation budget of " ++ toString maxSteps ++ " steps exceeded after producing " ++
      toString produced ++ " symbols"
  | .deadEnd state => "Generation reached dead-end state " ++ state.label
  | .invalidConfig cause => "Invalid generation config: " ++ cause.message

/-- A walk on its way. -/
structure Walk (σ : Type) where
  current : StateId
  /-- The number of rounds begun. -/
  steps : Nat
  /-- The moves made, the latest first. -/
  moves : List Move
  source : σ
  status : WalkStatus

namespace Walk

variable {σ : Type}

/-- A walk at the entry, with nothing read. -/
def start (fragment : Fragment) (source : σ) : Walk σ := ⟨fragment.entry, 0, [], source, .running⟩

/-- The symbols read, in order. -/
def word (walk : Walk σ) : List Symbol := (walk.moves.filterMap Move.symbol?).reverse

/-- The word of a complete walk, or why there is none; nothing while the walk is running. -/
def result (walk : Walk σ) : Option (Except GenerateError (List Symbol)) :=
  match walk.status with
  | .running => none
  | .complete => some (.ok walk.word)
  | .budgetExceeded maxSteps => some (.error (.budgetExceeded maxSteps walk.word.length))
  | .deadEnd state => some (.error (.deadEnd state))

/-! ## Rounds -/

variable [RandomSource σ]

/-- One of `targets`, each equally likely up to the resolution of a word. -/
def pick (targets : List StateId) : StateM σ StateId := do
  let index ← Random.below targets.length
  pure (targets.getD index 0)

/-- The coin of the epsilon edges, and one of them if it comes up. -/
def chooseSkip (p : Binary64) (current : StateId) (state : State) : StateM σ (Option Move) := do
  if state.epsilon.isEmpty then pure none
  else if ← Random.flip p then
    let target ← pick state.epsilon
    pure (some (.skip current target))
  else pure none

/-- The coins of the rows from the first one on, then that of the epsilon edges. -/
def chooseFrom (p : Binary64) (current : StateId) (state : State) :
    List EdgeRow → StateM σ (Option Move)
  | [] => chooseSkip p current state
  | (symbol, targets) :: rows => do
    if ← Random.flip p then
      let target ← pick targets
      pure (some (.consume current symbol target))
    else chooseFrom p current state rows

/-- One coin for each branch of `state`, and the move along the first that comes up. -/
def chooseMove (p : Binary64) (current : StateId) (state : State) : StateM σ (Option Move) :=
  chooseFrom p current state state.edges.rows

/-- Whether the walk stops at a state: never if it is not final, always if no edge leaves it. -/
def chooseStop (p : Binary64) (state : State) : StateM σ Bool :=
  if state.isFinal then
    if state.hasEdges then Random.flip p else pure true
  else pure false

/-- True if the budget allows no further round after `steps` of them. -/
def spent (config : WalkConfig) (steps : Nat) : Option Nat :=
  config.maxSteps.filter (· ≤ steps)

def act (config : WalkConfig) (state : State) (walk : Walk σ) : Walk σ :=
  let (stop, source) := (chooseStop config.stopProbability state).run walk.source
  let walk := { walk with source }
  if stop then { walk with status := .complete }
  else if !state.hasEdges then { walk with status := .deadEnd walk.current }
  else
    let (move, source) :=
      (chooseMove config.branchProbability walk.current state).run walk.source
    let walk := { walk with source }
    match move with
    | some move => { walk with current := move.target, moves := move :: walk.moves }
    | none => walk

/-- One round. A walk that has left the arena is at a dead end. -/
def round (config : WalkConfig) (fragment : Fragment) (walk : Walk σ) : Walk σ :=
  match walk.status with
  | .running =>
    match spent config walk.steps with
    | some maxSteps => { walk with status := .budgetExceeded maxSteps }
    | none =>
      let walk := { walk with steps := walk.steps + 1 }
      match fragment.state? walk.current with
      | some state => act config state walk
      | none => { walk with status := .deadEnd walk.current }
  | _ => walk

/-- At most `rounds` rounds, until the walk has ended. -/
def run (config : WalkConfig) (fragment : Fragment) : Nat → Walk σ → Walk σ
  | 0, walk => walk
  | rounds + 1, walk =>
    match walk.status with
    | .running => run config fragment rounds (round config fragment walk)
    | _ => walk

end Walk

/-! ## Generators -/

/-- A configuration and a source of words. -/
structure Generator (σ : Type) where
  config : WalkConfig
  source : σ

namespace Generator

variable {σ : Type}

/-- A generator with a given source; the seed of the configuration is not used. -/
def ofSource (config : WalkConfig) (source : σ) : Except GenerateError (Generator σ) :=
  match config.validate with
  | .ok _ => .ok ⟨config, source⟩
  | .error cause => .error (.invalidConfig cause)

/-- A generator with the key stream of its seed, or with the given one if it has no seed. -/
def seeded (config : WalkConfig) (entropy : KeyStream) :
    Except GenerateError (Generator KeyStream) :=
  ofSource config <|
    match config.seed with
    | some seed => .ofSeed seed
    | none => entropy

variable [RandomSource σ]

/-- The walk of the next call, as far as it gets in so many rounds. -/
def walk (generator : Generator σ) (fragment : Fragment) (rounds : Nat) : Walk σ :=
  (Walk.start fragment generator.source).run generator.config fragment rounds

end Generator

end FragmentAlgebra
