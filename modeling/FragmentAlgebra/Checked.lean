import FragmentAlgebra.Search
import FragmentAlgebra.Snapshot.Basic
import FragmentAlgebra.Walk.Basic

/-! # Checked queries

The queries of a fragment once more, walk, search and capture, with everything checked that they
take for granted: that the chance of a coin lies between zero and one, that an index is drawn from a
range which is neither empty nor too long for a 32-bit word, that the index drawn lies inside the
list, that every state looked up is there, and that every entry of a search lies inside the input. A
check that fails breaks the query off with a `Breach`.
-/

namespace FragmentAlgebra

open Std (HashSet)

/-- A check that fails. -/
inductive Breach
  | improbableCoin (p : Binary64)
  | unfitRange (length : Nat)
  | indexOutOfRange (index length : Nat)
  | missingState (q : StateId)
  | strayEntry (q : StateId) (offset : Nat)
deriving DecidableEq

/-- A finite number from zero to one. -/
def Binary64.IsChance (p : Binary64) : Prop :=
  p.isFinite = true ∧ zero.scaled ≤ p.scaled ∧ p.scaled ≤ one.scaled

instance (p : Binary64) : Decidable p.IsChance := by
  unfold Binary64.IsChance; infer_instance

/-- A 32-bit word tells the targets of every list apart. -/
def Fragment.ShortLists (fragment : Fragment) : Prop :=
  ∀ state ∈ fragment.states, state.epsilon.length < 2 ^ 32 ∧
    ∀ row ∈ state.edges.rows, row.2.length < 2 ^ 32

instance (fragment : Fragment) : Decidable fragment.ShortLists := by
  unfold Fragment.ShortLists; infer_instance

namespace Checked

/-- A state that must be in the arena. -/
def lookUp (fragment : Fragment) (q : StateId) : Except Breach State :=
  match fragment.state? q with
  | some state => .ok state
  | none => .error (.missingState q)

/-! ## Choices -/

/-- A random choice that may break off. -/
abbrev Choice (σ α : Type) := ExceptT Breach (StateM σ) α

section Choices

variable {σ α : Type} [RandomSource σ]

def flip (p : Binary64) : Choice σ Bool :=
  if p.IsChance then liftM (Random.flip p : StateM σ Bool)
  else throw (.improbableCoin p)

def below (n : Nat) : Choice σ Nat :=
  if 0 < n ∧ n < 2 ^ 32 then liftM (Random.below n : StateM σ Nat) else throw (.unfitRange n)

def pick (targets : List StateId) : Choice σ StateId := do
  let index ← below targets.length
  match targets[index]? with
  | some target => pure target
  | none => throw (.indexOutOfRange index targets.length)

def chooseSkip (p : Binary64) (current : StateId) (state : State) : Choice σ (Option Move) := do
  if state.epsilon.isEmpty then pure none
  else if ← flip p then
    let target ← pick state.epsilon
    pure (some (.skip current target))
  else pure none

/-- The targets of every symbol are looked up in the edge table. -/
def chooseFrom (p : Binary64) (current : StateId) (state : State) :
    List Symbol → Choice σ (Option Move)
  | [] => chooseSkip p current state
  | symbol :: symbols => do
    if ← flip p then
      let target ← pick (state.targets symbol)
      pure (some (.consume current symbol target))
    else chooseFrom p current state symbols

def chooseMove (p : Binary64) (current : StateId) (state : State) : Choice σ (Option Move) :=
  chooseFrom p current state state.symbols

def chooseStop (p : Binary64) (state : State) : Choice σ Bool :=
  if state.isFinal then
    if state.hasEdges then flip p else pure true
  else pure false

/-- The outcome of a choice and the source behind it. -/
def attempt (choice : Choice σ α) (source : σ) : Except Breach (α × σ) :=
  match choice.run.run source with
  | (.ok a, source) => .ok (a, source)
  | (.error breach, _) => .error breach

/-! ## Walks -/

def act (config : WalkConfig) (state : State) (walk : Walk σ) : Except Breach (Walk σ) := do
  let (stop, source) ← attempt (chooseStop config.stopProbability state) walk.source
  let walk := { walk with source }
  if stop then .ok { walk with status := .complete }
  else if !state.hasEdges then .ok { walk with status := .deadEnd walk.current }
  else
    let (move, source) ←
      attempt (chooseMove config.branchProbability walk.current state) walk.source
    let walk := { walk with source }
    match move with
    | some move => .ok { walk with current := move.target, moves := move :: walk.moves }
    | none => .ok walk

def round (config : WalkConfig) (fragment : Fragment) (walk : Walk σ) : Except Breach (Walk σ) :=
  match walk.status with
  | .running =>
    match Walk.spent config walk.steps with
    | some maxSteps => .ok { walk with status := .budgetExceeded maxSteps }
    | none => do
      let state ← lookUp fragment walk.current
      act config state { walk with steps := walk.steps + 1 }
  | _ => .ok walk

def run (config : WalkConfig) (fragment : Fragment) : Nat → Walk σ → Except Breach (Walk σ)
  | 0, walk => .ok walk
  | rounds + 1, walk =>
    match walk.status with
    | .running => do
      let walk ← round config fragment walk
      run config fragment rounds walk
    | _ => .ok walk

def walk (generator : Generator σ) (fragment : Fragment) (rounds : Nat) :
    Except Breach (Walk σ) :=
  run generator.config fragment rounds (.start fragment generator.source)

end Choices

/-! ## Searches -/

def isFinal (fragment : Fragment) (q : StateId) : Except Breach Bool := do
  let state ← lookUp fragment q
  .ok state.isFinal

def targets (fragment : Fragment) (q : StateId) (symbol : Symbol) :
    Except Breach (List StateId) := do
  let state ← lookUp fragment q
  .ok (state.targets symbol)

/-- The epsilon closure, with a look-up of every state on the stack. -/
def closureFrom (fragment : Fragment) (visited : HashSet StateId) (seen : List StateId)
    (stack : List StateId) : Except Breach (List StateId) :=
  match stack with
  | [] => .ok seen
  | q :: stack =>
    if q ∈ visited then closureFrom fragment visited seen stack
    else
      match _found : fragment.state? q with
      | none => .error (.missingState q)
      | some state =>
        let visited := visited.insert q
        closureFrom fragment visited (q :: seen) (state.epsilon.filter (· ∉ visited) ++ stack)
termination_by (unused (List.range fragment.count) visited, stack.length)
decreasing_by
  · exact Prod.Lex.right _ (Nat.lt_succ_self _)
  · refine Prod.Lex.left _ _ (unused_insert_lt ?_ ‹_›)
    exact List.mem_range.2 (Array.getElem?_eq_some_iff.1 _found).1

def expand (fragment : Fragment) (input : Array Symbol) (settled : HashSet Search.Entry)
    (entry : Search.Entry) : Except Breach Search.Expansion := do
  let stretch ← closureFrom fragment ∅ [] [entry.1]
  match input[entry.2]? with
  | none =>
    let flags ← stretch.mapM (isFinal fragment)
    .ok (if flags.any id then .accepted else .queued [])
  | some symbol =>
    let lists ← stretch.mapM fun q => targets fragment q symbol
    .ok <| .queued <| lists.flatMap fun targets =>
      targets.map (fun next => (next, entry.2 + 1)) |>.filter (· ∉ settled)

/-- The search from pending entries on. -/
def searchFrom (fragment : Fragment) (input : Array Symbol) (settled : HashSet Search.Entry)
    (pending : List Search.Entry) : Except Breach Search.Report :=
  match pending with
  | [] => .ok ⟨false, settled.size⟩
  | entry :: pending =>
    if entry ∈ settled then searchFrom fragment input settled pending
    else if _inside : entry.1 < fragment.count ∧ entry.2 ≤ input.size then
      let settled := settled.insert entry
      match expand fragment input settled entry with
      | .error breach => .error breach
      | .ok .accepted => .ok ⟨true, settled.size⟩
      | .ok (.queued next) => searchFrom fragment input settled (next ++ pending)
    else .error (.strayEntry entry.1 entry.2)
termination_by (unused (Search.entries fragment input) settled, pending.length)
decreasing_by
  · exact Prod.Lex.right _ (Nat.lt_succ_self _)
  · exact Prod.Lex.left _ _ (unused_insert_lt (Search.mem_entries.2 _inside) ‹_›)

def search (fragment : Fragment) (input : List Symbol) : Except Breach Search.Report :=
  searchFrom fragment input.toArray ∅ [(fragment.entry, 0)]

/-! ## Captures -/

/-- A snapshot, with every state looked up in the arena. -/
def capture (id : SnapshotId) (createdAt : Instant) (fragment : Fragment) :
    Except Breach Snapshot := do
  let states ← (List.range fragment.count).mapM (lookUp fragment)
  .ok ⟨Snapshot.currentVersion, id, createdAt, fragment.entry, fragment.exit,
    states.map .ofState⟩

end Checked

end FragmentAlgebra
