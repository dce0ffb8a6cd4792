import FragmentAlgebra.Fragment.Basic
import FragmentAlgebra.Snapshot.Id
import FragmentAlgebra.Snapshot.Instant

/-! # Snapshots

A `Snapshot` records the arena of a fragment as plain data. `capture` records a fragment under a
given id and `captureNew` under a new one; `validate` makes every check of a record and gathers all
the violations, and `restore` builds the fragment when no check fails.
-/

namespace FragmentAlgebra

/-- The recorded flag and edges of one state. The transitions may name symbols in any order and
more than once. -/
structure StateRecord where
  isFinal : Bool
  epsilon : List StateId
  transitions : List (Symbol × List StateId)
deriving DecidableEq

/-- The recorded arena of a fragment, with a name and the moment of recording. -/
structure Snapshot where
  version : UInt32
  id : SnapshotId
  createdAt : Instant
  entry : StateId
  exit : StateId
  /-- One record for each state, in arena order. -/
  states : List StateRecord
deriving DecidableEq

/-- A structural defect of a snapshot. -/
inductive Violation
  | entryOutOfRange (entry : StateId) (count : Nat)
  | exitOutOfRange (exit : StateId) (count : Nat)
  | targetOutOfRange (state target : StateId)
  | exitNotFinal (exit : StateId)
  | strayFinal (state : StateId)
deriving DecidableEq

/-- What a violation says to a reader. -/
def Violation.message : Violation → String
  | .entryOutOfRange entry count =>
    "Entry state " ++ entry.label ++ " is outside the " ++ toString count ++ " recorded states"
  | .exitOutOfRange exit count =>
    "Exit state " ++ exit.label ++ " is outside the " ++ toString count ++ " recorded states"
  | .targetOutOfRange state target =>
    "State " ++ state.label ++ " has an edge to missing state " ++ target.label
  | .exitNotFinal exit => "Exit state " ++ exit.label ++ " is not final"
  | .strayFinal state => "State " ++ state.label ++ " is final but is not the exit"

/-- Why a snapshot is not read or not restored. -/
inductive SnapshotError
  | undecodable
  | unsupportedVersion (found : UInt32)
  | invalid (violations : List Violation)
deriving DecidableEq

/-! ## Checks -/

/-- A check that has passed, or one that has failed with at least one violation. -/
inductive Validation
  | success
  | failure (first : Violation) (others : List Violation)
deriving DecidableEq

namespace Validation

/-- What the failed checks found. -/
def violations : Validation → List Violation
  | .success => []
  | .failure first others => first :: others

/-- A single check, with the violation that it finds if it fails. -/
def check (ok : Bool) (violation : Violation) : Validation :=
  if ok then .success else .failure violation []

/-- Two checks in a row: the violations of the later one stand behind those of the earlier one. -/
def append : Validation → Validation → Validation
  | .success, later => later
  | .failure first others, later => .failure first (others ++ later.violations)

/-- All checks of a list. It passes if each of them does, and fails with all their violations. -/
def all (checks : List Validation) : Validation := checks.foldr append .success

end Validation

namespace StateRecord

/-! ## Recording a state -/

/-- The record of a state, its symbols ascending. -/
def ofState (state : State) : StateRecord := ⟨state.isFinal, state.epsilon, state.edges.rows⟩

/-- Every recorded target: epsilon edges first, then the transitions in recorded order. -/
def allTargets (record : StateRecord) : List StateId :=
  record.epsilon ++ record.transitions.flatMap (·.2)

/-- The state that a record describes: its edges are appended one by one. -/
def toState (record : StateRecord) : State :=
  record.transitions.foldl
    (fun state (symbol, targets) => targets.foldl (·.addSymbolEdge symbol ·) state)
    ⟨record.isFinal, record.epsilon, .empty⟩

/-! ## Sizes -/

/-- Every target is a number of eight bytes. -/
def IdsFit (record : StateRecord) : Prop := ∀ target ∈ record.allTargets, target < 2 ^ 64

/-- The length of every list is a number of eight bytes. -/
def LengthsFit (record : StateRecord) : Prop :=
  record.epsilon.length < 2 ^ 64 ∧ record.transitions.length < 2 ^ 64 ∧
    ∀ row ∈ record.transitions, row.2.length < 2 ^ 64

instance (record : StateRecord) : Decidable record.IdsFit := by
  unfold IdsFit; infer_instance

instance (record : StateRecord) : Decidable record.LengthsFit := by
  unfold LengthsFit; infer_instance

end StateRecord

namespace Snapshot

/-- The version that is written, and the one that is restored. -/
def currentVersion : UInt32 := 1

/-- Record a fragment under a name. -/
def capture (id : SnapshotId) (createdAt : Instant) (fragment : Fragment) : Snapshot :=
  ⟨currentVersion, id, createdAt, fragment.entry, fragment.exit,
    fragment.states.toList.map .ofState⟩

/-- Record a fragment under a new id. -/
def captureNew {σ : Type} [RandomSource σ] (createdAt : Instant) (fragment : Fragment) :
    StateM σ Snapshot := do
  let id ← SnapshotId.random
  pure (capture id createdAt fragment)

theorem version_captureNew {σ : Type} [RandomSource σ] (createdAt : Instant) (fragment : Fragment)
    (source : σ) : ((captureNew createdAt fragment).run source).1.id.version = 4 :=
  SnapshotId.version_ofRandomBytes _

/-! ## Sizes -/

/-- Every state id is a number of eight bytes. -/
def IdsFit (s : Snapshot) : Prop :=
  s.entry < 2 ^ 64 ∧ s.exit < 2 ^ 64 ∧ ∀ record ∈ s.states, record.IdsFit

/-- The length of every list is a number of eight bytes. -/
def LengthsFit (s : Snapshot) : Prop :=
  s.states.length < 2 ^ 64 ∧ ∀ record ∈ s.states, record.LengthsFit

instance (s : Snapshot) : Decidable s.IdsFit := by
  unfold IdsFit; infer_instance

instance (s : Snapshot) : Decidable s.LengthsFit := by
  unfold LengthsFit; infer_instance

/-! ## Validation -/

/-- The id is that of a recorded state. -/
def inRange (s : Snapshot) (id : StateId) : Bool := id < s.states.length

/-- The entry is a recorded state. -/
def entryCheck (s : Snapshot) : Validation :=
  .check (s.inRange s.entry) (.entryOutOfRange s.entry s.states.length)

/-- The exit is looked up if it is a recorded state; otherwise the check fails at once. -/
def exitCheck (s : Snapshot) : Validation :=
  match s.states[s.exit]? with
  | some record => .check record.isFinal (.exitNotFinal s.exit)
  | none => .check false (.exitOutOfRange s.exit s.states.length)

/-- The checks of the record at position `state`: one that fails if it is final but not the exit,
then one for each target. -/
def recordChecks (s : Snapshot) (state : StateId) (record : StateRecord) : List Validation :=
  (if record.isFinal && state ≠ s.exit then [.check false (.strayFinal state)] else []) ++
    record.allTargets.map fun target =>
      .check (s.inRange target) (.targetOutOfRange state target)

/-- Every check, in order: the entry, the exit, then the records. -/
def checks (s : Snapshot) : List Validation :=
  s.entryCheck :: s.exitCheck ::
    s.states.zipIdx.flatMap fun (record, state) => s.recordChecks state record

/-- All checks together. -/
def validate (s : Snapshot) : Validation := .all s.checks

/-- Everything that keeps the snapshot from being a fragment. -/
def violations (s : Snapshot) : List Violation := s.validate.violations

/-! ## Restoring -/

/-- The recorded fragment, whether or not it is well formed. -/
def toFragment (s : Snapshot) : Fragment :=
  ⟨(s.states.map (·.toState)).toArray, s.entry, s.exit⟩

/-- The recorded fragment, if the snapshot has the current version and passes every check. -/
def restore (s : Snapshot) : Except SnapshotError Fragment :=
  if s.version ≠ currentVersion then .error (.unsupportedVersion s.version)
  else
    match s.validate with
    | .success => .ok s.toFragment
    | .failure first others => .error (.invalid (first :: others))

end Snapshot

/-- What an error says to a reader. -/
def SnapshotError.message : SnapshotError → String
  | .undecodable => "Deserialization failed"
  | .unsupportedVersion found =>
    "Unsupported snapshot version " ++ toString found.toNat ++ ", supported: " ++
      toString Snapshot.currentVersion.toNat
  | .invalid violations =>
    "Snapshot validation failed with " ++ toString violations.length ++ " violation(s)"

end FragmentAlgebra
