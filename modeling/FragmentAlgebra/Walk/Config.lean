import FragmentAlgebra.Json.Fields
import FragmentAlgebra.Json.Render

/-! # Walk configurations

A `WalkConfig` holds the step budget, the two probabilities and the seed of a random walk.

* `withMaxSteps`, `unbounded`, `withSeed`, `withStopProbability` and `withBranchProbability` change
  one field. None of them looks at what it is given.
* `validate` refuses a stop probability outside `[0, 1]` and a branch probability outside `(0, 1]`.
* `ofText` reads a configuration from JSON text and `ofJson` from a JSON value. Missing fields take
  their defaults and unknown ones are passed over. The fields may also come as an array, in order,
  the last ones left out.
* `toJson` writes every field.
-/

namespace FragmentAlgebra

/-- The parameters of a walk. -/
structure WalkConfig where
  /-- The greatest number of rounds; without it a walk may go on for ever. -/
  maxSteps : Option Nat
  /-- The probability of stopping at a final state that has edges. -/
  stopProbability : Binary64
  /-- The probability of taking any one branch in a round. -/
  branchProbability : Binary64
  seed : Option UInt64
deriving DecidableEq

/-- A probability that is refused. -/
inductive ConfigError
  | stopProbability (got : Binary64)
  | branchProbability (got : Binary64)
deriving DecidableEq

/-- The layout of doubles in messages: never an exponent, and integers without a point. Of two
equally near numerals the one farther from zero is written. -/
def messageLayout : DecimalLayout := ⟨.greater, fun _ => true, false⟩

def Binary64.messageText (x : Binary64) : String :=
  if x.isNaN then "NaN"
  else if x.isFinite then String.ofList (x.render messageLayout)
  else if x.negative then "-inf"
  else "inf"

def ConfigError.message : ConfigError → String
  | .stopProbability got => "stop_probability must be within [0, 1], got " ++ got.messageText
  | .branchProbability got => "branch_probability must be within (0, 1], got " ++ got.messageText

namespace WalkConfig

/-- Fair coins, a budget of 100000 rounds and no seed. -/
def default : WalkConfig := ⟨some 100000, .half, .half, none⟩

/-! ## Fields -/

/-- A budget of `maxSteps` rounds. -/
def withMaxSteps (config : WalkConfig) (maxSteps : Nat) : WalkConfig :=
  { config with maxSteps := some maxSteps }

/-- No budget: a walk may go on for ever. -/
def unbounded (config : WalkConfig) : WalkConfig := { config with maxSteps := none }

/-- A seed, from which walks are repeatable. -/
def withSeed (config : WalkConfig) (seed : UInt64) : WalkConfig := { config with seed := some seed }

/-- Another probability of stopping. -/
def withStopProbability (config : WalkConfig) (stopProbability : Binary64) : WalkConfig :=
  { config with stopProbability }

/-- Another probability of taking a branch. -/
def withBranchProbability (config : WalkConfig) (branchProbability : Binary64) : WalkConfig :=
  { config with branchProbability }

/-! ## Validation -/

/-- From zero to one, both included; no NaN. -/
def isProbability (p : Binary64) : Bool := Binary64.zero.le p && p.le .one

/-- The first probability out of its range. A branch probability of zero is refused too. -/
def validate (config : WalkConfig) : Except ConfigError Unit :=
  if !isProbability config.stopProbability then
    .error (.stopProbability config.stopProbability)
  else if !(Binary64.zero.lt config.branchProbability && config.branchProbability.le .one) then
    .error (.branchProbability config.branchProbability)
  else .ok ()

/-! ## Reading -/

/-- The fields that were read so far. -/
structure Fields where
  maxSteps : Option (Option Nat)
  stopProbability : Option Binary64
  branchProbability : Option Binary64
  seed : Option (Option Nat)
deriving DecidableEq

def Fields.none : Fields := ⟨.none, .none, .none, .none⟩

/-- The configuration with the defaults in place of missing fields. -/
def Fields.complete (fields : Fields) : WalkConfig where
  maxSteps := fields.maxSteps.getD default.maxSteps
  stopProbability := fields.stopProbability.getD default.stopProbability
  branchProbability := fields.branchProbability.getD default.branchProbability
  seed := match fields.seed with
    | some seed => seed.map UInt64.ofNat
    | .none => default.seed

def readCount : Json.Reader (Option Nat) := Json.readOptional (Json.readUnsigned (2 ^ 64))

/-- One member of an object. A field that comes twice is a mismatch. -/
def readMember (fields : Fields) (key : String) : Json.Reader Fields := fun s =>
  match key with
  | "max_steps" => do
    let (maxSteps, s) ← Json.readField fields.maxSteps readCount s
    .ok ({ fields with maxSteps }, s)
  | "stop_probability" => do
    let (stopProbability, s) ← Json.readField fields.stopProbability Json.readDouble s
    .ok ({ fields with stopProbability }, s)
  | "branch_probability" => do
    let (branchProbability, s) ← Json.readField fields.branchProbability Json.readDouble s
    .ok ({ fields with branchProbability }, s)
  | "seed" => do
    let (seed, s) ← Json.readField fields.seed readCount s
    .ok ({ fields with seed }, s)
  | _ => Json.skipField fields s

/-- The fields of an array, behind its opening bracket: `some` for each until the array ends. -/
def readPositional {α : Type} (first : Bool) (value : Json.Reader α) :
    Json.Reader (Option α) := fun s => do
  match ← Json.nextItem first s with
  | some s =>
    let (a, s) ← value s
    .ok (some a, s)
  | none => .ok (none, s)

/-- The fields as an array. -/
def readArray : Json.Reader Fields := fun s => do
  let (maxSteps, s) ← readPositional true readCount s
  let (stopProbability, s) ← readPositional maxSteps.isNone Json.readDouble s
  let (branchProbability, s) ← readPositional maxSteps.isNone Json.readDouble s
  let (seed, s) ← readPositional maxSteps.isNone readCount s
  let s ← Json.closeArray s
  .ok (⟨maxSteps, stopProbability, branchProbability, seed⟩, s)

def readFields : Json.Reader Fields := fun s =>
  match Json.skipBlanks s with
  | '{' :: s => Json.foldMembers readMember .none s
  | '[' :: s => readArray s
  | s => .error (Json.wrongKind s)

def ofText (text : String) : Except Json.Fault WalkConfig :=
  (Json.parseAs readFields text).map (·.complete)

def countOfJson : Json → Except Json.Fault (Option Nat)
  | .null => .ok none
  | .number n =>
    match Json.unsignedBelow? (2 ^ 64) n with
    | some n => .ok (some n)
    | none => .error .mismatch
  | _ => .error .mismatch

def doubleOfJson : Json → Except Json.Fault Binary64
  | .number n => .ok n.toBinary64
  | _ => .error .mismatch

def fieldOfJson {α : Type} (value : Json → Except Json.Fault α) :
    Option Json → Except Json.Fault (Option α)
  | some v => (value v).map some
  | none => .ok none

def fieldsOfJson (maxSteps stop branch seed : Option Json) : Except Json.Fault Fields := do
  let maxSteps ← fieldOfJson countOfJson maxSteps
  let stopProbability ← fieldOfJson doubleOfJson stop
  let branchProbability ← fieldOfJson doubleOfJson branch
  let seed ← fieldOfJson countOfJson seed
  .ok ⟨maxSteps, stopProbability, branchProbability, seed⟩

def ofJson : Json → Except Json.Fault WalkConfig
  | .object members =>
    let field key := Json.member? key members
    (fieldsOfJson (field "max_steps") (field "stop_probability") (field "branch_probability")
      (field "seed")).map (·.complete)
  | .array items =>
    if 4 < items.length then .error .mismatch
    else (fieldsOfJson items[0]? items[1]? items[2]? items[3]?).map (·.complete)
  | _ => .error .mismatch

/-! ## Writing -/

def countToJson : Option Nat → Json
  | some n => .nat n
  | none => .null

def toJson (config : WalkConfig) : Json :=
  .object [("max_steps", countToJson config.maxSteps),
    ("stop_probability", .number (.float config.stopProbability)),
    ("branch_probability", .number (.float config.branchProbability)),
    ("seed", countToJson (config.seed.map (·.toNat)))]

end WalkConfig

end FragmentAlgebra
