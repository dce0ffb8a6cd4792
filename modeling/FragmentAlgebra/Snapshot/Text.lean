import FragmentAlgebra.Json.Fields
import FragmentAlgebra.Json.Render
import FragmentAlgebra.Snapshot.Basic

/-! # Snapshots as JSON text

`toText` writes a snapshot without blanks, its fields in their order. `ofText` reads the fields in
any order and passes over unknown ones; a field that is missing or comes twice is refused. A
snapshot and a record may also be arrays of their fields, in order and complete.
-/

namespace FragmentAlgebra

/-! ## Writing -/

def targetsToJson (targets : List StateId) : Json := .array (targets.map .nat)

def StateRecord.toJson (record : StateRecord) : Json :=
  .object [("is_final", .bool record.isFinal),
    ("epsilon", targetsToJson record.epsilon),
    ("transitions", .array (record.transitions.map fun (symbol, targets) =>
      .array [.nat symbol.toNat, targetsToJson targets]))]

def Snapshot.toJson (s : Snapshot) : Json :=
  .object [("version", .nat s.version.toNat),
    ("id", .string (String.ofList s.id.chars)),
    ("created_at", .string (String.ofList s.createdAt.chars)),
    ("entry", .nat s.entry),
    ("exit", .nat s.exit),
    ("states", .array (s.states.map (·.toJson)))]

def Snapshot.toText (s : Snapshot) : String := s.toJson.render

/-! ## Reading fields -/

open Json (Reader)

def readStateId : Reader StateId := Json.readUnsigned (2 ^ 64)

def readTargets : Reader (List StateId) := Json.readList readStateId

/-- A symbol and its targets, as an array of two. -/
def readTransition : Reader (Symbol × List StateId) := fun s =>
  match Json.skipBlanks s with
  | '[' :: s => do
    let (symbol, s) ← Json.readItem true (Json.readUnsigned 256) s
    let (targets, s) ← Json.readItem false readTargets s
    let s ← Json.closeArray s
    .ok ((UInt8.ofNat symbol, targets), s)
  | s => .error (Json.wrongKind s)

def readTransitions : Reader (List (Symbol × List StateId)) := Json.readList readTransition

/-! ## Reading records -/

/-- The fields of a record that were read so far. -/
structure RecordFields where
  isFinal : Option Bool
  epsilon : Option (List StateId)
  transitions : Option (List (Symbol × List StateId))

namespace RecordFields

def none : RecordFields := ⟨.none, .none, .none⟩

def complete? (fields : RecordFields) : Option StateRecord := do
  some ⟨← fields.isFinal, ← fields.epsilon, ← fields.transitions⟩

def readMember (fields : RecordFields) (key : String) : Reader RecordFields := fun s =>
  match key with
  | "is_final" => do
    let (isFinal, s) ← Json.readField fields.isFinal Json.readBool s
    .ok ({ fields with isFinal }, s)
  | "epsilon" => do
    let (epsilon, s) ← Json.readField fields.epsilon readTargets s
    .ok ({ fields with epsilon }, s)
  | "transitions" => do
    let (transitions, s) ← Json.readField fields.transitions readTransitions s
    .ok ({ fields with transitions }, s)
  | _ => Json.skipField fields s

end RecordFields

/-- The value of complete fields. -/
def completed {α : Type} (value : Option α) (s : List Char) : Except Json.Fault (α × List Char) :=
  match value with
  | some a => .ok (a, s)
  | none => .error .mismatch

/-- A record in the object form or the array form. -/
def readRecord : Reader StateRecord := fun s =>
  match Json.skipBlanks s with
  | '{' :: s => do
    let (fields, s) ← Json.foldMembers RecordFields.readMember .none s
    completed fields.complete? s
  | '[' :: s => do
    let (isFinal, s) ← Json.readItem true Json.readBool s
    let (epsilon, s) ← Json.readItem false readTargets s
    let (transitions, s) ← Json.readItem false readTransitions s
    let s ← Json.closeArray s
    .ok (⟨isFinal, epsilon, transitions⟩, s)
  | s => .error (Json.wrongKind s)

/-! ## Reading snapshots -/

/-- The fields of a snapshot that were read so far. -/
structure SnapshotFields where
  version : Option Nat
  id : Option SnapshotId
  createdAt : Option Instant
  entry : Option StateId
  exit : Option StateId
  states : Option (List StateRecord)

namespace SnapshotFields

def none : SnapshotFields := ⟨.none, .none, .none, .none, .none, .none⟩

def complete? (fields : SnapshotFields) : Option Snapshot := do
  some ⟨UInt32.ofNat (← fields.version), ← fields.id, ← fields.createdAt, ← fields.entry,
    ← fields.exit, ← fields.states⟩

def readVersion : Reader Nat := Json.readUnsigned (2 ^ 32)

def readId : Reader SnapshotId := Json.readTextField SnapshotId.ofChars?

def readInstant : Reader Instant := Json.readTextField Instant.ofChars?

def readRecords : Reader (List StateRecord) := Json.readList readRecord

def readMember (fields : SnapshotFields) (key : String) : Reader SnapshotFields := fun s =>
  match key with
  | "version" => do
    let (version, s) ← Json.readField fields.version readVersion s
    .ok ({ fields with version }, s)
  | "id" => do
    let (id, s) ← Json.readField fields.id readId s
    .ok ({ fields with id }, s)
  | "created_at" => do
    let (createdAt, s) ← Json.readField fields.createdAt readInstant s
    .ok ({ fields with createdAt }, s)
  | "entry" => do
    let (entry, s) ← Json.readField fields.entry readStateId s
    .ok ({ fields with entry }, s)
  | "exit" => do
    let (exit, s) ← Json.readField fields.exit readStateId s
    .ok ({ fields with exit }, s)
  | "states" => do
    let (states, s) ← Json.readField fields.states readRecords s
    .ok ({ fields with states }, s)
  | _ => Json.skipField fields s

end SnapshotFields

/-- A snapshot in the object form or the array form. -/
def readSnapshot : Reader Snapshot := fun s =>
  match Json.skipBlanks s with
  | '{' :: s => do
    let (fields, s) ← Json.foldMembers SnapshotFields.readMember .none s
    completed fields.complete? s
  | '[' :: s => do
    let (version, s) ← Json.readItem true SnapshotFields.readVersion s
    let (id, s) ← Json.readItem false SnapshotFields.readId s
    let (createdAt, s) ← Json.readItem false SnapshotFields.readInstant s
    let (entry, s) ← Json.readItem false readStateId s
    let (exit, s) ← Json.readItem false readStateId s
    let (states, s) ← Json.readItem false SnapshotFields.readRecords s
    let s ← Json.closeArray s
    .ok (⟨UInt32.ofNat version, id, createdAt, entry, exit, states⟩, s)
  | s => .error (Json.wrongKind s)

def Snapshot.ofText (text : String) : Except SnapshotError Snapshot :=
  match Json.parseAs readSnapshot text with
  | .ok s => .ok s
  | .error _ => .error .undecodable

end FragmentAlgebra
