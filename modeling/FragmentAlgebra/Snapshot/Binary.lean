import FragmentAlgebra.Snapshot.Basic

/-! # Snapshots as bytes

Every number has a fixed width and starts with its low byte; every list and text starts with its
length as a number of eight bytes. A text is in UTF-8. The fields of a snapshot follow each other in
their order. Bytes behind the last field are not looked at.

What a text says about the moment of a snapshot is left to a reader of texts
(`Snapshot.ofBytesWith`); `Snapshot.ofBytes` takes `Instant.ofChars?` for it.
-/

namespace FragmentAlgebra

/-- A decoder of the front of a byte sequence. -/
abbrev Decoder (α : Type) := List UInt8 → Option (α × List UInt8)

namespace Binary

/-! ## Numbers -/

/-- The `width` low bytes of `n`, the lowest first. -/
def encodeNat : Nat → Nat → List UInt8
  | 0, _ => []
  | width + 1, n => UInt8.ofNat n :: encodeNat width (n / 256)

/-- The number of the first `width` bytes. -/
def decodeNat : Nat → Decoder Nat
  | 0, bytes => some (0, bytes)
  | _ + 1, [] => none
  | width + 1, b :: bytes => do
    let (n, bytes) ← decodeNat width bytes
    some (b.toNat + 256 * n, bytes)

/-- A number of eight bytes. -/
def encodeWord (n : Nat) : List UInt8 := encodeNat 8 n

def decodeWord : Decoder Nat := decodeNat 8

/-- A flag as the byte 0 or 1. -/
def encodeBool (b : Bool) : List UInt8 := [if b then 1 else 0]

/-- A flag; bytes beyond 1 are refused. -/
def decodeBool : Decoder Bool
  | 0 :: bytes => some (false, bytes)
  | 1 :: bytes => some (true, bytes)
  | _ => none

/-- The byte in front. -/
def decodeByte : Decoder UInt8
  | [] => none
  | b :: bytes => some (b, bytes)

/-! ## Lists -/

/-- The length of a list, then its items. -/
def encodeList {α : Type} (item : α → List UInt8) (items : List α) : List UInt8 :=
  encodeWord items.length ++ items.flatMap item

/-- So many items behind each other. -/
def decodeItems {α : Type} (item : Decoder α) : Nat → Decoder (List α)
  | 0, bytes => some ([], bytes)
  | count + 1, bytes => do
    let (first, bytes) ← item bytes
    let (rest, bytes) ← decodeItems item count bytes
    some (first :: rest, bytes)

/-- A list with its length in front. -/
def decodeList {α : Type} (item : Decoder α) : Decoder (List α) := fun bytes => do
  let (count, bytes) ← decodeWord bytes
  decodeItems item count bytes

/-- The number of some bytes, then the bytes. -/
def encodeBytes (data : List UInt8) : List UInt8 := encodeWord data.length ++ data

/-- As many bytes as the number in front of them says. -/
def decodeBytes : Decoder (List UInt8) := fun bytes => do
  let (count, bytes) ← decodeWord bytes
  if count ≤ bytes.length then some (bytes.take count, bytes.drop count) else none

/-! ## Fields -/

/-- The UTF-8 of a text. -/
def utf8Bytes (text : List Char) : List UInt8 := text.flatMap String.utf8EncodeChar

/-- The text that has these bytes as its UTF-8. -/
def utf8Chars? (bytes : List UInt8) : Option (List Char) :=
  (String.fromUTF8? ⟨bytes.toArray⟩).map String.toList

/-- An instant as a text. -/
def decodeInstant (read : List Char → Option Instant) : Decoder Instant := fun bytes => do
  let (data, bytes) ← decodeBytes bytes
  let text ← utf8Chars? data
  let instant ← read text
  some (instant, bytes)

/-- The bytes of an id, of which there must be sixteen. -/
def decodeId : Decoder SnapshotId := fun bytes => do
  let (data, bytes) ← decodeBytes bytes
  let id ← SnapshotId.ofBytes? data
  some (id, bytes)

def encodeTargets (targets : List StateId) : List UInt8 := encodeList encodeWord targets

def decodeTargets : Decoder (List StateId) := decodeList decodeWord

/-- A symbol and its targets. -/
def encodeTransition (transition : Symbol × List StateId) : List UInt8 :=
  transition.1 :: encodeTargets transition.2

def decodeTransition : Decoder (Symbol × List StateId) := fun bytes => do
  let (symbol, bytes) ← decodeByte bytes
  let (targets, bytes) ← decodeTargets bytes
  some ((symbol, targets), bytes)

/-- The flag of a state, its epsilon targets and its other targets by symbol. -/
def encodeRecord (record : StateRecord) : List UInt8 :=
  encodeBool record.isFinal ++ encodeTargets record.epsilon ++
    encodeList encodeTransition record.transitions

def decodeRecord : Decoder StateRecord := fun bytes => do
  let (isFinal, bytes) ← decodeBool bytes
  let (epsilon, bytes) ← decodeTargets bytes
  let (transitions, bytes) ← decodeList decodeTransition bytes
  some (⟨isFinal, epsilon, transitions⟩, bytes)

/-- The fields of a snapshot in their order. -/
def decodeSnapshot (read : List Char → Option Instant) : Decoder Snapshot := fun bytes => do
  let (version, bytes) ← decodeNat 4 bytes
  let (id, bytes) ← decodeId bytes
  let (createdAt, bytes) ← decodeInstant read bytes
  let (entry, bytes) ← decodeWord bytes
  let (exit, bytes) ← decodeWord bytes
  let (states, bytes) ← decodeList decodeRecord bytes
  some (⟨UInt32.ofNat version, id, createdAt, entry, exit, states⟩, bytes)

end Binary

namespace Snapshot

/-- The bytes that a snapshot is written as. -/
def toBytes (s : Snapshot) : List UInt8 :=
  Binary.encodeNat 4 s.version.toNat ++ Binary.encodeBytes s.id.bytes.toList ++
    Binary.encodeBytes (Binary.utf8Bytes s.createdAt.chars) ++ Binary.encodeWord s.entry ++
    Binary.encodeWord s.exit ++ Binary.encodeList Binary.encodeRecord s.states

/-- The snapshot at the front of some bytes, its moment as `read` says. -/
def ofBytesWith (read : List Char → Option Instant) (bytes : List UInt8) :
    Except SnapshotError Snapshot :=
  match Binary.decodeSnapshot read bytes with
  | some (s, _) => .ok s
  | none => .error .undecodable

/-- The snapshot at the front of some bytes. -/
def ofBytes (bytes : List UInt8) : Except SnapshotError Snapshot :=
  ofBytesWith Instant.ofChars? bytes

end Snapshot

end FragmentAlgebra
