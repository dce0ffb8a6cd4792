import FragmentAlgebra.Hexadecimal
import FragmentAlgebra.Random.Source

/-! # Snapshot ids

A `SnapshotId` is sixteen bytes. It is written as lower-case hexadecimal digits in groups of 8, 4,
4, 4 and 12. It is read in that form, in the same form inside braces or behind `urn:uuid:`, and as
32 digits without hyphens; the case of letters does not matter.

A new id is made of random bytes, with the version 4 and the variant marked in two of them
(`SnapshotId.random`).
-/

namespace FragmentAlgebra

/-- The name of a snapshot. -/
structure SnapshotId where
  bytes : Vector UInt8 16
deriving DecidableEq

namespace SnapshotId

/-! ## New ids -/

/-- Some bytes with the marks of a random id: the version in the seventh, the variant in the
ninth. -/
def ofRandomBytes (bytes : Vector UInt8 16) : SnapshotId :=
  ⟨(bytes.set 6 (bytes[6] &&& 0x0f ||| 0x40)).set 8 (bytes[8] &&& 0x3f ||| 0x80)⟩

/-- The version that an id is marked with. -/
def version (id : SnapshotId) : Nat := id.bytes[6].toNat / 16

theorem version_ofRandomBytes (bytes : Vector UInt8 16) : (ofRandomBytes bytes).version = 4 := by
  have marked (b : UInt8) : (b &&& 0x0f ||| 0x40).toNat / 16 = 4 := by
    have all : ∀ n : Fin 256, (UInt8.ofNat n &&& 0x0f ||| 0x40).toNat / 16 = 4 := by
      decide +kernel
    simpa using all ⟨b.toNat, b.toNat_lt⟩
  have seventh : (ofRandomBytes bytes).bytes[6] = bytes[6] &&& 0x0f ||| 0x40 := by
    simp [ofRandomBytes]
  rw [version, seventh, marked]

/-- An id of two words of a source. -/
def random {σ : Type} [RandomSource σ] : StateM σ SnapshotId := do
  let low ← RandomSource.word
  let high ← RandomSource.word
  pure (ofRandomBytes (.ofFn fun i =>
    if i.val < 8 then UInt8.ofNat (low.toNat / 256 ^ i.val)
    else UInt8.ofNat (high.toNat / 256 ^ (i.val - 8))))

/-! ## Texts -/

/-- The digits of all bytes. -/
def plainChars (id : SnapshotId) : List Char := id.bytes.toList.flatMap Hexadecimal.byteChars

/-- The digits in groups, with hyphens between them. -/
def chars (id : SnapshotId) : List Char :=
  let s := id.plainChars
  s.take 8 ++ '-' :: (s.drop 8).take 4 ++ '-' :: (s.drop 12).take 4 ++
    '-' :: (s.drop 16).take 4 ++ '-' :: s.drop 20

/-- The id of sixteen bytes. -/
def ofBytes? (bytes : List UInt8) : Option SnapshotId :=
  if size : bytes.toArray.size = 16 then some ⟨⟨bytes.toArray, size⟩⟩ else none

theorem ofBytes?_toList (id : SnapshotId) : ofBytes? id.bytes.toList = some id := by
  obtain ⟨⟨bytes, size⟩⟩ := id
  simp [ofBytes?, size]

/-- The id of 32 digits. -/
def ofPlain? (s : List Char) : Option SnapshotId :=
  Hexadecimal.bytes? s >>= ofBytes?

/-- The id of 36 characters with hyphens behind the first 8, 12, 16 and 20 digits. -/
def ofHyphenated? (s : List Char) : Option SnapshotId :=
  if s.length = 36 && [8, 13, 18, 23].all (fun i => s[i]? == some '-') then
    ofPlain? (s.filter (· ≠ '-'))
  else none

/-- The id that a text names in one of its forms. -/
def ofChars? (s : List Char) : Option SnapshotId :=
  if s.length = 32 then ofPlain? s
  else if s.length = 36 then ofHyphenated? s
  else if s.length = 38 && s.head? == some '{' && s.getLast? == some '}' then
    ofHyphenated? ((s.drop 1).take 36)
  else if s.length = 45 && (s.take 9).map Char.toLower == "urn:uuid:".toList then
    ofHyphenated? (s.drop 9)
  else none

end SnapshotId

end FragmentAlgebra
