import FragmentAlgebra.Proofs.Instants
import FragmentAlgebra.Snapshot.Binary

/-! # The bytes of a snapshot

`Decodes decode bytes a` says that `bytes` is a code of `a`: whatever follows them, the decoder
reads `a` and stops behind them, and nothing less than all of them will do. Codes of consecutive
fields are again codes (`Decodes.bind`), so that every level of a snapshot, from numbers over lists
to records, needs its decoder as a sequence of fields and one lemma that follows this sequence.

A snapshot may spell its moment as any text that is read as it (`decodes_spelledBytes`). In
particular it is read back
from the bytes that it is written as whatever stands behind them, and from no proper prefix of them
(`ofBytes_toBytes_append`), if its numbers and the lengths of its lists fit into eight bytes and its
year has four digits.
-/

namespace FragmentAlgebra

/-! ## Decoders in sequence -/

namespace Decoder

variable {α β : Type}

protected def pure (a : α) : Decoder α := fun bytes => some (a, bytes)

/-- Decode, then go on behind what was read. -/
protected def bind (decode : Decoder α) (next : α → Decoder β) : Decoder β := fun bytes =>
  decode bytes >>= fun (a, bytes) => next a bytes

/-- Decode, and look at the value before it is accepted. -/
def check (decode : Decoder α) (accept : α → Option β) : Decoder β := fun bytes => do
  let (a, bytes) ← decode bytes
  let b ← accept a
  some (b, bytes)

end Decoder

/-! ## Codes -/

/-- The decoder reads `a` from `bytes` with anything behind them, and from no proper prefix. -/
structure Decodes {α : Type} (decode : Decoder α) (bytes : List UInt8) (a : α) : Prop where
  append : ∀ rest, decode (bytes ++ rest) = some (a, rest)
  cut : ∀ front, front <+: bytes → front ≠ bytes → decode front = none

namespace Decodes

variable {α β : Type} {decode : Decoder α} {next : α → Decoder β} {u v : List UInt8} {a : α} {b : β}

theorem pure (a : α) : Decodes (.pure a) [] a where
  append _ := rfl
  cut _ start ne := absurd (List.prefix_nil.1 start) ne

/-- A code behind another. -/
theorem bind (first : Decodes decode u a) (second : Decodes (next a) v b) :
    Decodes (.bind decode next) (u ++ v) b where
  append rest := by
    rw [List.append_assoc, Decoder.bind, first.append]
    exact second.append rest
  cut front start ne := by
    rw [Decoder.bind]
    by_cases inside : front <+: u ∧ front ≠ u
    · rw [first.cut front inside.1 inside.2]
      rfl
    · have behind : u <+: front := by
        rcases List.prefix_or_prefix_of_prefix start (List.prefix_append u v) with le | ge
        · by_cases same : front = u
          · exact same ▸ List.prefix_refl u
          · exact absurd ⟨le, same⟩ inside
        · exact ge
      obtain ⟨tail, rfl⟩ := behind
      rw [first.append]
      refine second.cut tail ((List.prefix_append_right_inj u).1 start) ?_
      rintro rfl
      exact ne rfl

/-- The last code of a sequence. -/
theorem map (last : Decodes decode u a) (f : α → β) :
    Decodes (.bind decode fun a => .pure (f a)) u (f a) := by
  have whole : Decodes (.bind decode fun a => .pure (f a)) (u ++ []) (f a) :=
    last.bind (.pure (f a))
  rwa [List.append_nil] at whole

theorem check {accept : α → Option β} (first : Decodes decode u a) (accepted : accept a = some b) :
    Decodes (.check decode accept) u b where
  append rest := by
    rw [Decoder.check, first.append]
    simp [accepted]
  cut front start ne := by
    rw [Decoder.check, first.cut front start ne]
    rfl

theorem of_byte {c : UInt8} (read : ∀ rest, decode (c :: rest) = some (a, rest))
    (none_left : decode [] = none) : Decodes decode [c] a where
  append := read
  cut front start ne := by
    cases front with
    | nil => exact none_left
    | cons d front =>
      obtain ⟨rfl, rest⟩ := List.cons_prefix_cons.1 start
      exact absurd (by rw [List.prefix_nil.1 rest]) ne

end Decodes

namespace Binary

variable {α : Type}

/-! ## Numbers -/

theorem decodes_byte (b : UInt8) : Decodes decodeByte [b] b := .of_byte (fun _ => rfl) rfl

theorem decodes_bool (b : Bool) : Decodes decodeBool (encodeBool b) b := by
  cases b <;> exact .of_byte (fun _ => rfl) rfl

theorem decodeNat_succ (width : Nat) : decodeNat (width + 1) =
    .bind decodeByte fun b => .bind (decodeNat width) fun n => .pure (b.toNat + 256 * n) := by
  funext bytes
  cases bytes <;> rfl

theorem decodes_nat {width n : Nat} (lt : n < 256 ^ width) :
    Decodes (decodeNat width) (encodeNat width n) n := by
  induction width generalizing n with
  | zero =>
    obtain rfl : n = 0 := by omega
    exact .pure 0
  | succ width ih =>
    have high : n / 256 < 256 ^ width := by
      rw [Nat.pow_succ] at lt
      exact Nat.div_lt_of_lt_mul (by rwa [Nat.mul_comm])
    have value : (UInt8.ofNat n).toNat + 256 * (n / 256) = n := by
      rw [UInt8.toNat_ofNat']
      omega
    have whole : Decodes
        (.bind decodeByte fun b => .bind (decodeNat width) fun m => .pure (b.toNat + 256 * m))
        ([UInt8.ofNat n] ++ encodeNat width (n / 256)) ((UInt8.ofNat n).toNat + 256 * (n / 256)) :=
      (decodes_byte _).bind ((ih high).map _)
    rw [value] at whole
    rw [decodeNat_succ]
    exact whole

theorem decodes_word {n : Nat} (lt : n < 2 ^ 64) : Decodes decodeWord (encodeWord n) n :=
  decodes_nat lt

/-! ## Lists -/

theorem decodeItems_succ (item : Decoder α) (count : Nat) : decodeItems item (count + 1) =
    .bind item fun first => .bind (decodeItems item count) fun rest => .pure (first :: rest) := rfl

theorem decodes_items {item : Decoder α} {encode : α → List UInt8} {items : List α}
    (each : ∀ a ∈ items, Decodes item (encode a) a) :
    Decodes (decodeItems item items.length) (items.flatMap encode) items := by
  induction items with
  | nil => exact .pure []
  | cons a items ih =>
    rw [List.forall_mem_cons] at each
    rw [List.length_cons, decodeItems_succ, List.flatMap_cons]
    exact each.1.bind ((ih each.2).map _)

theorem decodeList_eq (item : Decoder α) :
    decodeList item = .bind decodeWord (decodeItems item) := rfl

theorem decodes_list {item : Decoder α} {encode : α → List UInt8} {items : List α}
    (short : items.length < 2 ^ 64) (each : ∀ a ∈ items, Decodes item (encode a) a) :
    Decodes (decodeList item) (encodeList encode items) items := by
  rw [decodeList_eq]
  exact (decodes_word short).bind (decodes_items each)

/-- So many bytes as they stand. -/
def decodeRaw (count : Nat) : Decoder (List UInt8) := fun bytes =>
  if count ≤ bytes.length then some (bytes.take count, bytes.drop count) else none

theorem decodeBytes_eq : decodeBytes = .bind decodeWord decodeRaw := rfl

theorem decodes_raw (data : List UInt8) : Decodes (decodeRaw data.length) data data where
  append rest := by
    have enough : data.length ≤ (data ++ rest).length := by simp
    rw [decodeRaw, if_pos enough, List.take_left, List.drop_left]
  cut front start ne := by
    have short : front.length < data.length :=
      Nat.lt_of_le_of_ne start.length_le fun same => ne (start.eq_of_length same)
    exact if_neg (Nat.not_le.2 short)

theorem decodes_bytes {data : List UInt8} (short : data.length < 2 ^ 64) :
    Decodes decodeBytes (encodeBytes data) data := by
  rw [decodeBytes_eq]
  exact (decodes_word short).bind (decodes_raw data)

/-! ## Ids and instants -/

theorem decodeId_eq : decodeId = .check decodeBytes SnapshotId.ofBytes? := rfl

theorem decodes_id (id : SnapshotId) : Decodes decodeId (encodeBytes id.bytes.toList) id := by
  have length : id.bytes.toList.length = 16 := id.bytes.length_toList
  rw [decodeId_eq]
  exact (decodes_bytes (by omega)).check id.ofBytes?_toList

theorem utf8Chars?_eq_some_iff {data : List UInt8} {text : List Char} :
    utf8Chars? data = some text ↔ data = utf8Bytes text := by
  have same : (String.ofList text).toByteArray = (⟨data.toArray⟩ : ByteArray) ↔
      data = utf8Bytes text := by
    rw [String.toByteArray_ofList, List.utf8Encode, ByteArray.ext_iff, List.data_toByteArray]
    simp [utf8Bytes, eq_comm]
  rw [utf8Chars?, String.fromUTF8?, ← same]
  constructor
  · intro read
    obtain ⟨s, found, rfl⟩ := Option.map_eq_some_iff.1 read
    split at found
    case isTrue valid =>
      obtain rfl := Option.some.inj found
      rw [String.ofList_toList]
      rfl
    case isFalse => cases found
  · intro whole
    have valid : (⟨data.toArray⟩ : ByteArray).IsValidUTF8 := by
      rw [← whole]
      exact String.isValidUTF8 _
    have found : String.fromUTF8 ⟨data.toArray⟩ valid = String.ofList text :=
      String.toByteArray_inj.1 whole.symm
    rw [dif_pos valid, found, Option.map_some, String.toList_ofList]

theorem length_utf8Bytes_le (text : List Char) : (utf8Bytes text).length ≤ 4 * text.length := by
  induction text with
  | nil => exact Nat.le_refl 0
  | cons c text ih =>
    have four : (String.utf8EncodeChar c).length ≤ 4 := by
      rw [String.length_utf8EncodeChar]
      exact c.utf8Size_le_four
    rw [utf8Bytes, List.flatMap_cons, List.length_append, List.length_cons]
    rw [utf8Bytes] at ih
    omega

section Moments

variable (read : List Char → Option Instant)

theorem decodeInstant_eq : decodeInstant read =
    .check decodeBytes fun data => utf8Chars? data >>= read := by
  funext bytes
  simp [decodeInstant, Decoder.check, Option.bind_assoc]

variable {read}

theorem decodes_instant {i : Instant} {text : List Char} (named : read text = some i)
    (short : (utf8Bytes text).length < 2 ^ 64) :
    Decodes (decodeInstant read) (encodeBytes (utf8Bytes text)) i := by
  have whole : utf8Chars? (utf8Bytes text) = some text := utf8Chars?_eq_some_iff.2 rfl
  have accepted : (utf8Chars? (utf8Bytes text) >>= read) = some i := by
    rw [whole]
    exact named
  rw [decodeInstant_eq]
  exact (decodes_bytes short).check accepted

end Moments

/-! ## Records -/

theorem decodes_targets {targets : List StateId} (short : targets.length < 2 ^ 64)
    (words : ∀ target ∈ targets, target < 2 ^ 64) :
    Decodes decodeTargets (encodeTargets targets) targets :=
  decodes_list short fun target mem => decodes_word (words target mem)

theorem decodeTransition_eq : decodeTransition =
    .bind decodeByte fun symbol => .bind decodeTargets fun targets => .pure (symbol, targets) := rfl

theorem decodes_transition {row : Symbol × List StateId} (short : row.2.length < 2 ^ 64)
    (words : ∀ target ∈ row.2, target < 2 ^ 64) :
    Decodes decodeTransition (encodeTransition row) row := by
  rw [decodeTransition_eq]
  exact (decodes_byte row.1).bind ((decodes_targets short words).map _)

theorem decodeRecord_eq : decodeRecord =
    .bind decodeBool fun isFinal => .bind decodeTargets fun epsilon =>
      .bind (decodeList decodeTransition) fun transitions =>
        .pure ⟨isFinal, epsilon, transitions⟩ := rfl

theorem decodes_record {record : StateRecord} (ids : record.IdsFit) (lengths : record.LengthsFit) :
    Decodes decodeRecord (encodeRecord record) record := by
  obtain ⟨isFinal, epsilon, transitions⟩ := record
  obtain ⟨epsilon_short, transitions_short, rows_short⟩ := lengths
  have targets : Decodes decodeTargets (encodeTargets epsilon) epsilon :=
    decodes_targets epsilon_short fun target mem => ids target (List.mem_append_left _ mem)
  have rows : Decodes (decodeList decodeTransition) (encodeList encodeTransition transitions)
      transitions := by
    refine decodes_list transitions_short fun row listed => ?_
    refine decodes_transition (rows_short row listed) fun target mem => ?_
    exact ids target (List.mem_append_right _ (List.mem_flatMap.2 ⟨row, listed, mem⟩))
  rw [decodeRecord_eq, encodeRecord, List.append_assoc]
  exact (decodes_bool isFinal).bind (targets.bind (rows.map _))

theorem decodeSnapshot_eq (read : List Char → Option Instant) : decodeSnapshot read =
    .bind (decodeNat 4) fun version => .bind decodeId fun id =>
      .bind (decodeInstant read) fun createdAt => .bind decodeWord fun entry =>
        .bind decodeWord fun exit => .bind (decodeList decodeRecord) fun states =>
          .pure ⟨UInt32.ofNat version, id, createdAt, entry, exit, states⟩ := rfl

end Binary

/-! ## Snapshots -/

namespace Snapshot

variable {read : List Char → Option Instant} {s : Snapshot} {text : List Char}

/-- The bytes of a snapshot whose moment is spelled `text`. -/
def spelledBytes (s : Snapshot) (text : List Char) : List UInt8 :=
  Binary.encodeNat 4 s.version.toNat ++ Binary.encodeBytes s.id.bytes.toList ++
    Binary.encodeBytes (Binary.utf8Bytes text) ++ Binary.encodeWord s.entry ++
    Binary.encodeWord s.exit ++ Binary.encodeList Binary.encodeRecord s.states

theorem decodes_spelledBytes (named : read text = some s.createdAt)
    (text_short : (Binary.utf8Bytes text).length < 2 ^ 64) (ids : s.IdsFit)
    (lengths : s.LengthsFit) : Decodes (Binary.decodeSnapshot read) (s.spelledBytes text) s := by
  obtain ⟨version, id, createdAt, entry, exit, states⟩ := s
  obtain ⟨entry_word, exit_word, records_ids⟩ := ids
  obtain ⟨short, records_lengths⟩ := lengths
  have records : Decodes (Binary.decodeList Binary.decodeRecord)
      (Binary.encodeList Binary.encodeRecord states) states :=
    Binary.decodes_list short fun record listed =>
      Binary.decodes_record (records_ids record listed) (records_lengths record listed)
  have versions : Decodes (Binary.decodeNat 4) (Binary.encodeNat 4 version.toNat) version.toNat :=
    Binary.decodes_nat version.toNat_lt
  have same : UInt32.ofNat version.toNat = version := UInt32.ofNat_toNat
  rw [Binary.decodeSnapshot_eq, spelledBytes]
  simp only [List.append_assoc]
  refine versions.bind ((Binary.decodes_id id).bind
    ((Binary.decodes_instant named text_short).bind ((Binary.decodes_word entry_word).bind
      ((Binary.decodes_word exit_word).bind ?_))))
  rw [same]
  exact records.map _

theorem decodes_toBytes (year : s.createdAt.FourDigitYear) (ids : s.IdsFit)
    (lengths : s.LengthsFit) : Decodes (Binary.decodeSnapshot Instant.ofChars?) s.toBytes s := by
  have short : (Binary.utf8Bytes s.createdAt.chars).length < 2 ^ 64 := by
    have bytes := Binary.length_utf8Bytes_le s.createdAt.chars
    have chars := Instant.length_chars_le year
    omega
  exact decodes_spelledBytes (Instant.ofChars?_chars year) short ids lengths

/-- A snapshot is read back from its bytes, whatever bytes stand behind them, and no proper prefix
of its bytes is read as a snapshot. -/
theorem ofBytes_toBytes_append {s : Snapshot} (year : s.createdAt.FourDigitYear) (ids : s.IdsFit)
    (lengths : s.LengthsFit) :
    (∀ rest, ofBytes (s.toBytes ++ rest) = .ok s) ∧
      ∀ front, front <+: s.toBytes → front ≠ s.toBytes → ofBytes front = .error .undecodable := by
  have code := decodes_toBytes year ids lengths
  refine ⟨fun rest => ?_, fun front start ne => ?_⟩
  · rw [ofBytes, ofBytesWith, code.append rest]
  · rw [ofBytes, ofBytesWith, code.cut front start ne]

/-- Symbols that repeat and descend, a list without targets, targets beyond the two states, and a
leap second with nanoseconds. -/
theorem ofBytes_toBytes_append_of_unsorted :
    let s : Snapshot :=
      ⟨7, ⟨.replicate 16 171⟩, ⟨⟨9999, 12, 31⟩, 23, 59, 60, 120000001, by decide⟩, 2 ^ 64 - 1, 5,
        [⟨true, [3, 0, 3], [(98, [0]), (97, []), (98, [2 ^ 63, 1])]⟩, ⟨false, [], []⟩]⟩
    s.createdAt.FourDigitYear ∧ s.IdsFit ∧ s.LengthsFit ∧
      ofBytes (s.toBytes ++ [1, 2, 3]) = .ok s ∧
        ofBytes (s.toBytes.take 100) = .error .undecodable := by
  intro s
  have year : s.createdAt.FourDigitYear := by decide
  have ids : s.IdsFit := by decide
  have lengths : s.LengthsFit := by decide
  have longer : s.toBytes.take 100 ≠ s.toBytes := by decide +kernel
  obtain ⟨whole, cut⟩ := ofBytes_toBytes_append year ids lengths
  exact ⟨year, ids, lengths, whole [1, 2, 3], cut _ (List.take_prefix 100 s.toBytes) longer⟩

end Snapshot

end FragmentAlgebra
