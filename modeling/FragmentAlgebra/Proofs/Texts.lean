import FragmentAlgebra.Proofs.Reading
import FragmentAlgebra.Snapshot.Text

/-! # The text of a snapshot

An id is read from its own text, and so is an instant with a year of four digits
(`Instant.ofChars?_chars`). Every object of a snapshot is a chain of fields, each of them read once
and in its order, and every list is read item by item, as it stands: nothing is sorted, merged or
checked against the number of states on the way.

A snapshot is read back from its text (`ofText_toText`) if its ids fit into eight bytes and its year
has four digits.
-/

namespace FragmentAlgebra

open Json (Reads Folds)

/-! ## Ids -/

namespace SnapshotId

theorem length_plainChars (id : SnapshotId) : id.plainChars.length = 32 := by
  have two : ∀ b : UInt8, (Hexadecimal.byteChars b).length = 2 := fun _ => rfl
  simp [plainChars, List.length_flatMap, two, List.map_const']

theorem hyphen_not_mem_plainChars (id : SnapshotId) : '-' ∉ id.plainChars := by
  have digits : ∀ n : Fin 16, Nat.digitChar n ≠ '-' := by decide
  intro mem
  obtain ⟨b, -, digit⟩ := List.mem_flatMap.1 mem
  simp only [Hexadecimal.byteChars, List.mem_cons, List.not_mem_nil, or_false] at digit
  rcases digit with high | low
  · exact digits ⟨b.toNat / 16, by have := b.toNat_lt; omega⟩ high.symm
  · exact digits ⟨b.toNat % 16, by omega⟩ low.symm

theorem ofPlain?_plainChars (id : SnapshotId) : ofPlain? id.plainChars = some id := by
  rw [ofPlain?, plainChars, Hexadecimal.bytes?_flatMap_byteChars]
  exact id.ofBytes?_toList

theorem filter_of_subset {id : SnapshotId} {s : List Char} (part : ∀ c ∈ s, c ∈ id.plainChars) :
    s.filter (· ≠ '-') = s := by
  refine List.filter_eq_self.2 fun c mem => decide_eq_true ?_
  rintro rfl
  exact id.hyphen_not_mem_plainChars (part _ mem)

theorem append_groups (s : List Char) :
    s.take 8 ++ ((s.drop 8).take 4 ++ ((s.drop 12).take 4 ++
      ((s.drop 16).take 4 ++ s.drop 20))) = s := by
  have join (i : Nat) : (s.drop i).take 4 ++ s.drop (i + 4) = s.drop i := by
    rw [← List.drop_drop]
    exact List.take_append_drop 4 _
  rw [join 16, join 12, join 8, List.take_append_drop]

theorem filter_chars (id : SnapshotId) : id.chars.filter (· ≠ '-') = id.plainChars := by
  have first := filter_of_subset fun c (mem : c ∈ id.plainChars.take 8) => List.mem_of_mem_take mem
  have inner (i : Nat) : ((id.plainChars.drop i).take 4).filter (· ≠ '-') =
      (id.plainChars.drop i).take 4 :=
    filter_of_subset fun c mem => List.mem_of_mem_drop (List.mem_of_mem_take mem)
  have last := filter_of_subset fun c (mem : c ∈ id.plainChars.drop 20) => List.mem_of_mem_drop mem
  have hyphen : decide ('-' ≠ '-') = false := rfl
  simp only [chars, List.filter_append, List.filter_cons, first, inner, last, hyphen]
  simp only [Bool.false_eq_true, if_false, List.append_assoc]
  exact append_groups _

theorem ofChars?_chars (id : SnapshotId) : ofChars? id.chars = some id := by
  have length := id.length_plainChars
  have long : id.chars.length = 36 := by
    simp [chars, length]
  have hyphens : [8, 13, 18, 23].all (fun i => id.chars[i]? == some '-') = true := by
    simp [chars, List.getElem?_append, length]
  rw [ofChars?, if_neg (by omega), if_pos long, ofHyphenated?, if_pos (by simp [long, hyphens]),
    filter_chars, ofPlain?_plainChars]

end SnapshotId

/-! ## Records -/

theorem reads_stateId {id : StateId} (word : id < 2 ^ 64) : Reads readStateId (.nat id) id :=
  .nat word (Nat.le_refl _)

theorem reads_targets {targets : List StateId} (words : ∀ target ∈ targets, target < 2 ^ 64) :
    Reads readTargets (targetsToJson targets) targets :=
  .list fun target mem => reads_stateId (words target mem)

/-- A symbol and its targets. -/
def transitionToJson (row : Symbol × List StateId) : Json :=
  .array [.nat row.1.toNat, targetsToJson row.2]

theorem reads_transition {row : Symbol × List StateId} (words : ∀ target ∈ row.2, target < 2 ^ 64) :
    Reads readTransition (transitionToJson row) row where
  append rest _ := by
    have symbol : Reads (Json.readUnsigned 256) (.nat row.1.toNat) row.1.toNat :=
      .nat row.1.toNat_lt (by decide)
    have same : UInt8.ofNat row.1.toNat = row.1 := UInt8.ofNat_toNat
    have inner : Json.Delimited (',' :: ((targetsToJson row.2).chars ++ ']' :: rest)) :=
      Json.delimited_cons (by decide)
    have last : Json.Delimited (']' :: rest) := Json.delimited_cons (by decide)
    rw [transitionToJson, Json.array_chars_append, readTransition,
      Json.skipBlanks_cons (by decide)]
    simp [Json.joinCommas, symbol.readItem_first inner, (reads_targets words).readItem_next last,
      Json.closeArray, Json.skipMark_cons (by decide : Json.isBlank ']' = false), same, bind,
      Except.bind]
  starts := ⟨'[', _, by rw [transitionToJson, Json.chars, List.cons_append], by decide, by decide⟩

theorem reads_record {record : StateRecord} (ids : record.IdsFit) :
    Reads readRecord record.toJson record := by
  obtain ⟨isFinal, epsilon, transitions⟩ := record
  have targets : Reads readTargets (targetsToJson epsilon) epsilon :=
    reads_targets fun target mem => ids target (List.mem_append_left _ mem)
  have rows : Reads readTransitions (.array (transitions.map transitionToJson)) transitions := by
    refine .list fun row listed => reads_transition fun target mem => ?_
    exact ids target (List.mem_append_right _ (List.mem_flatMap.2 ⟨row, listed, mem⟩))
  have fields : Folds RecordFields.readMember .none
      [("is_final", .bool isFinal), ("epsilon", targetsToJson epsilon),
        ("transitions", .array (transitions.map transitionToJson))]
      ⟨some isFinal, some epsilon, some transitions⟩ := by
    refine .field (f := fun field => ⟨field, none, none⟩) (.bool isFinal) rfl ?_
    refine .field (f := fun field => ⟨some isFinal, field, none⟩) targets rfl ?_
    refine .field (f := fun field => ⟨some isFinal, some epsilon, field⟩) rows rfl ?_
    exact .nil _
  exact .object (fun fields => completed fields.complete?) (fun _ => rfl) fields fun _ => rfl

/-! ## Snapshots -/

theorem reads_snapshot {s : Snapshot} (year : s.createdAt.FourDigitYear) (ids : s.IdsFit) :
    Reads readSnapshot s.toJson s := by
  obtain ⟨version, id, createdAt, entry, exit, states⟩ := s
  obtain ⟨entry_word, exit_word, records_ids⟩ := ids
  have versions : Reads SnapshotFields.readVersion (.nat version.toNat) version.toNat :=
    .nat version.toNat_lt (by decide)
  have names : Reads SnapshotFields.readId (.string (String.ofList id.chars)) id :=
    .text (by rw [String.toList_ofList, id.ofChars?_chars])
  have instants : Reads SnapshotFields.readInstant (.string (String.ofList createdAt.chars))
      createdAt :=
    .text (by rw [String.toList_ofList, Instant.ofChars?_chars year])
  have records : Reads SnapshotFields.readRecords (.array (states.map (·.toJson))) states :=
    .list fun record listed => reads_record (records_ids record listed)
  have same : UInt32.ofNat version.toNat = version := UInt32.ofNat_toNat
  have fields : Folds SnapshotFields.readMember .none
      [("version", .nat version.toNat), ("id", .string (String.ofList id.chars)),
        ("created_at", .string (String.ofList createdAt.chars)), ("entry", .nat entry),
        ("exit", .nat exit), ("states", .array (states.map (·.toJson)))]
      ⟨some version.toNat, some id, some createdAt, some entry, some exit, some states⟩ := by
    refine .field (f := fun field => ⟨field, none, none, none, none, none⟩) versions rfl ?_
    refine .field (f := fun field => ⟨some version.toNat, field, none, none, none, none⟩)
      names rfl ?_
    refine .field (f := fun field => ⟨some version.toNat, some id, field, none, none, none⟩)
      instants rfl ?_
    refine .field
      (f := fun field => ⟨some version.toNat, some id, some createdAt, field, none, none⟩)
      (reads_stateId entry_word) rfl ?_
    refine .field
      (f := fun field => ⟨some version.toNat, some id, some createdAt, some entry, field, none⟩)
      (reads_stateId exit_word) rfl ?_
    refine .field
      (f := fun field =>
        ⟨some version.toNat, some id, some createdAt, some entry, some exit, field⟩)
      records rfl ?_
    exact .nil _
  refine .object (fun fields => completed fields.complete?) (fun _ => rfl) fields fun _ => ?_
  simp [SnapshotFields.complete?, completed, same]

namespace Snapshot

/-- A snapshot is read back from its text, its records as they stand. -/
theorem ofText_toText {s : Snapshot} (year : s.createdAt.FourDigitYear) (ids : s.IdsFit) :
    ofText s.toText = .ok s := by
  rw [ofText, toText, (reads_snapshot year ids).parseAs_render]

/-- Symbols that repeat and descend, a list without targets, targets beyond the two states, and a
leap second with microseconds. -/
theorem ofText_toText_of_unsorted :
    let s : Snapshot :=
      ⟨4294967295, ⟨.replicate 16 171⟩, ⟨⟨0, 2, 29⟩, 23, 59, 60, 120001000, by decide⟩,
        2 ^ 64 - 1, 5,
        [⟨true, [3, 0, 3], [(98, [0]), (97, []), (98, [2 ^ 63, 1])]⟩, ⟨false, [], []⟩]⟩
    s.createdAt.FourDigitYear ∧ s.IdsFit ∧ ofText s.toText = .ok s := by
  intro s
  have year : s.createdAt.FourDigitYear := by decide
  have ids : s.IdsFit := by decide
  exact ⟨year, ids, ofText_toText year ids⟩

end Snapshot

end FragmentAlgebra
