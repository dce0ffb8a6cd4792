import FragmentAlgebra.Proofs.Restoring

/-! # The defects of a snapshot

`Snapshot.Defect` gives the rules: what is wrong at which `Place` of a snapshot. The places have an
order, the two ends first and then record by record. Listing the defects place by place in that
order (`Snapshot.defects`, with `mem_defects` and `ascending_defects`) gives the violations that a
snapshot reports (`map_snd_defects`), so each defect is reported once and in its place. A snapshot
without defects, of the current version, is restored; the violations of any other are handed back
(`Snapshot.violations_are_the_defects`).
-/

namespace FragmentAlgebra

/-! ## Places -/

/-- Where a snapshot is checked. -/
inductive Place
  | entry
  | exit
  /-- The final flag of a record. -/
  | flag (state : StateId)
  | epsilon (state : StateId) (index : Nat)
  /-- A target in the list of one of the transitions. -/
  | transition (state : StateId) (row index : Nat)
deriving DecidableEq

namespace Place

/-- Ranks are compared from the left. -/
def rank : Place → List Nat
  | .entry => [0]
  | .exit => [1]
  | .flag q => [2, q, 0]
  | .epsilon q i => [2, q, 1, i]
  | .transition q row i => [2, q, 2, row, i]

/-- The ends come before the records; in a record the flag comes before the epsilon targets, and
these before the transitions, all as they are recorded. -/
def Before (p r : Place) : Prop := p.rank < r.rank

instance (p r : Place) : Decidable (p.Before r) := by
  unfold Before; infer_instance

/-- The record that holds the place. -/
def state? : Place → Option StateId
  | .entry => none
  | .exit => none
  | .flag q => some q
  | .epsilon q _ => some q
  | .transition q _ _ => some q

theorem before_of_state?_lt {p r : Place} {q next : StateId} (hp : p.state? = some q)
    (hr : r.state? = some next) (lt : q < next) : p.Before r := by
  cases p <;> cases r <;> simp_all [state?, Before, rank, List.cons_lt_cons_iff]

theorem before_of_state?_none {p r : Place} {q : StateId} (hp : p.state? = none)
    (hr : r.state? = some q) : p.Before r := by
  cases p <;> cases r <;> simp_all [state?, Before, rank, List.cons_lt_cons_iff]

end Place

/-! ## Lists in the order of places -/

section Lists

variable {α β : Type}

/-- The items stand in the order of their places, no two at the same place. -/
def Ascending (items : List (Place × α)) : Prop := items.Pairwise fun a b => a.1.Before b.1

theorem pairwise_zipIdx (items : List α) : items.zipIdx.Pairwise fun a b => a.2 < b.2 := by
  have indices : (items.zipIdx.map Prod.snd).Pairwise (· < ·) := by
    rw [List.zipIdx_map_snd]
    exact List.pairwise_lt_range' 1
  exact List.pairwise_map.1 indices

theorem flatMap_zipIdx_fst (items : List α) (part : α → List β) :
    items.zipIdx.flatMap (fun item => part item.1) = items.flatMap part := by
  rw [← List.flatMap_map, List.zipIdx_map_fst]

/-- The items of a list, each at the place that its position has. -/
def placed (place : Nat → Place) (items : List α) : List (Place × α) :=
  items.zipIdx.map fun item => (place item.2, item.1)

theorem map_snd_placed (place : Nat → Place) (items : List α) :
    (placed place items).map Prod.snd = items := by
  rw [placed, List.map_map]
  exact List.zipIdx_map_fst 0 items

theorem mem_placed {place : Nat → Place} {items : List α} {p : Place} {a : α} :
    (p, a) ∈ placed place items ↔ ∃ i, items[i]? = some a ∧ p = place i := by
  simp only [placed, List.mem_map, Prod.exists, List.mk_mem_zipIdx_iff_getElem?, Prod.mk.injEq]
  constructor
  · rintro ⟨a, i, found, rfl, rfl⟩
    exact ⟨i, found, rfl⟩
  · rintro ⟨i, found, rfl⟩
    exact ⟨a, i, found, rfl, rfl⟩

theorem ascending_placed {place : Nat → Place}
    (rising : ∀ {i j}, i < j → (place i).Before (place j)) (items : List α) :
    Ascending (placed place items) :=
  List.pairwise_map.2 ((pairwise_zipIdx items).imp rising)

theorem ascending_flatMap {items : List α} {part : α × Nat → List (Place × β)}
    (each : ∀ item ∈ items.zipIdx, Ascending (part item))
    (apart : ∀ {a b : α × Nat}, a.2 < b.2 → ∀ x ∈ part a, ∀ y ∈ part b, x.1.Before y.1) :
    Ascending (items.zipIdx.flatMap part) :=
  List.pairwise_flatMap.2 ⟨each, (pairwise_zipIdx items).imp apart⟩

end Lists

/-! ## The targets of a record -/

namespace StateRecord

/-- The targets of the transitions, each with its place. -/
def placedTransitions (q : StateId) (record : StateRecord) : List (Place × StateId) :=
  record.transitions.zipIdx.flatMap fun (row, r) => placed (.transition q r) row.2

/-- The targets of the record at position `q`, each with its place. -/
def placedTargets (q : StateId) (record : StateRecord) : List (Place × StateId) :=
  placed (.epsilon q) record.epsilon ++ record.placedTransitions q

theorem map_snd_placedTargets (q : StateId) (record : StateRecord) :
    (record.placedTargets q).map Prod.snd = record.allTargets := by
  rw [placedTargets, List.map_append, map_snd_placed, placedTransitions, List.map_flatMap]
  simp only [map_snd_placed]
  rw [flatMap_zipIdx_fst record.transitions (·.2), allTargets]

theorem mem_placedTargets {q : StateId} {record : StateRecord} {p : Place} {target : StateId} :
    (p, target) ∈ record.placedTargets q ↔
      (∃ i, record.epsilon[i]? = some target ∧ p = .epsilon q i) ∨
        ∃ r row i, record.transitions[r]? = some row ∧ row.2[i]? = some target ∧
          p = .transition q r i := by
  rw [placedTargets, List.mem_append, mem_placed]
  refine or_congr_right ?_
  simp only [placedTransitions, List.mem_flatMap, Prod.exists, List.mk_mem_zipIdx_iff_getElem?,
    mem_placed]
  constructor
  · rintro ⟨symbol, targets, r, at_r, i, at_i, rfl⟩
    exact ⟨r, symbol, targets, i, at_r, at_i, rfl⟩
  · rintro ⟨r, symbol, targets, i, at_r, at_i, rfl⟩
    exact ⟨symbol, targets, r, at_r, i, at_i, rfl⟩

theorem ascending_placedTargets (q : StateId) (record : StateRecord) :
    Ascending (record.placedTargets q) := by
  refine List.pairwise_append.2 ⟨ascending_placed ?_ _, ascending_flatMap ?_ ?_, ?_⟩
  · intro i j lt
    simp [Place.Before, Place.rank, List.cons_lt_cons_iff, lt]
  · intro item _
    refine ascending_placed ?_ _
    intro i j lt
    simp [Place.Before, Place.rank, List.cons_lt_cons_iff, lt]
  · rintro a b lt ⟨p, target⟩ hp ⟨p', target'⟩ hp'
    obtain ⟨i, _, rfl⟩ := mem_placed.1 hp
    obtain ⟨j, _, rfl⟩ := mem_placed.1 hp'
    simp [Place.Before, Place.rank, List.cons_lt_cons_iff, lt]
  · rintro ⟨p, target⟩ hp ⟨p', target'⟩ hp'
    obtain ⟨i, _, rfl⟩ := mem_placed.1 hp
    obtain ⟨⟨row, r⟩, _, hp'⟩ := List.mem_flatMap.1 hp'
    obtain ⟨j, _, rfl⟩ := mem_placed.1 hp'
    simp [Place.Before, Place.rank, List.cons_lt_cons_iff]

end StateRecord

/-! ## Defects -/

namespace Snapshot

variable {s : Snapshot} {q : StateId} {record : StateRecord} {p : Place} {v : Violation}

/-- What is wrong at a place of the record at position `q`. -/
inductive RecordDefect (s : Snapshot) (q : StateId) (record : StateRecord) :
    Place → Violation → Prop
  | strayFinal (final : record.isFinal = true) (other : q ≠ s.exit) :
      RecordDefect s q record (.flag q) (.strayFinal q)
  | epsilon {i : Nat} {target : StateId} (at_i : record.epsilon[i]? = some target)
      (outside : s.states.length ≤ target) :
      RecordDefect s q record (.epsilon q i) (.targetOutOfRange q target)
  | transition {r i : Nat} {row : Symbol × List StateId} {target : StateId}
      (at_r : record.transitions[r]? = some row) (at_i : row.2[i]? = some target)
      (outside : s.states.length ≤ target) :
      RecordDefect s q record (.transition q r i) (.targetOutOfRange q target)

/-- What is wrong at a place of a snapshot. -/
inductive Defect (s : Snapshot) : Place → Violation → Prop
  | entryOutOfRange (outside : s.states.length ≤ s.entry) :
      Defect s .entry (.entryOutOfRange s.entry s.states.length)
  | exitOutOfRange (outside : s.states.length ≤ s.exit) :
      Defect s .exit (.exitOutOfRange s.exit s.states.length)
  | exitNotFinal {record : StateRecord} (at_exit : s.states[s.exit]? = some record)
      (not_final : record.isFinal = false) : Defect s .exit (.exitNotFinal s.exit)
  | record {q : StateId} {record : StateRecord} {p : Place} {v : Violation}
      (at_q : s.states[q]? = some record) (defect : RecordDefect s q record p v) : Defect s p v

/-- The defects of the record at position `q`, each with its place. -/
def recordDefects (s : Snapshot) (q : StateId) (record : StateRecord) : List (Place × Violation) :=
  (if record.isFinal && q ≠ s.exit then [(.flag q, .strayFinal q)] else []) ++
    ((record.placedTargets q).filter fun item => !s.inRange item.2).map
      fun item => (item.1, .targetOutOfRange q item.2)

/-- The defects of a snapshot in the order of their places. -/
def defects (s : Snapshot) : List (Place × Violation) :=
  s.entryCheck.violations.map (.entry, ·) ++ s.exitCheck.violations.map (.exit, ·) ++
    s.states.zipIdx.flatMap fun (record, q) => s.recordDefects q record

/-! ## The report lists them -/

theorem map_snd_recordDefects (s : Snapshot) (q : StateId) (record : StateRecord) :
    (s.recordDefects q record).map Prod.snd = s.recordViolations q record := by
  rw [recordDefects, recordViolations_eq, ← record.map_snd_placedTargets q, List.map_append,
    List.filter_map, List.map_map, List.map_map]
  congr 1
  split <;> rfl

theorem map_snd_defects (s : Snapshot) : s.defects.map Prod.snd = s.violations := by
  have ends (p : Place) (vs : List Violation) : (vs.map (p, ·)).map Prod.snd = vs := by
    simp [Function.comp_def]
  rw [defects, violations_eq, List.map_append, List.map_append, ends, ends, List.map_flatMap]
  simp only [map_snd_recordDefects]

theorem mem_entryCheck : v ∈ s.entryCheck.violations ↔ s.Defect .entry v := by
  rw [entryCheck, violations_check]
  constructor
  · intro listed
    split at listed
    case isTrue => cases listed
    case isFalse outside =>
      obtain rfl := List.mem_singleton.1 listed
      exact .entryOutOfRange (by simpa [inRange] using outside)
  · intro defect
    cases defect with
    | entryOutOfRange outside => simp [inRange, Nat.not_lt_of_le outside]
    | record at_q defect => cases defect

theorem mem_exitCheck : v ∈ s.exitCheck.violations ↔ s.Defect .exit v := by
  unfold exitCheck
  constructor
  · intro listed
    split at listed
    case h_1 record at_exit =>
      rw [violations_check] at listed
      split at listed
      case isTrue => cases listed
      case isFalse not_final =>
        obtain rfl := List.mem_singleton.1 listed
        exact .exitNotFinal at_exit (by simpa using not_final)
    case h_2 outside =>
      obtain rfl := List.mem_singleton.1 listed
      exact .exitOutOfRange (List.getElem?_eq_none_iff.1 outside)
  · intro defect
    cases defect with
    | exitOutOfRange outside => simp [List.getElem?_eq_none_iff.2 outside, violations_check]
    | exitNotFinal at_exit not_final => simp [at_exit, not_final, violations_check]
    | record at_q defect => cases defect

theorem mem_recordDefects :
    (p, v) ∈ s.recordDefects q record ↔ s.RecordDefect q record p v := by
  simp only [recordDefects, List.mem_append, List.mem_map, List.mem_filter, inRange,
    Bool.not_eq_true', decide_eq_false_iff_not, Nat.not_lt, Prod.exists, Prod.mk.injEq,
    StateRecord.mem_placedTargets]
  constructor
  · rintro (stray | ⟨p, target, ⟨at_p, outside⟩, rfl, rfl⟩)
    · split at stray
      case isTrue flagged =>
        obtain ⟨rfl, rfl⟩ := Prod.mk.inj (List.mem_singleton.1 stray)
        simp only [Bool.and_eq_true, decide_eq_true_eq] at flagged
        exact .strayFinal flagged.1 flagged.2
      case isFalse => cases stray
    · rcases at_p with ⟨i, at_i, rfl⟩ | ⟨r, symbol, targets, i, at_r, at_i, rfl⟩
      · exact .epsilon at_i outside
      · exact .transition at_r at_i outside
  · intro defect
    cases defect with
    | strayFinal final other => simp [final, other]
    | epsilon at_i outside => exact .inr ⟨_, _, ⟨.inl ⟨_, at_i, rfl⟩, outside⟩, rfl, rfl⟩
    | transition at_r at_i outside =>
      exact .inr ⟨_, _, ⟨.inr ⟨_, _, _, _, at_r, at_i, rfl⟩, outside⟩, rfl, rfl⟩

theorem mem_defects : (p, v) ∈ s.defects ↔ s.Defect p v := by
  simp only [defects, List.mem_append, List.mem_map, List.mem_flatMap, Prod.exists,
    Prod.mk.injEq, List.mk_mem_zipIdx_iff_getElem?, mem_recordDefects]
  constructor
  · rintro ((⟨v, listed, rfl, rfl⟩ | ⟨v, listed, rfl, rfl⟩) | ⟨record, q, at_q, defect⟩)
    · exact mem_entryCheck.1 listed
    · exact mem_exitCheck.1 listed
    · exact .record at_q defect
  · intro defect
    have listed := defect
    cases defect with
    | entryOutOfRange outside => exact .inl (.inl ⟨_, mem_entryCheck.2 listed, rfl, rfl⟩)
    | exitOutOfRange outside => exact .inl (.inr ⟨_, mem_exitCheck.2 listed, rfl, rfl⟩)
    | exitNotFinal at_exit not_final =>
      exact .inl (.inr ⟨_, mem_exitCheck.2 listed, rfl, rfl⟩)
    | record at_q defect => exact .inr ⟨_, _, at_q, defect⟩

/-! ## The report keeps the order -/

theorem RecordDefect.state?_eq (defect : s.RecordDefect q record p v) : p.state? = some q := by
  cases defect <;> rfl

theorem ascending_recordDefects (s : Snapshot) (q : StateId) (record : StateRecord) :
    Ascending (s.recordDefects q record) := by
  refine List.pairwise_append.2 ⟨?_, ?_, ?_⟩
  · split <;> simp
  · exact List.pairwise_map.2 ((record.ascending_placedTargets q).filter _)
  · rintro flag stray ⟨p, v⟩ outside
    obtain ⟨⟨p, target⟩, kept, same⟩ := List.mem_map.1 outside
    obtain ⟨rfl, rfl⟩ := Prod.mk.inj same
    split at stray
    case isTrue =>
      obtain rfl := List.mem_singleton.1 stray
      rcases StateRecord.mem_placedTargets.1 (List.mem_filter.1 kept).1 with
        ⟨i, _, rfl⟩ | ⟨r, row, i, _, _, rfl⟩
      · simp [Place.Before, Place.rank, List.cons_lt_cons_iff]
      · simp [Place.Before, Place.rank, List.cons_lt_cons_iff]
    case isFalse => cases stray

theorem ascending_ends (s : Snapshot) :
    Ascending (s.entryCheck.violations.map (Place.entry, ·) ++
      s.exitCheck.violations.map (Place.exit, ·)) := by
  refine List.pairwise_append.2 ⟨?_, ?_, ?_⟩
  · rw [entryCheck, violations_check]
    split <;> simp
  · unfold exitCheck
    split
    · rw [violations_check]
      split <;> simp
    · simp [violations_check]
  · intro entry at_entry exit at_exit
    obtain ⟨v, _, rfl⟩ := List.mem_map.1 at_entry
    obtain ⟨w, _, rfl⟩ := List.mem_map.1 at_exit
    have ends : Place.entry.Before .exit := by decide
    exact ends

theorem ascending_defects (s : Snapshot) : Ascending s.defects := by
  refine List.pairwise_append.2 ⟨s.ascending_ends, ascending_flatMap ?_ ?_, ?_⟩
  · rintro ⟨record, q⟩ _
    exact s.ascending_recordDefects q record
  · rintro ⟨record, q⟩ ⟨record', q'⟩ lt ⟨p, v⟩ listed ⟨p', v'⟩ listed'
    have here := (mem_recordDefects.1 listed).state?_eq
    have there := (mem_recordDefects.1 listed').state?_eq
    exact Place.before_of_state?_lt here there lt
  · rintro ⟨p, v⟩ ends ⟨p', v'⟩ listed
    obtain ⟨⟨record, q⟩, _, listed⟩ := List.mem_flatMap.1 listed
    have there := (mem_recordDefects.1 listed).state?_eq
    refine Place.before_of_state?_none ?_ there
    rcases List.mem_append.1 ends with ends | ends
    · obtain ⟨_, _, same⟩ := List.mem_map.1 ends
      obtain ⟨rfl, _⟩ := Prod.mk.inj same
      rfl
    · obtain ⟨_, _, same⟩ := List.mem_map.1 ends
      obtain ⟨rfl, _⟩ := Prod.mk.inj same
      rfl

/-! ## Validation and restoring -/

theorem violations_eq_nil_iff_records : s.violations = [] ↔
    s.entry < s.states.length ∧ s.exit < s.states.length ∧
      (∀ q record, s.states[q]? = some record → (record.isFinal = true ↔ q = s.exit)) ∧
        ∀ record ∈ s.states, ∀ target ∈ record.allTargets, target < s.states.length := by
  rw [violations_eq_nil_iff_checks, isFinal_toFragment]
  constructor
  · rintro ⟨entry, ⟨exit, at_exit, final⟩, records⟩
    refine ⟨entry, (List.getElem?_eq_some_iff.1 at_exit).1, ?_, ?_⟩
    · intro q record at_q
      refine ⟨(records q record at_q).1, ?_⟩
      rintro rfl
      obtain rfl := Option.some.inj (at_exit.symm.trans at_q)
      exact final
    · intro record mem
      obtain ⟨q, at_q⟩ := List.mem_iff_getElem?.1 mem
      exact (records q record at_q).2
  · rintro ⟨entry, exit, finals, targets⟩
    have at_exit : s.states[s.exit]? = some s.states[s.exit] := List.getElem?_eq_getElem exit
    refine ⟨entry, ⟨_, at_exit, (finals _ _ at_exit).2 rfl⟩, ?_⟩
    intro q record at_q
    exact ⟨(finals q record at_q).1, targets record (List.mem_of_getElem? at_q)⟩

theorem exists_restore_eq_ok_iff :
    (∃ f, s.restore = .ok f) ↔ s.version = currentVersion ∧ s.violations = [] := by
  simp only [restore_eq_ok_iff, ← violations_eq_nil_iff]
  simp

theorem restore_eq_invalid_iff {violations : List Violation} :
    s.restore = .error (.invalid violations) ↔
      s.version = currentVersion ∧ s.violations ≠ [] ∧ violations = s.violations := by
  rw [restore, Snapshot.violations]
  by_cases current : s.version = currentVersion
  · cases s.validate <;> simp [current, Validation.violations, eq_comm]
  · simp [current]

/-- The violations of a snapshot are its defects, each once and in the order of their places. There
are none exactly if the ends and all targets lie inside and the exit is the one final record. What
restoring hands back is the fragment or, for the current version, all the violations. -/
theorem violations_are_the_defects (s : Snapshot) :
    (∃ listed : List (Place × Violation), s.violations = listed.map Prod.snd ∧
      listed.Pairwise (fun a b => a.1.Before b.1) ∧
        ∀ p v, (p, v) ∈ listed ↔ s.Defect p v) ∧
    (s.violations = [] ↔ s.entry < s.states.length ∧ s.exit < s.states.length ∧
      (∀ q record, s.states[q]? = some record → (record.isFinal = true ↔ q = s.exit)) ∧
        ∀ record ∈ s.states, ∀ target ∈ record.allTargets, target < s.states.length) ∧
    ((∃ f, s.restore = .ok f) ↔ s.version = 1 ∧ s.violations = []) ∧
    ∀ violations, s.restore = .error (.invalid violations) ↔
      s.version = 1 ∧ s.violations ≠ [] ∧ violations = s.violations := by
  refine ⟨⟨s.defects, s.map_snd_defects.symm, s.ascending_defects, fun p v => mem_defects⟩,
    violations_eq_nil_iff_records, exists_restore_eq_ok_iff, fun _ => restore_eq_invalid_iff⟩

example :
    let s : Snapshot :=
      ⟨1, ⟨.replicate 16 0⟩, .epoch, 10, 1, [⟨true, [5], [(97, [1])]⟩, ⟨false, [], []⟩]⟩
    s.violations =
      [.entryOutOfRange 10 2, .exitNotFinal 1, .strayFinal 0, .targetOutOfRange 0 5] := by
  decide

end Snapshot

end FragmentAlgebra
