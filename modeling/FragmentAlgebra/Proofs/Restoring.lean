import FragmentAlgebra.Proofs.Additions
import FragmentAlgebra.Snapshot.Basic

/-! # Recording and restoring

A record lists its transitions in any order. The state it describes is built by appending them edge
by edge (`toState_eq_addAll`), so it has, under each symbol, the targets listed for that symbol one
list after the other (`successors_toState`). The record of a state gives that state back
(`toState_ofState`).

A snapshot has no defects exactly if what it records is a well-formed fragment
(`violations_eq_nil_iff`), so that restoring succeeds on the well-formed records of the current
version and on no others (`restore_eq_ok_iff`).
-/

namespace FragmentAlgebra

/-! ## Records and states -/

theorem RowsOrdered.flatMap_filter {rows : List EdgeRow} (h : RowsOrdered rows) (c : Symbol) :
    (rows.filter (·.1 = c)).flatMap (·.2) = rowTargets c rows := by
  induction rows with
  | nil => rfl
  | cons head rest ih =>
    obtain ⟨s, ts⟩ := head
    by_cases hc : c = s
    · subst hc
      have others : rest.filter (·.1 = c) = [] := by
        rw [List.filter_eq_nil_iff]
        intro row mem
        simpa using h.ne_head row mem
      simp [rowTargets, others]
    · have hs : ¬ s = c := fun same => hc same.symm
      rw [rowTargets, if_neg hc, ← ih h.tail]
      simp [hs]

namespace StateRecord

/-- The targets recorded under one label, in recorded order. -/
def successors (record : StateRecord) : Option Symbol → List StateId
  | none => record.epsilon
  | some c => (record.transitions.filter (·.1 = c)).flatMap (·.2)

theorem mem_allTargets {record : StateRecord} {target : StateId} :
    target ∈ record.allTargets ↔ ∃ label, target ∈ record.successors label := by
  rw [allTargets, List.mem_append, List.mem_flatMap]
  constructor
  · rintro (mem | ⟨row, listed, mem⟩)
    · exact ⟨none, mem⟩
    · have kept : row ∈ record.transitions.filter (·.1 = row.1) := by simpa using listed
      exact ⟨some row.1, List.mem_flatMap.2 ⟨row, kept, mem⟩⟩
  · rintro ⟨_ | c, mem⟩
    · exact .inl mem
    · obtain ⟨row, kept, mem⟩ := List.mem_flatMap.1 mem
      exact .inr ⟨row, (List.mem_filter.1 kept).1, mem⟩

/-- The recorded transitions as edges to append, list by list. -/
def additions (record : StateRecord) : List Addition :=
  record.transitions.flatMap fun row => row.2.map fun target => ⟨some row.1, target⟩

theorem toState_eq_addAll (record : StateRecord) :
    record.toState =
      (⟨record.isFinal, record.epsilon, .empty⟩ : State).addAll record.additions := by
  simp only [toState, additions, State.addAll, List.foldl_flatMap, List.foldl_map, State.add]

theorem targetsUnder_row (row : Symbol × List StateId) (label : Option Symbol) :
    targetsUnder label (row.2.map fun target => ⟨some row.1, target⟩) =
      if label = some row.1 then row.2 else [] := by
  by_cases here : label = some row.1
  · simp [targetsUnder, here, List.filter_map, Function.comp_def]
  · simp [targetsUnder, here, Ne.symm here, List.filter_map, Function.comp_def]

theorem targetsUnder_additions (record : StateRecord) (label : Option Symbol) :
    targetsUnder label record.additions =
      (record.transitions.filter (label = some ·.1)).flatMap (·.2) := by
  rw [additions]
  induction record.transitions with
  | nil => rfl
  | cons row transitions ih =>
    rw [List.flatMap_cons, targetsUnder_append, ih, targetsUnder_row]
    by_cases here : label = some row.1
    · simp [here]
    · simp [here]

theorem successors_toState (record : StateRecord) (label : Option Symbol) :
    record.toState.successors label = record.successors label := by
  rw [toState_eq_addAll, State.successors_addAll, targetsUnder_additions]
  cases label with
  | none => simp [State.successors, successors]
  | some c => simp [State.successors, State.targets, successors, eq_comm]

theorem isFinal_toState (record : StateRecord) : record.toState.isFinal = record.isFinal := by
  rw [toState_eq_addAll, State.isFinal_addAll]

theorem successors_ofState (state : State) (label : Option Symbol) :
    (ofState state).successors label = state.successors label := by
  cases label with
  | none => rfl
  | some c => exact state.edges.ordered.flatMap_filter c

theorem toState_ofState (state : State) : (ofState state).toState = state := by
  apply State.ext_successors
  · exact isFinal_toState (ofState state)
  · intro label
    rw [successors_toState, successors_ofState]

end StateRecord

namespace Snapshot

variable {s : Snapshot} {f : Fragment} {q : StateId} {record : StateRecord}

/-! ## The recorded fragment -/

theorem count_toFragment (s : Snapshot) : s.toFragment.count = s.states.length := by
  simp [toFragment, Fragment.count]

theorem state?_toFragment (s : Snapshot) (q : StateId) :
    s.toFragment.state? q = (s.states[q]?).map (·.toState) := by
  simp [toFragment, Fragment.state?]

theorem isFinal_toFragment :
    s.toFragment.IsFinal q ↔ ∃ record, s.states[q]? = some record ∧ record.isFinal = true := by
  simp only [Fragment.IsFinal, state?_toFragment, Option.map_eq_some_iff]
  constructor
  · rintro ⟨_, ⟨record, at_q, rfl⟩, flag⟩
    exact ⟨record, at_q, record.isFinal_toState ▸ flag⟩
  · rintro ⟨record, at_q, flag⟩
    exact ⟨_, ⟨record, at_q, rfl⟩, record.isFinal_toState.trans flag⟩

theorem edge_toFragment {label : Option Symbol} {r : StateId} :
    s.toFragment.Edge q label r ↔
      ∃ record, s.states[q]? = some record ∧ r ∈ record.successors label := by
  simp only [Fragment.Edge, state?_toFragment, Option.map_eq_some_iff]
  constructor
  · rintro ⟨_, ⟨record, at_q, rfl⟩, target⟩
    exact ⟨record, at_q, record.successors_toState label ▸ target⟩
  · rintro ⟨record, at_q, target⟩
    exact ⟨_, ⟨record, at_q, rfl⟩, (record.successors_toState label).symm ▸ target⟩

/-! ## Checks -/

theorem violations_check (ok : Bool) (violation : Violation) :
    (Validation.check ok violation).violations = if ok then [] else [violation] := by
  cases ok <;> rfl

theorem violations_all (checks : List Validation) :
    (Validation.all checks).violations = checks.flatMap (·.violations) := by
  induction checks with
  | nil => rfl
  | cons check checks ih =>
    rw [List.flatMap_cons, ← ih]
    cases check <;> rfl

theorem flatMap_violations_check {α : Type} (items : List α) (ok : α → Bool)
    (violation : α → Violation) :
    (items.map fun a => Validation.check (ok a) (violation a)).flatMap (·.violations) =
      (items.filter fun a => !ok a).map violation := by
  induction items with
  | nil => rfl
  | cons a items ih =>
    rw [List.map_cons, List.flatMap_cons, ih, violations_check, List.filter_cons]
    cases ok a <;> rfl

/-- What the checks of the record at position `q` find. -/
def recordViolations (s : Snapshot) (q : StateId) (record : StateRecord) : List Violation :=
  (s.recordChecks q record).flatMap (·.violations)

theorem recordViolations_eq (s : Snapshot) (q : StateId) (record : StateRecord) :
    s.recordViolations q record =
      (if record.isFinal && q ≠ s.exit then [.strayFinal q] else []) ++
        (record.allTargets.filter fun target => !s.inRange target).map (.targetOutOfRange q) := by
  rw [recordViolations, recordChecks, List.flatMap_append, flatMap_violations_check]
  congr 1
  split <;> rfl

theorem violations_eq (s : Snapshot) : s.violations = s.entryCheck.violations ++
    s.exitCheck.violations ++
      s.states.zipIdx.flatMap fun (record, q) => s.recordViolations q record := by
  rw [violations, validate, violations_all, checks, List.flatMap_cons, List.flatMap_cons,
    List.flatMap_assoc, List.append_assoc]
  rfl

theorem violations_entryCheck_eq_nil_iff :
    s.entryCheck.violations = [] ↔ s.entry < s.states.length := by
  simp [entryCheck, violations_check, inRange]

theorem violations_exitCheck_eq_nil_iff :
    s.exitCheck.violations = [] ↔ s.toFragment.IsFinal s.exit := by
  rw [isFinal_toFragment, exitCheck]
  cases s.states[s.exit]? with
  | none => simp [violations_check]
  | some record => simp [violations_check]

theorem recordViolations_eq_nil_iff : s.recordViolations q record = [] ↔
    (record.isFinal = true → q = s.exit) ∧ ∀ r ∈ record.allTargets, r < s.states.length := by
  simp [recordViolations_eq, inRange]

theorem violations_eq_nil_iff_checks : s.violations = [] ↔
    s.entry < s.states.length ∧ s.toFragment.IsFinal s.exit ∧
      ∀ q record, s.states[q]? = some record → (record.isFinal = true → q = s.exit) ∧
        ∀ r ∈ record.allTargets, r < s.states.length := by
  simp only [violations_eq, List.append_eq_nil_iff, violations_entryCheck_eq_nil_iff,
    violations_exitCheck_eq_nil_iff, List.flatMap_eq_nil_iff, Prod.forall,
    List.mk_mem_zipIdx_iff_getElem?, recordViolations_eq_nil_iff, and_assoc]
  exact and_congr_right' (and_congr_right' forall_comm)

theorem violations_eq_nil_iff : s.violations = [] ↔ s.toFragment.WellFormed := by
  rw [violations_eq_nil_iff_checks, Fragment.wellFormed_iff, count_toFragment]
  simp only [StateRecord.mem_allTargets]
  constructor
  · rintro ⟨entry, exit, records⟩
    refine ⟨⟨entry, ?_⟩, ?_, ?_⟩
    · intro q label r edge
      obtain ⟨record, at_q, target⟩ := edge_toFragment.1 edge
      exact (records q record at_q).2 r ⟨label, target⟩
    · have inside := exit.lt_count
      rwa [count_toFragment] at inside
    · intro q
      refine ⟨fun final => ?_, fun same => same ▸ exit⟩
      obtain ⟨record, at_q, flag⟩ := isFinal_toFragment.1 final
      exact (records q record at_q).1 flag
  · rintro ⟨⟨entry, targets⟩, _, finals⟩
    refine ⟨entry, (finals s.exit).2 rfl, ?_⟩
    intro q record at_q
    constructor
    · intro flag
      exact (finals q).1 (isFinal_toFragment.2 ⟨record, at_q, flag⟩)
    · rintro r ⟨label, target⟩
      exact targets q label r (edge_toFragment.2 ⟨record, at_q, target⟩)

/-! ## Restoring -/

theorem restore_eq_ok_iff : s.restore = .ok f ↔
    s.version = currentVersion ∧ s.toFragment.WellFormed ∧ s.toFragment = f := by
  rw [← violations_eq_nil_iff, restore, violations]
  by_cases current : s.version = currentVersion
  · cases s.validate <;> simp [current, Validation.violations]
  · simp [current]

theorem wellFormed_of_restore (restored : s.restore = .ok f) : f.WellFormed := by
  obtain ⟨_, wf, rfl⟩ := restore_eq_ok_iff.1 restored
  exact wf

/-! ## Capturing -/

theorem toFragment_capture (id : SnapshotId) (createdAt : Instant) (f : Fragment) :
    (capture id createdAt f).toFragment = f := by
  obtain ⟨states, entry, exit⟩ := f
  simp [capture, toFragment, Function.comp_def, StateRecord.toState_ofState]

theorem restore_capture_iff (id : SnapshotId) (createdAt : Instant) :
    (capture id createdAt f).restore = .ok f ↔ f.WellFormed := by
  rw [restore_eq_ok_iff, toFragment_capture]
  simp [capture]

end Snapshot

end FragmentAlgebra
