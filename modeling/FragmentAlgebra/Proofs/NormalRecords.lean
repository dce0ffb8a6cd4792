import FragmentAlgebra.Proofs.Restoring

/-! # Records in normal form

A record may list its transitions in any order, name a symbol several times and hold empty lists. In
its normal form there is one list for each symbol that has targets, the symbols ascend, and under
each symbol the targets stand in recorded order. The normal form keeps what is listed under each
symbol (`successors_normal`), so it is the record of the state that the record describes
(`ofState_toState`), a second pass changes nothing (`normal_normal`), and the records in normal form
are those that were sorted and without empty lists from the start (`normal_eq_self_iff`).

Restoring a snapshot and capturing the fragment again brings every record into its normal form
(`Snapshot.capture_restored`).
-/

namespace FragmentAlgebra

/-! ## Rows made of a list of symbols -/

/-- Every symbol, ascending. -/
def alphabet : List Symbol := (List.range 256).map UInt8.ofNat

theorem mem_alphabet (c : Symbol) : c ∈ alphabet :=
  List.mem_map.2 ⟨c.toNat, List.mem_range.2 c.toNat_lt, UInt8.ofNat_toNat⟩

theorem pairwise_alphabet : alphabet.Pairwise (· < ·) := by
  refine List.pairwise_map.2 (List.pairwise_lt_range.imp_of_mem ?_)
  intro i j hi hj lt
  have small : i < 256 := List.mem_range.1 hi
  have small' : j < 256 := List.mem_range.1 hj
  rw [UInt8.lt_iff_toNat_lt, UInt8.toNat_ofNat_of_lt' small, UInt8.toNat_ofNat_of_lt' small']
  exact lt

/-- A row for each symbol that has targets. -/
def rowsOf (targets : Symbol → List StateId) (symbols : List Symbol) : List EdgeRow :=
  (symbols.map fun c => (c, targets c)).filter fun row => row.2 ≠ []

theorem rowsOrdered_rowsOf (targets : Symbol → List StateId) {symbols : List Symbol}
    (ascending : symbols.Pairwise (· < ·)) : RowsOrdered (rowsOf targets symbols) := by
  have rows : (symbols.map fun c => (c, targets c)).Pairwise (·.1 < ·.1) :=
    List.pairwise_map.2 ascending
  refine ⟨rows.filter _, ?_⟩
  intro row mem
  simpa using (List.mem_filter.1 mem).2

/-- Under each of the symbols its targets are found. A symbol without targets gets no row, and looking
it up finds nothing either way. -/
theorem rowTargets_rowsOf (targets : Symbol → List StateId) (symbols : List Symbol) (c : Symbol) :
    rowTargets c (rowsOf targets symbols) = if c ∈ symbols then targets c else [] := by
  induction symbols with
  | nil => rfl
  | cons d symbols ih =>
    by_cases none_left : targets d = []
    · have head : rowsOf targets (d :: symbols) = rowsOf targets symbols := by
        simp [rowsOf, none_left]
      rw [head, ih]
      by_cases here : c = d
      · simp [here, none_left]
      · simp [here]
    · have head : rowsOf targets (d :: symbols) = (d, targets d) :: rowsOf targets symbols := by
        simp [rowsOf, none_left]
      rw [head, rowTargets, ih]
      by_cases here : c = d
      · simp [here]
      · simp [here]

namespace StateRecord

/-! ## The normal form of a record -/

/-- One list for each symbol that has targets, the symbols ascending. -/
def normal (record : StateRecord) : StateRecord :=
  { record with transitions := rowsOf (fun c => record.successors (some c)) alphabet }

theorem ordered_normal (record : StateRecord) : RowsOrdered record.normal.transitions :=
  rowsOrdered_rowsOf _ pairwise_alphabet

theorem rowTargets_normal (record : StateRecord) (c : Symbol) :
    rowTargets c record.normal.transitions = record.successors (some c) := by
  rw [normal, rowTargets_rowsOf, if_pos (mem_alphabet c)]

theorem successors_normal (record : StateRecord) (label : Option Symbol) :
    record.normal.successors label = record.successors label := by
  cases label with
  | none => rfl
  | some c => exact (record.ordered_normal.flatMap_filter c).trans (record.rowTargets_normal c)

theorem normal_normal (record : StateRecord) : record.normal.normal = record.normal := by
  have same : (fun c => record.normal.successors (some c)) =
      fun c => record.successors (some c) := funext fun c => record.successors_normal (some c)
  rw [normal, same]
  rfl

/-- A record is in normal form if its rows are ordered, since ordered rows are determined by what is
found under each symbol. -/
theorem normal_eq_self_iff {record : StateRecord} :
    record.normal = record ↔ RowsOrdered record.transitions := by
  constructor
  · intro same
    rw [← same]
    exact record.ordered_normal
  · intro ordered
    have rows : record.normal.transitions = record.transitions := by
      refine eq_of_rowTargets_eq record.ordered_normal ordered fun c => ?_
      rw [rowTargets_normal]
      exact ordered.flatMap_filter c
    calc record.normal
        = { record with transitions := record.normal.transitions } := rfl
      _ = record := by rw [rows]

theorem ofState_toState (record : StateRecord) : ofState record.toState = record.normal := by
  have rows : record.toState.edges.rows = record.normal.transitions := by
    refine eq_of_rowTargets_eq record.toState.edges.ordered record.ordered_normal fun c => ?_
    rw [rowTargets_normal]
    exact record.successors_toState (some c)
  have epsilon : record.toState.epsilon = record.epsilon := record.successors_toState none
  rw [ofState, record.isFinal_toState, epsilon, rows]
  rfl

end StateRecord

namespace Snapshot

variable {s : Snapshot} {f : Fragment}

/-! ## Restoring and capturing again -/

theorem states_capture_toFragment (s : Snapshot) (id : SnapshotId) (createdAt : Instant) :
    (capture id createdAt s.toFragment).states = s.states.map .normal := by
  simp [capture, toFragment, Function.comp_def, StateRecord.ofState_toState]

theorem map_normal_eq_self_iff {records : List StateRecord} :
    records.map .normal = records ↔ ∀ record ∈ records, RowsOrdered record.transitions := by
  induction records with
  | nil => simp
  | cons record records ih =>
    rw [List.map_cons, List.cons.injEq, StateRecord.normal_eq_self_iff, ih, List.forall_mem_cons]

/-- A restored fragment has under each symbol what is recorded under it, in recorded order. Captured
again, its records are the records that were restored, in normal form, which are the same records
exactly if those ascended without empty lists. They restore to the same fragment, and a second round
leaves them as they are. -/
theorem capture_restored (restored : s.restore = .ok f) (id : SnapshotId) (createdAt : Instant) :
    (f.entry = s.entry ∧ f.exit = s.exit ∧ f.count = s.states.length ∧
      ∀ q record, s.states[q]? = some record → ∃ state, f.state? q = some state ∧
        state.isFinal = record.isFinal ∧ state.epsilon = record.epsilon ∧
          ∀ c, state.targets c = (record.transitions.filter (·.1 = c)).flatMap (·.2)) ∧
    ((capture id createdAt f).entry = s.entry ∧ (capture id createdAt f).exit = s.exit ∧
      (capture id createdAt f).states = s.states.map .normal) ∧
    ((capture id createdAt f).states = s.states ↔ ∀ record ∈ s.states,
      record.transitions.Pairwise (·.1 < ·.1) ∧ ∀ row ∈ record.transitions, row.2 ≠ []) ∧
    (capture id createdAt f).restore = .ok f ∧
    ∀ g later moment, (capture id createdAt f).restore = .ok g →
      (capture later moment g).states = (capture id createdAt f).states := by
  obtain ⟨_, wf, rfl⟩ := restore_eq_ok_iff.1 restored
  have again : (capture id createdAt s.toFragment).restore = .ok s.toFragment :=
    (restore_capture_iff id createdAt).2 wf
  refine ⟨⟨rfl, rfl, s.count_toFragment, ?_⟩, ⟨rfl, rfl, ?_⟩, ?_, again, ?_⟩
  case refine_1 =>
    intro q record at_q
    refine ⟨record.toState, ?_, record.isFinal_toState, ?_, ?_⟩
    · rw [state?_toFragment, at_q, Option.map_some]
    · exact record.successors_toState none
    · intro c
      exact record.successors_toState (some c)
  case refine_2 => exact s.states_capture_toFragment id createdAt
  case refine_3 =>
    rw [states_capture_toFragment]
    exact map_normal_eq_self_iff
  case refine_4 =>
    intro g later moment restored_again
    obtain rfl : s.toFragment = g := Except.ok.inj (again.symm.trans restored_again)
    rfl

/-- A record whose symbols are mixed up and repeated, one of them with an empty list. -/
theorem capture_restored_mixed :
    ∃ (s : Snapshot) (f : Fragment),
      s.states = [⟨true, [0], [(98, [0]), (97, []), (98, [0]), (97, [0, 0])]⟩] ∧
      s.restore = .ok f ∧
      (capture s.id s.createdAt f).states = [⟨true, [0], [(97, [0, 0]), (98, [0, 0])]⟩] := by
  let s : Snapshot := ⟨currentVersion, ⟨.replicate 16 0⟩, .epoch, 0, 0,
    [⟨true, [0], [(98, [0]), (97, []), (98, [0]), (97, [0, 0])]⟩]⟩
  have restored : s.restore = .ok s.toFragment := rfl
  refine ⟨s, s.toFragment, rfl, restored, ?_⟩
  rw [(capture_restored restored s.id s.createdAt).2.1.2.2]
  decide

end Snapshot

end FragmentAlgebra
