import FragmentAlgebra.Fragment.Language

/-! # Edges and paths

`State.successors` lists the targets under one label, a symbol or `none` for an epsilon edge, and
`Fragment.Edge` is the edge relation it gives. A path is then a chain of edges whose labels spell
its word (`Path.induct`, `Path.cons`), and the two facts that every combinator needs are

* `Path.map`: a map that keeps edges keeps paths and their words;
* `Path.escape`: a path that starts in an embedded fragment stays in it, or first runs to a state
  from which an epsilon edge leaves it.

`wellFormed_iff` says what being well formed means for edges and final states, and
`accepts_iff_path` that a well-formed fragment accepts the words that lead from its entry to its
exit. Of an `Isolated` fragment no edge enters the entry and none leaves the exit.
-/

namespace FragmentAlgebra

/-! ## Rows and the targets they list -/

theorem RowsOrdered.rowTargets_of_mem {rows : List EdgeRow} (h : RowsOrdered rows) {row : EdgeRow}
    (mem : row ∈ rows) : rowTargets row.1 rows = row.2 := by
  induction rows with
  | nil => simp at mem
  | cons head rest ih =>
    obtain ⟨s, ts⟩ := head
    rcases List.mem_cons.1 mem with rfl | mem
    · simp [rowTargets]
    · have ne : row.1 ≠ s := h.ne_head row mem
      rw [rowTargets, if_neg ne, ih h.tail mem]

theorem mem_rows_of_mem_rowTargets {rows : List EdgeRow} {c : Symbol} {target : StateId}
    (mem : target ∈ rowTargets c rows) : ∃ ts, (c, ts) ∈ rows ∧ target ∈ ts := by
  induction rows with
  | nil => simp [rowTargets] at mem
  | cons head rest ih =>
    obtain ⟨s, ts⟩ := head
    by_cases hc : c = s
    · subst hc
      exact ⟨ts, List.mem_cons_self, by simpa [rowTargets] using mem⟩
    · rw [rowTargets, if_neg hc] at mem
      obtain ⟨us, row, mem⟩ := ih mem
      exact ⟨us, List.mem_cons_of_mem _ row, mem⟩

namespace State

/-! ## Successors of a state -/

/-- The targets under one label: a symbol, or `none` for the epsilon edges. -/
def successors (state : State) : Option Symbol → List StateId
  | none => state.epsilon
  | some symbol => state.targets symbol

@[simp] theorem successors_blank (label : Option Symbol) : blank.successors label = [] := by
  cases label <;> rfl

@[simp] theorem successors_accepting (label : Option Symbol) : accepting.successors label = [] := by
  cases label <;> rfl

@[simp] theorem successors_setFinal (state : State) (b : Bool) (label : Option Symbol) :
    (state.setFinal b).successors label = state.successors label := by
  cases label <;> rfl

theorem successors_addEpsilonEdge (state : State) (target : StateId) (label : Option Symbol) :
    (state.addEpsilonEdge target).successors label =
      if label = none then state.successors label ++ [target] else state.successors label := by
  cases label <;> rfl

theorem successors_addSymbolEdge (state : State) (symbol : Symbol) (target : StateId)
    (label : Option Symbol) :
    (state.addSymbolEdge symbol target).successors label =
      if label = some symbol then state.successors label ++ [target]
      else state.successors label := by
  cases label with
  | none => rfl
  | some c =>
    have inserted := state.edges.targets_insert symbol c target
    simpa [successors, targets, addSymbolEdge] using inserted

theorem successors_rename (state : State) (φ : StateId → StateId) (label : Option Symbol) :
    (state.rename φ).successors label = (state.successors label).map φ := by
  cases label with
  | none => rfl
  | some c => exact state.edges.targets_rename c φ

theorem shift_eq_rename (state : State) (distance : Nat) :
    state.shift distance = state.rename (· + distance) := rfl

theorem successors_shift (state : State) (distance : Nat) (label : Option Symbol) :
    (state.shift distance).successors label = (state.successors label).map (· + distance) :=
  state.successors_rename (· + distance) label

theorem ext_successors {state other : State} (flag : state.isFinal = other.isFinal)
    (same : ∀ label, state.successors label = other.successors label) : state = other := by
  obtain ⟨isFinal, epsilon, edges⟩ := state
  obtain ⟨isFinal', epsilon', edges'⟩ := other
  obtain rfl : isFinal = isFinal' := flag
  obtain rfl : epsilon = epsilon' := same none
  obtain rfl : edges = edges' := EdgeTable.ext_targets fun c => same (some c)
  rfl

theorem mem_allTargets {state : State} {target : StateId} :
    target ∈ state.allTargets ↔ ∃ label, target ∈ state.successors label := by
  rw [allTargets, List.mem_append, List.mem_flatMap]
  constructor
  · rintro (mem | ⟨row, hrow, mem⟩)
    · exact ⟨none, mem⟩
    · refine ⟨some row.1, ?_⟩
      have h := state.edges.ordered.rowTargets_of_mem hrow
      rw [successors, targets, EdgeTable.targets, h]
      exact mem
  · rintro ⟨_ | c, mem⟩
    · exact .inl mem
    · obtain ⟨ts, hrow, mem⟩ := mem_rows_of_mem_rowTargets mem
      exact .inr ⟨(c, ts), hrow, mem⟩

theorem hasEdges_of_mem_successors {state : State} {label : Option Symbol} {target : StateId}
    (mem : target ∈ state.successors label) : state.hasEdges = true := by
  cases label with
  | none =>
    have edges : state.epsilon ≠ [] := List.ne_nil_of_mem mem
    simp [hasEdges, edges]
  | some c =>
    obtain ⟨ts, hrow, _⟩ := mem_rows_of_mem_rowTargets mem
    have edges : state.edges.rows ≠ [] := List.ne_nil_of_mem hrow
    simp [hasEdges, EdgeTable.isEmpty, edges]

end State

namespace Fragment

/-! ## Edges -/

/-- An edge under a symbol, or under none. -/
def Edge (f : Fragment) (q : StateId) (label : Option Symbol) (r : StateId) : Prop :=
  ∃ state, f.state? q = some state ∧ r ∈ state.successors label

variable {f g : Fragment} {p q r : StateId} {label : Option Symbol} {u v word : List Symbol}

theorem lt_count_of_state? {state : State} (at_q : f.state? q = some state) : q < f.count :=
  (Array.getElem?_eq_some_iff.1 at_q).1

theorem state?_of_lt_count (h : q < f.count) : ∃ state, f.state? q = some state :=
  ⟨f.states[q], Array.getElem?_eq_getElem h⟩

theorem Edge.lt_count (edge : f.Edge q label r) : q < f.count := by
  obtain ⟨state, at_q, _⟩ := edge
  exact lt_count_of_state? at_q

theorem IsFinal.lt_count (final : f.IsFinal q) : q < f.count := by
  obtain ⟨state, at_q, _⟩ := final
  exact lt_count_of_state? at_q

theorem inRange_iff :
    f.InRange ↔ f.entry < f.count ∧ ∀ q label r, f.Edge q label r → r < f.count := by
  refine and_congr_right fun _ => ⟨?_, ?_⟩
  · rintro h q label r ⟨state, at_q, mem⟩
    exact h state (Array.mem_of_getElem? at_q) r (State.mem_allTargets.2 ⟨label, mem⟩)
  · intro h state mem target hit
    obtain ⟨q, at_q⟩ := Array.mem_iff_getElem?.1 mem
    obtain ⟨label, hit⟩ := State.mem_allTargets.1 hit
    exact h q label target ⟨state, at_q, hit⟩

/-! ## Paths -/

namespace Path

theorem cons (edge : f.Edge q label p) (rest : f.Path p word r) :
    f.Path q (label.toList ++ word) r := by
  obtain ⟨state, at_q, mem⟩ := edge
  cases label with
  | none => exact .skip at_q mem rest
  | some c => exact .consume at_q mem rest

theorem single (edge : f.Edge q label r) : f.Path q label.toList r := by
  simpa using cons edge (.stay r)

/-- Paths are built from the back, edge by edge. -/
@[elab_as_elim] theorem induct
    {motive : (q : StateId) → (word : List Symbol) → (r : StateId) → f.Path q word r → Prop}
    (stay : ∀ q, motive q [] q (.stay q))
    (cons : ∀ {q p r label word} (edge : f.Edge q label p) (rest : f.Path p word r),
      motive p word r rest → motive q (label.toList ++ word) r (.cons edge rest))
    {q : StateId} {word : List Symbol} {r : StateId} (path : f.Path q word r) :
    motive q word r path := by
  induction path with
  | stay q => exact stay q
  | @skip q p _ _ state at_q mem rest ih =>
    have edge : f.Edge q none p := ⟨state, at_q, mem⟩
    exact cons edge rest ih
  | @consume q p _ symbol _ state at_q mem rest ih =>
    have edge : f.Edge q (some symbol) p := ⟨state, at_q, mem⟩
    exact cons edge rest ih

theorem cases_head (path : f.Path q word r) : word = [] ∧ q = r ∨
    ∃ label p rest, word = label.toList ++ rest ∧ f.Edge q label p ∧ f.Path p rest r := by
  induction path using induct with
  | stay q => exact .inl ⟨rfl, rfl⟩
  | cons edge rest ih => exact .inr ⟨_, _, _, rfl, edge, rest⟩

theorem trans (front : f.Path p u q) (back : f.Path q v r) : f.Path p (u ++ v) r := by
  induction front using induct with
  | stay q => exact back
  | cons edge rest ih => simpa using cons edge (ih back)

theorem snoc (front : f.Path p word q) (edge : f.Edge q label r) :
    f.Path p (word ++ label.toList) r := front.trans (single edge)

theorem uncons {symbol : Symbol} (path : f.Path q (symbol :: word) r) :
    ∃ m next, f.Path q [] m ∧ f.Edge m (some symbol) next ∧ f.Path next word r := by
  generalize whole : symbol :: word = spelled at path
  induction path using induct with
  | stay q => cases whole
  | @cons q p r label word edge rest ih =>
    cases label with
    | none =>
      obtain ⟨m, next, front, step, back⟩ := ih whole
      exact ⟨m, next, cons edge front, step, back⟩
    | some c =>
      obtain ⟨rfl, rfl⟩ := List.cons.inj whole
      exact ⟨q, p, .stay q, edge, rest⟩

theorem lt_count (inside : f.InRange) (path : f.Path q word r) (h : q < f.count) :
    r < f.count := by
  induction path using induct with
  | stay q => exact h
  | cons edge rest ih => exact ih ((inRange_iff.1 inside).2 _ _ _ edge)

theorem start_lt_count (path : f.Path q word r) (h : r < f.count) : q < f.count := by
  induction path using induct with
  | stay q => exact h
  | cons edge rest ih => exact edge.lt_count

theorem eq_of_no_edge_out (out : ∀ label s, ¬ f.Edge q label s) (path : f.Path q word r) :
    word = [] ∧ r = q := by
  induction path using induct with
  | stay q => exact ⟨rfl, rfl⟩
  | cons edge rest ih => exact absurd edge (out _ _)

theorem eq_of_no_edge_in (into : ∀ s label, ¬ f.Edge s label r) (path : f.Path q word r) :
    word = [] ∧ q = r := by
  induction path using induct with
  | stay q => exact ⟨rfl, rfl⟩
  | cons edge rest ih =>
    obtain ⟨rfl, rfl⟩ := ih into
    exact absurd edge (into _ _)

/-! ## Paths between two fragments -/

theorem map (φ : StateId → StateId)
    (keep : ∀ q label r, f.Edge q label r → g.Edge (φ q) label (φ r)) (path : f.Path q word r) :
    g.Path (φ q) word (φ r) := by
  induction path using induct with
  | stay q => exact .stay (φ q)
  | cons edge rest ih => exact cons (keep _ _ _ edge) ih

/-- `leave q z` holds of the epsilon edges of `g` that lead out of the image of `f`. -/
theorem escape {φ : StateId → StateId} {leave : StateId → StateId → Prop} (inside : f.InRange)
    (edges : ∀ q < f.count, ∀ label z, g.Edge (φ q) label z →
      (∃ r, z = φ r ∧ f.Edge q label r) ∨ (label = none ∧ leave q z))
    (start : q < f.count) (path : g.Path (φ q) word p) :
    (∃ r, p = φ r ∧ f.Path q word r) ∨
      ∃ u v r z, word = u ++ v ∧ f.Path q u r ∧ leave r z ∧ g.Path z v p := by
  generalize image : φ q = s at path
  induction path using induct generalizing q with
  | stay s => exact .inl ⟨q, image.symm, .stay q⟩
  | @cons s m p label word edge rest ih =>
    subst image
    rcases edges q start label m edge with ⟨r, rfl, kept⟩ | ⟨rfl, out⟩
    · rcases ih ((inRange_iff.1 inside).2 _ _ _ kept) rfl with ⟨z, hz, path⟩ |
        ⟨u, v, t, z, rfl, path, out, tail⟩
      · exact .inl ⟨z, hz, cons kept path⟩
      · exact .inr ⟨label.toList ++ u, v, t, z, by simp, cons kept path, out, tail⟩
    · exact .inr ⟨[], word, q, m, rfl, .stay q, out, rest⟩

end Path

/-! ## Well-formed fragments -/

theorem isFinal_iff_state?_any : f.IsFinal q ↔ (f.state? q).any (·.isFinal) = true := by
  rw [Option.any_eq_true]
  rfl

theorem mem_finalStates : q ∈ f.finalStates ↔ f.IsFinal q := by
  rw [finalStates, List.mem_filter, List.mem_range, isFinal_iff_state?_any]
  refine and_iff_right_of_imp fun final => ?_
  exact (isFinal_iff_state?_any.2 final).lt_count

theorem finalStates_eq_singleton_iff :
    f.finalStates = [p] ↔ ∀ q, f.IsFinal q ↔ q = p := by
  constructor
  · intro h q
    rw [← mem_finalStates, h, List.mem_singleton]
  · intro h
    have nodup : f.finalStates.Nodup := List.nodup_range.filter _
    have same : f.finalStates.Perm [p] :=
      (List.perm_ext_iff_of_nodup nodup (by simp)).2 fun q => by
        rw [mem_finalStates, h, List.mem_singleton]
    exact List.perm_singleton.1 same

theorem wellFormed_iff : f.WellFormed ↔
    (f.entry < f.count ∧ ∀ q label r, f.Edge q label r → r < f.count) ∧
      f.exit < f.count ∧ ∀ q, f.IsFinal q ↔ q = f.exit := by
  rw [WellFormed, inRange_iff, finalStates_eq_singleton_iff]

theorem WellFormed.inRange (h : f.WellFormed) : f.InRange := h.1

theorem WellFormed.entry_lt (h : f.WellFormed) : f.entry < f.count := h.1.1

theorem WellFormed.edge_lt (h : f.WellFormed) (edge : f.Edge q label r) : r < f.count :=
  (wellFormed_iff.1 h).1.2 q label r edge

theorem WellFormed.exit_lt (h : f.WellFormed) : f.exit < f.count := h.2.1

theorem WellFormed.isFinal_iff (h : f.WellFormed) : f.IsFinal q ↔ q = f.exit :=
  (wellFormed_iff.1 h).2.2 q

/-- No edge enters the entry and none leaves the exit. -/
structure Isolated (f : Fragment) : Prop where
  entry : ∀ q label, ¬ f.Edge q label f.entry
  exit : ∀ label q, ¬ f.Edge f.exit label q

theorem WellFormed.accepts_iff_path (h : f.WellFormed) :
    f.Accepts word ↔ f.Path f.entry word f.exit := by
  constructor
  · rintro ⟨q, path, final⟩
    rw [h.isFinal_iff] at final
    exact final ▸ path
  · intro path
    exact ⟨f.exit, path, h.isFinal_iff.2 rfl⟩

end Fragment

end FragmentAlgebra
