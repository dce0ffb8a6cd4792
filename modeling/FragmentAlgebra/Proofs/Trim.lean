import FragmentAlgebra.Proofs.Obtainable
import FragmentAlgebra.Proofs.Walks

/-! # Trim fragments

A fragment is `Trim` if every state of its arena can be reached from the entry and can reach the
exit. The leaves are trim, and the combinators keep it: in a product, a sum or a loop the states of
an operand keep their paths to the ends of that operand, and the new edges join these to the ends of
the whole. So every composed fragment is trim; only a snapshot can bring in a state that is cut off.

In a trim fragment an edge leads on from every state that is not final
(`Trim.hasEdges_of_not_final`). A walk is therefore never stranded: one round keeps it `Live`, and
so does a whole run.
-/

namespace FragmentAlgebra

namespace Fragment

variable {a b f g : Fragment} {m : Merged} {da db p q r : Nat} {label : Option Symbol}

/-! ## Reachable states -/

/-- Some path leads from `q` to `r`, whatever it spells. -/
def Reaches (f : Fragment) (q r : StateId) : Prop := ∃ word, f.Path q word r

namespace Reaches

theorem refl (f : Fragment) (q : StateId) : f.Reaches q q := ⟨[], .stay q⟩

theorem single (edge : f.Edge q label r) : f.Reaches q r := ⟨_, .single edge⟩

theorem trans (front : f.Reaches p q) (back : f.Reaches q r) : f.Reaches p r := by
  obtain ⟨u, front⟩ := front
  obtain ⟨v, back⟩ := back
  exact ⟨u ++ v, front.trans back⟩

theorem map (φ : StateId → StateId)
    (keep : ∀ q label r, f.Edge q label r → g.Edge (φ q) label (φ r)) (reach : f.Reaches q r) :
    g.Reaches (φ q) (φ r) := by
  obtain ⟨word, path⟩ := reach
  exact ⟨word, path.map φ keep⟩

end Reaches

/-- Every state is reached from the entry and reaches the exit. -/
structure Trim (f : Fragment) : Prop where
  from_entry : ∀ q < f.count, f.Reaches f.entry q
  to_exit : ∀ q < f.count, f.Reaches q f.exit

/-! ## Leaves -/

theorem SingleEdge.trim (h : f.SingleEdge label) : f.Trim := by
  have across : f.Reaches 0 1 := .single ((h.edge_iff 0 label 1).2 ⟨rfl, rfl, rfl⟩)
  have ends {q : Nat} (lt : q < f.count) : q = 0 ∨ q = 1 := by
    rw [h.count] at lt
    omega
  constructor
  · intro q lt
    rw [h.entry]
    rcases ends lt with rfl | rfl
    · exact .refl f 0
    · exact across
  · intro q lt
    rw [h.exit]
    rcases ends lt with rfl | rfl
    · exact across
    · exact .refl f 1

/-! ## Products and sums -/

namespace Layout

theorem reaches_first (lay : Layout a b m da db) (wiring : g.Extends m.states)
    (reach : a.Reaches q r) : g.Reaches (q + da) (r + da) := by
  obtain ⟨word, path⟩ := reach
  exact ⟨word, lay.map_first wiring path⟩

theorem trim_concatMerged (lay : Layout a b m da db) (wa : a.WellFormed) (wb : b.WellFormed)
    (ta : a.Trim) (tb : b.Trim) : (concatMerged m).Trim := by
  have entry : (concatMerged m).entry = a.entry + da := lay.first_entry
  have exit : (concatMerged m).exit = b.exit + db := lay.second_exit
  have inside {q : Nat} (lt : q < (concatMerged m).count) : q < m.states.size :=
    lt.trans_eq size_leadOn
  have wiring := lay.extends_concatMerged wa
  have bridge : (concatMerged m).Reaches (a.exit + da) (b.entry + db) :=
    .single (lay.bridge_concatMerged wa)
  constructor
  · intro q lt
    rw [entry]
    rcases lay.cases_of_lt (inside lt) with ⟨p, hp, rfl⟩ | ⟨p, hp, rfl⟩
    · exact lay.reaches_first wiring (ta.from_entry p hp)
    · have crossed := (lay.reaches_first wiring (ta.from_entry _ wa.exit_lt)).trans bridge
      exact crossed.trans (lay.swap.reaches_first wiring (tb.from_entry p hp))
  · intro q lt
    rw [exit]
    rcases lay.cases_of_lt (inside lt) with ⟨p, hp, rfl⟩ | ⟨p, hp, rfl⟩
    · have crossed := (lay.reaches_first wiring (ta.to_exit p hp)).trans bridge
      exact crossed.trans (lay.swap.reaches_first wiring (tb.to_exit _ wb.entry_lt))
    · exact lay.swap.reaches_first wiring (tb.to_exit p hp)

theorem trim_unionMerged (lay : Layout a b m da db) (wa : a.WellFormed) (wb : b.WellFormed)
    (ta : a.Trim) (tb : b.Trim) : (unionMerged m).Trim := by
  have wiring := lay.extends_unionMerged wa wb
  have bracket {q r : Nat} (edge : Bracket a b da db m.states.size q r) :
      (unionMerged m).Reaches q r := .single (lay.bracket_unionMerged wa wb edge)
  have enter_first : (unionMerged m).Reaches m.states.size (a.entry + da) :=
    bracket (.inl ⟨rfl, .inl rfl⟩)
  have enter_second : (unionMerged m).Reaches m.states.size (b.entry + db) :=
    bracket (.inl ⟨rfl, .inr rfl⟩)
  have leave_first : (unionMerged m).Reaches (a.exit + da) (m.states.size + 1) :=
    bracket (.inr ⟨.inl rfl, rfl⟩)
  have leave_second : (unionMerged m).Reaches (b.exit + db) (m.states.size + 1) :=
    bracket (.inr ⟨.inr rfl, rfl⟩)
  have through : (unionMerged m).Reaches m.states.size (m.states.size + 1) :=
    (enter_first.trans (lay.reaches_first wiring (ta.to_exit _ wa.entry_lt))).trans leave_first
  have positions {q : Nat} (lt : q < (unionMerged m).count) :
      q < m.states.size ∨ q = m.states.size ∨ q = m.states.size + 1 := by
    rw [size_unionMerged] at lt
    omega
  constructor
  · intro q lt
    rcases positions lt with lt | rfl | rfl
    · rcases lay.cases_of_lt lt with ⟨p, hp, rfl⟩ | ⟨p, hp, rfl⟩
      · exact enter_first.trans (lay.reaches_first wiring (ta.from_entry p hp))
      · exact enter_second.trans (lay.swap.reaches_first wiring (tb.from_entry p hp))
    · exact .refl _ _
    · exact through
  · intro q lt
    rcases positions lt with lt | rfl | rfl
    · rcases lay.cases_of_lt lt with ⟨p, hp, rfl⟩ | ⟨p, hp, rfl⟩
      · exact (lay.reaches_first wiring (ta.to_exit p hp)).trans leave_first
      · exact (lay.swap.reaches_first wiring (tb.to_exit p hp)).trans leave_second
    · exact through
    · exact .refl _ _

end Layout

/-! ## Every composed fragment is trim -/

theorem Trim.loop (trim : a.Trim) (wf : a.WellFormed) : a.loop.Trim where
  from_entry q lt := by
    rw [count_loop] at lt
    exact (trim.from_entry q lt).map id fun _ _ _ edge => (edge_loop wf).2 (.inl edge)
  to_exit q lt := by
    rw [count_loop] at lt
    exact (trim.to_exit q lt).map id fun _ _ _ edge => (edge_loop wf).2 (.inl edge)

theorem hereditary_trim : Hereditary fun f => f.WellFormed ∧ f.Trim where
  literal symbol := ⟨wellFormed_literal symbol, (singleEdge_literal symbol).trim⟩
  empty := ⟨wellFormed_empty, singleEdge_empty.trim⟩
  concat {a b} first second := by
    obtain ⟨da, db, lay⟩ := merge_layout a b
    exact ⟨first.1.concat second.1, lay.trim_concatMerged first.1 second.1 first.2 second.2⟩
  union {a b} first second := by
    obtain ⟨da, db, lay⟩ := merge_layout a b
    exact ⟨first.1.union second.1, lay.trim_unionMerged first.1 second.1 first.2 second.2⟩
  loop body := ⟨body.1.loop, body.2.loop body.1⟩

theorem Trim.hasEdges_of_not_final (trim : f.Trim) (wf : f.WellFormed) {state : State}
    (at_q : f.state? q = some state) (not_final : state.isFinal = false) :
    state.hasEdges = true := by
  obtain ⟨word, path⟩ := trim.to_exit q (lt_count_of_state? at_q)
  rcases path.cases_head with ⟨_, rfl⟩ | ⟨label, p, rest, _, ⟨other, at_q', mem⟩, _⟩
  · obtain ⟨other, at_exit, final⟩ := wf.isFinal_iff.2 (Eq.refl f.exit)
    obtain rfl : state = other := Option.some.inj (at_q.symm.trans at_exit)
    rw [not_final] at final
    cases final
  · obtain rfl : state = other := Option.some.inj (at_q.symm.trans at_q')
    exact State.hasEdges_of_mem_successors mem

end Fragment

/-! ## Walks on trim fragments -/

namespace Walk

variable {σ : Type} {config : WalkConfig} {f : Fragment} {walk next : Walk σ}

/-- The walk goes along the fragment and has not come to a dead end. -/
structure Live (f : Fragment) (walk : Walk σ) : Prop where
  along : Along f walk
  going : ∀ state, walk.status ≠ .deadEnd state

theorem live_start (f : Fragment) (source : σ) : Live f (start f source) where
  along := along_start f source
  going state := by simp [start]

theorem Step.live (wf : f.WellFormed) (trim : f.Trim) (running : walk.status = .running)
    (step : Step config f walk next) (live : Live f walk) : Live f next := by
  refine ⟨step.along running live.along, ?_⟩
  have inside := live.along.path.lt_count wf.inRange wf.entry_lt
  cases step with
  | exhaust exhausted => simp
  | leave within outside =>
    obtain ⟨state, at_current⟩ := Fragment.state?_of_lt_count inside
    rw [outside] at at_current
    cases at_current
  | stop source within at_current final => simp
  | stick source within at_current not_final stuck =>
    rw [trim.hasEdges_of_not_final wf at_current not_final] at stuck
    cases stuck
  | move source within at_current follows => simp [running]
  | wait source within at_current edges => simp [running]

end Walk

/-- In a fragment that is made without a snapshot every state can be reached from the entry and can
reach the exit. No call of a generator on it ends at a dead end, whatever the configuration is,
whatever words the source hands out and whatever calls came before. -/
theorem Fragment.Composed.trim_and_not_returns_deadEnd {f : Fragment} (composed : f.Composed) :
    (∀ q < f.count, (∃ word, f.Path f.entry word q) ∧ ∃ word, f.Path q word f.exit) ∧
      ∀ (σ : Type) [RandomSource σ] (g after : Generator σ) (state : StateId),
        ¬ g.Returns f (.error (.deadEnd state)) after := by
  obtain ⟨wf, trim⟩ := hereditary_trim.of_composed composed
  refine ⟨fun q lt => ⟨trim.from_entry q lt, trim.to_exit q lt⟩, ?_⟩
  rintro σ _ g after state ⟨rounds, result, _⟩
  have live : Walk.Live f (g.walk f rounds) :=
    Walk.run_induct (Walk.Step.live wf trim) (Walk.live_start f g.source) rounds
  unfold Walk.result at result
  split at result
  case h_4 stranded ended =>
    exact live.going stranded ended
  all_goals simp at result

theorem Fragment.trim_of_nested_loops :
    let f := ((Fragment.ofBytes [97, 98]).loop.union (.literal 99)).loop
    f.Composed ∧
      (∀ q < f.count, (∃ word, f.Path f.entry word q) ∧ ∃ word, f.Path q word f.exit) ∧
        ∀ (g after : Generator Tape) (state : StateId),
          ¬ g.Returns f (.error (.deadEnd state)) after := by
  intro f
  have composed : f.Composed := .loop (.union (.loop (.ofBytes [97, 98])) (.literal 99))
  obtain ⟨trim, never⟩ := composed.trim_and_not_returns_deadEnd
  exact ⟨composed, trim, never Tape⟩

end FragmentAlgebra
