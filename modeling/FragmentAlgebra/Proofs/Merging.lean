import FragmentAlgebra.Fragment.Combinators
import FragmentAlgebra.Proofs.Paths

/-! # Merged arenas and the wiring in them

Whichever operand is the larger, `merge` lays out two arenas side by side: each operand keeps its
edges and final flags, moved by a distance of its own, and the two ranges share no position
(`Layout`, `merge_layout`). The wiring steps add single epsilon edges and change single flags, so
the edges of a product, a sum or a loop are those of the operands and the few that are listed in
`edge_concatMerged`, `edge_unionMerged` and `edge_loop`.

The larger operand is the one that stays where it is: a merged arena is the `OrderedSum` of the
larger operand and the other one (`merge_is_ordered_sum`).
-/

namespace FragmentAlgebra

/-! ## Edges and final states of an arena -/

/-- An edge in an arena, whatever its entry and exit are. -/
def EdgeIn (states : Array State) (q : StateId) (label : Option Symbol) (r : StateId) : Prop :=
  ∃ state, states[q]? = some state ∧ r ∈ state.successors label

/-- A state of the arena that is final. -/
def FinalIn (states : Array State) (q : StateId) : Prop :=
  ∃ state, states[q]? = some state ∧ state.isFinal = true

variable {states : Array State} {q r origin target : Nat} {label : Option Symbol}

theorem edgeIn_modify_of_ne {change : State → State} (ne : q ≠ origin) :
    EdgeIn (states.modify origin change) q label r ↔ EdgeIn states q label r := by
  simp [EdgeIn, Array.getElem?_modify, Ne.symm ne]

theorem finalIn_modify_of_ne {change : State → State} (ne : q ≠ origin) :
    FinalIn (states.modify origin change) q ↔ FinalIn states q := by
  simp [FinalIn, Array.getElem?_modify, Ne.symm ne]

theorem edgeIn_modify_self {change : State → State} :
    EdgeIn (states.modify origin change) origin label r ↔
      ∃ state, states[origin]? = some state ∧ r ∈ (change state).successors label := by
  rw [EdgeIn, Array.getElem?_modify, if_pos rfl]
  cases states[origin]? <;> simp

theorem finalIn_modify_self {change : State → State} :
    FinalIn (states.modify origin change) origin ↔
      ∃ state, states[origin]? = some state ∧ (change state).isFinal = true := by
  rw [FinalIn, Array.getElem?_modify, if_pos rfl]
  cases states[origin]? <;> simp

theorem edgeIn_setFinal (b : Bool) :
    EdgeIn (states.modify origin (·.setFinal b)) q label r ↔ EdgeIn states q label r := by
  by_cases at_origin : q = origin
  · subst at_origin
    simp only [edgeIn_modify_self, State.successors_setFinal]
    rfl
  · exact edgeIn_modify_of_ne at_origin

theorem finalIn_setFinal_true (inside : origin < states.size) :
    FinalIn (states.modify origin (·.setFinal true)) q ↔ q = origin ∨ FinalIn states q := by
  by_cases at_origin : q = origin
  · subst at_origin
    simp [finalIn_modify_self, State.setFinal, inside]
  · simp [finalIn_modify_of_ne at_origin, at_origin]

theorem exists_mem_addEpsilonEdge (inside : origin < states.size) :
    (∃ state, states[origin]? = some state ∧
        r ∈ (state.addEpsilonEdge target).successors label) ↔
      EdgeIn states origin label r ∨ label = none ∧ r = target := by
  have at_origin : states[origin]? = some states[origin] := Array.getElem?_eq_getElem inside
  simp only [EdgeIn, at_origin, Option.some.injEq, exists_eq_left', State.successors_addEpsilonEdge]
  split
  case isTrue none_read => simp [none_read]
  case isFalse read => simp [read]

namespace Fragment

theorem edgeIn_link (inside : origin < states.size) :
    EdgeIn (link states origin target) q label r ↔
      EdgeIn states q label r ∨ q = origin ∧ label = none ∧ r = target := by
  by_cases at_origin : q = origin
  · subst at_origin
    rw [link, edgeIn_modify_self, exists_mem_addEpsilonEdge inside]
    simp
  · rw [link, edgeIn_modify_of_ne at_origin]
    simp [at_origin]

theorem finalIn_link : FinalIn (link states origin target) q ↔ FinalIn states q := by
  by_cases at_origin : q = origin
  · subst at_origin
    rw [link, finalIn_modify_self]
    rfl
  · exact finalIn_modify_of_ne at_origin

theorem edgeIn_leadOn (inside : origin < states.size) :
    EdgeIn (leadOn states origin target) q label r ↔
      EdgeIn states q label r ∨ q = origin ∧ label = none ∧ r = target := by
  by_cases at_origin : q = origin
  · subst at_origin
    have same (state : State) : ((state.setFinal false).addEpsilonEdge target).successors label =
        (state.addEpsilonEdge target).successors label := by
      simp [State.successors_addEpsilonEdge]
    simp only [leadOn, edgeIn_modify_self, same]
    rw [exists_mem_addEpsilonEdge inside]
    simp
  · rw [leadOn, edgeIn_modify_of_ne at_origin]
    simp [at_origin]

theorem finalIn_leadOn :
    FinalIn (leadOn states origin target) q ↔ FinalIn states q ∧ q ≠ origin := by
  by_cases at_origin : q = origin
  · subst at_origin
    simp [leadOn, finalIn_modify_self, State.addEpsilonEdge, State.setFinal]
  · rw [leadOn, finalIn_modify_of_ne at_origin]
    simp [at_origin]

theorem edgeIn_push_blank :
    EdgeIn (states.push .blank) q label r ↔ EdgeIn states q label r := by
  by_cases at_end : q = states.size
  · subst at_end
    simp [EdgeIn]
  · simp [EdgeIn, Array.getElem?_push, at_end]

theorem finalIn_push_blank : FinalIn (states.push .blank) q ↔ FinalIn states q := by
  by_cases at_end : q = states.size
  · subst at_end
    simp [FinalIn, State.blank]
  · simp [FinalIn, Array.getElem?_push, at_end]

@[simp] theorem size_link : (link states origin target).size = states.size := by simp [link]

@[simp] theorem size_leadOn : (leadOn states origin target).size = states.size := by simp [leadOn]

/-! ## The layout of a merged arena -/

/-- The states of `a` stand in the merged arena from `da` on, those of `b` from `db` on. -/
structure Layout (a b : Fragment) (merged : Merged) (da db : Nat) : Prop where
  size : merged.states.size = a.count + b.count
  apart : da = 0 ∧ db = a.count ∨ db = 0 ∧ da = b.count
  first_states : ∀ q < a.count, merged.states[q + da]? = (a.state? q).map (·.shift da)
  second_states : ∀ q < b.count, merged.states[q + db]? = (b.state? q).map (·.shift db)
  first_ends : merged.first = a.ends.shift da
  second_ends : merged.second = b.ends.shift db

theorem shift_zero (state : State) : state.shift 0 = state := by
  apply State.ext_successors
  · rfl
  · intro label
    simp [State.successors_shift]

theorem map_shift_zero (state : Option State) : state.map (·.shift 0) = state := by
  have id_shift : (fun state : State => state.shift 0) = id := funext shift_zero
  rw [id_shift, Option.map_id, id_eq]

theorem mergeInOrder_layout (a b : Fragment) : Layout a b (mergeInOrder a b) 0 a.count where
  size := by simp [mergeInOrder, appendShifted, count]
  apart := .inl ⟨rfl, rfl⟩
  first_states q lt := by
    rw [map_shift_zero, Nat.add_zero]
    simp only [mergeInOrder, appendShifted, state?]
    exact Array.getElem?_append_left lt
  second_states q lt := by
    have le : a.states.size ≤ q + a.states.size := Nat.le_add_left _ _
    simp only [mergeInOrder, appendShifted, state?, count]
    rw [Array.getElem?_append_right le, Nat.add_sub_cancel, Array.getElem?_map]
  first_ends := rfl
  second_ends := rfl

theorem Layout.swap {a b : Fragment} {m : Merged} {da db : Nat} (h : Layout a b m da db) :
    Layout b a ⟨m.states, m.second, m.first⟩ db da where
  size := h.size.trans (Nat.add_comm _ _)
  apart := h.apart.symm
  first_states := h.second_states
  second_states := h.first_states
  first_ends := h.second_ends
  second_ends := h.first_ends

theorem merge_layout_of_le {a b : Fragment} (le : b.count ≤ a.count) :
    Layout a b (a.merge b) 0 a.count := by
  rw [merge, if_pos le]
  exact mergeInOrder_layout a b

theorem merge_layout_of_lt {a b : Fragment} (lt : a.count < b.count) :
    Layout a b (a.merge b) b.count 0 := by
  rw [merge, if_neg (Nat.not_le.2 lt)]
  exact (mergeInOrder_layout b a).swap

/-- The larger operand stands at the front, the other behind it. -/
theorem merge_layout (a b : Fragment) : ∃ da db, Layout a b (a.merge b) da db := by
  rcases Nat.lt_or_ge a.count b.count with lt | le
  · exact ⟨_, _, merge_layout_of_lt lt⟩
  · exact ⟨_, _, merge_layout_of_le le⟩

namespace Layout

variable {a b : Fragment} {m : Merged} {da db p : Nat}

theorem first_entry (h : Layout a b m da db) : m.first.entry = a.entry + da := by
  rw [h.first_ends]
  rfl

theorem first_exit (h : Layout a b m da db) : m.first.exit = a.exit + da := by
  rw [h.first_ends]
  rfl

theorem second_entry (h : Layout a b m da db) : m.second.entry = b.entry + db :=
  h.swap.first_entry

theorem second_exit (h : Layout a b m da db) : m.second.exit = b.exit + db :=
  h.swap.first_exit

theorem ne (h : Layout a b m da db) (hq : q < a.count) (hp : p < b.count) : q + da ≠ p + db := by
  rcases h.apart with ⟨rfl, rfl⟩ | ⟨rfl, rfl⟩ <;> omega

theorem first_lt (h : Layout a b m da db) (hq : q < a.count) : q + da < m.states.size := by
  rw [h.size]
  rcases h.apart with ⟨rfl, rfl⟩ | ⟨rfl, rfl⟩ <;> omega

theorem second_lt (h : Layout a b m da db) (hp : p < b.count) : p + db < m.states.size :=
  h.swap.first_lt hp

theorem cases_of_lt (h : Layout a b m da db) (lt : q < m.states.size) :
    (∃ p < a.count, q = p + da) ∨ ∃ p < b.count, q = p + db := by
  rw [h.size] at lt
  rcases h.apart with ⟨rfl, rfl⟩ | ⟨rfl, rfl⟩
  · by_cases hq : q < a.count
    · exact .inl ⟨q, hq, rfl⟩
    · exact .inr ⟨q - a.count, by omega, by omega⟩
  · by_cases hq : q < b.count
    · exact .inr ⟨q, hq, rfl⟩
    · exact .inl ⟨q - b.count, by omega, by omega⟩

theorem edge_first (h : Layout a b m da db) (hq : q < a.count) :
    EdgeIn m.states (q + da) label r ↔ ∃ s, r = s + da ∧ a.Edge q label s := by
  obtain ⟨state, at_q⟩ := state?_of_lt_count hq
  simp [EdgeIn, Edge, h.first_states q hq, at_q, State.successors_shift, and_comm, eq_comm]

theorem edge_second (h : Layout a b m da db) (hq : q < b.count) :
    EdgeIn m.states (q + db) label r ↔ ∃ s, r = s + db ∧ b.Edge q label s :=
  h.swap.edge_first hq

theorem final_first (h : Layout a b m da db) (hq : q < a.count) :
    FinalIn m.states (q + da) ↔ a.IsFinal q := by
  obtain ⟨state, at_q⟩ := state?_of_lt_count hq
  simp [FinalIn, IsFinal, h.first_states q hq, at_q, State.shift, State.rename]

theorem final_second (h : Layout a b m da db) (hq : q < b.count) :
    FinalIn m.states (q + db) ↔ b.IsFinal q :=
  h.swap.final_first hq

end Layout

/-! ## Ordered sums -/

/-- The states of `kept` as they are, and behind them those of `moved` in order. These have their
final flags and, under every label, their targets in order, each moved behind `kept`. No edge leads
from one part into the other, as either operand keeps its targets among its own states. -/
structure OrderedSum (kept moved : Fragment) (states : Array State) : Prop where
  size : states.size = kept.count + moved.count
  kept_states : ∀ q < kept.count, states[q]? = kept.state? q
  moved_states : ∀ q < moved.count, ∃ state image, moved.state? q = some state ∧
    states[q + kept.count]? = some image ∧ image.isFinal = state.isFinal ∧
      ∀ label, image.successors label = (state.successors label).map (· + kept.count)
  no_crossing : ∀ q label r, EdgeIn states q label r → r < states.size ∧
    (q < kept.count ↔ r < kept.count)

theorem Layout.orderedSum {a b : Fragment} {m : Merged} (h : Layout a b m 0 a.count)
    (ra : a.InRange) (rb : b.InRange) : OrderedSum a b m.states where
  size := h.size
  kept_states q lt := by
    have same := h.first_states q lt
    rwa [map_shift_zero, Nat.add_zero] at same
  moved_states q lt := by
    obtain ⟨state, at_q⟩ := state?_of_lt_count lt
    have image := h.second_states q lt
    rw [at_q, Option.map_some] at image
    exact ⟨state, _, at_q, image, rfl, fun label => state.successors_shift a.count label⟩
  no_crossing q label r edge := by
    have inside : q < m.states.size := by
      obtain ⟨state, at_q, _⟩ := edge
      exact (Array.getElem?_eq_some_iff.1 at_q).1
    rw [h.size]
    rcases h.cases_of_lt inside with ⟨p, hp, rfl⟩ | ⟨p, hp, rfl⟩
    · obtain ⟨s, rfl, inner⟩ := (h.edge_first hp).1 edge
      have hs := (inRange_iff.1 ra).2 _ _ _ inner
      exact ⟨Nat.lt_add_right _ hs, iff_of_true hp hs⟩
    · obtain ⟨s, rfl, inner⟩ := (h.edge_second hp).1 edge
      have hs : s < b.count := (inRange_iff.1 rb).2 p label s inner
      have behind (z : Nat) : ¬ z + a.count < a.count := Nat.not_lt.2 (Nat.le_add_left _ z)
      rw [Nat.add_comm a.count]
      exact ⟨Nat.add_lt_add_right hs _, iff_of_false (behind p) (behind s)⟩

/-- Merging is an ordered sum in which the larger operand is kept, the first one on a tie, and the
other is moved. The ends come back in the order of the operands: those of the kept one as they are,
those of the moved one behind as many states as are kept. -/
theorem merge_is_ordered_sum {a b : Fragment} (ra : a.InRange) (rb : b.InRange) :
    (b.count ≤ a.count → OrderedSum a b (a.merge b).states ∧
      (a.merge b).first = ⟨a.entry, a.exit⟩ ∧
      (a.merge b).second = ⟨b.entry + a.count, b.exit + a.count⟩) ∧
    (a.count < b.count → OrderedSum b a (a.merge b).states ∧
      (a.merge b).first = ⟨a.entry + b.count, a.exit + b.count⟩ ∧
      (a.merge b).second = ⟨b.entry, b.exit⟩) := by
  constructor
  · intro le
    have lay := merge_layout_of_le le
    exact ⟨lay.orderedSum ra rb, lay.first_ends, lay.second_ends⟩
  · intro lt
    have lay := merge_layout_of_lt lt
    exact ⟨lay.swap.orderedSum rb ra, lay.first_ends, lay.second_ends⟩

/-- A literal in front of a word of two symbols is the one that is moved, behind its six states. -/
theorem merge_moves_smaller_first :
    let a := literal 120
    let b := ofBytes [121, 122]
    a.InRange ∧ b.InRange ∧ a.count < b.count ∧ OrderedSum b a (a.merge b).states ∧
      (a.merge b).first = ⟨6, 7⟩ ∧ (a.merge b).second = ⟨b.entry, b.exit⟩ := by
  intro a b
  have ra : a.InRange := by decide +kernel
  have rb : b.InRange := by decide +kernel
  have lt : a.count < b.count := by decide +kernel
  have moved : (⟨a.entry + b.count, a.exit + b.count⟩ : Ends) = ⟨6, 7⟩ := by decide +kernel
  rw [← moved]
  exact ⟨ra, rb, lt, (merge_is_ordered_sum ra rb).2 lt⟩

end Fragment

end FragmentAlgebra
