import FragmentAlgebra.Fragment.Construction
import FragmentAlgebra.Proofs.Loops

/-! # Renumbered fragments

Two fragments differ only in the numbers of their states if a permutation of the state numbers
carries one to the other: entry to entry, exit to exit, and each state to one with the same flag
and, under each label, the renamed targets in the same order (`Renumbers`).

However two arenas are set side by side, renumbered operands give renumbered arenas
(`Layout.exists_renumbers`), and the wiring steps keep this. So a construction gives the same
fragment up to a renumbering whichever operand each of its joins moves
(`Construction.exists_renumbers`).
-/

namespace FragmentAlgebra

namespace State

variable {state : State} {φ χ : StateId → StateId}

/-! ## Renamed states -/

theorem rename_congr (same : ∀ label, ∀ r ∈ state.successors label, φ r = χ r) :
    state.rename φ = state.rename χ := by
  apply ext_successors
  · rfl
  · intro label
    rw [successors_rename, successors_rename, List.map_congr_left (same label)]

theorem rename_rename (state : State) (φ χ : StateId → StateId) :
    (state.rename φ).rename χ = state.rename (χ ∘ φ) := by
  apply ext_successors
  · rfl
  · intro label
    simp only [successors_rename, List.map_map]

theorem rename_id (state : State) : state.rename id = state := by
  apply ext_successors
  · rfl
  · intro label
    rw [successors_rename, List.map_id]

theorem rename_addEpsilonEdge (state : State) (φ : StateId → StateId) (target : StateId) :
    (state.addEpsilonEdge target).rename φ = (state.rename φ).addEpsilonEdge (φ target) := by
  simp [addEpsilonEdge, rename]

end State

/-! ## Renumbered arenas -/

/-- `φ` carries the states of one arena to those of the other, with their targets renamed. It moves
no number outside the arenas, which are of one size. -/
structure ArenaRenumbers (φ : Equiv.Perm StateId) (states others : Array State) : Prop where
  size : others.size = states.size
  fixed : ∀ q, states.size ≤ q → φ q = q
  states : ∀ q, others[φ q]? = states[q]?.map (·.rename φ)

namespace ArenaRenumbers

variable {φ : Equiv.Perm StateId} {states others : Array State}

theorem modify (h : ArenaRenumbers φ states others) (origin : StateId)
    {change change' : State → State}
    (commutes : ∀ state, (change state).rename φ = change' (state.rename φ)) :
    ArenaRenumbers φ (states.modify origin change) (others.modify (φ origin) change') where
  size := by simp [h.size]
  fixed q le := h.fixed q (by simpa using le)
  states q := by
    rw [Array.getElem?_modify, Array.getElem?_modify, h.states]
    by_cases at_origin : origin = q
    · subst at_origin
      simp [Function.comp_def, commutes]
    · have elsewhere : φ origin ≠ φ q := fun same => at_origin (φ.injective same)
      simp [at_origin, elsewhere]

theorem link (h : ArenaRenumbers φ states others) (origin target : StateId) :
    ArenaRenumbers φ (Fragment.link states origin target)
      (Fragment.link others (φ origin) (φ target)) :=
  h.modify origin fun state => state.rename_addEpsilonEdge φ target

theorem leadOn (h : ArenaRenumbers φ states others) (origin target : StateId) :
    ArenaRenumbers φ (Fragment.leadOn states origin target)
      (Fragment.leadOn others (φ origin) (φ target)) :=
  h.modify origin fun state => (state.setFinal false).rename_addEpsilonEdge φ target

theorem setFinal (h : ArenaRenumbers φ states others) (origin : StateId) (isFinal : Bool) :
    ArenaRenumbers φ (states.modify origin (·.setFinal isFinal))
      (others.modify (φ origin) (·.setFinal isFinal)) :=
  h.modify origin fun _ => rfl

theorem push_blank (h : ArenaRenumbers φ states others) :
    ArenaRenumbers φ (states.push .blank) (others.push .blank) where
  size := by simp [h.size]
  fixed q le := h.fixed q (by simp at le; omega)
  states q := by
    have end_fixed : φ states.size = states.size := h.fixed _ le_rfl
    rw [Array.getElem?_push, Array.getElem?_push, h.size, h.states]
    by_cases at_end : q = states.size
    · subst at_end
      simp [end_fixed]
      rfl
    · have elsewhere : φ q ≠ states.size := fun same =>
        at_end (φ.injective (same.trans end_fixed.symm))
      simp [at_end, elsewhere]

end ArenaRenumbers

namespace Fragment

variable {a b a' b' f g : Fragment} {m m' : Merged} {φ ψ χ : Equiv.Perm StateId}
  {da db da' db' q : Nat}

/-- `φ` carries one fragment to the other. -/
structure Renumbers (φ : Equiv.Perm StateId) (f g : Fragment) : Prop
    extends ArenaRenumbers φ f.states g.states where
  entry : φ f.entry = g.entry
  exit : φ f.exit = g.exit

/-- `φ` carries one merged arena to the other, and the ends of each operand to the same ends. -/
structure MergedRenumbers (φ : Equiv.Perm StateId) (m m' : Merged) : Prop
    extends ArenaRenumbers φ m.states m'.states where
  first_entry : φ m.first.entry = m'.first.entry
  first_exit : φ m.first.exit = m'.first.exit
  second_entry : φ m.second.entry = m'.second.entry
  second_exit : φ m.second.exit = m'.second.exit

theorem Renumbers.refl (f : Fragment) : Renumbers (Equiv.refl StateId) f f where
  size := rfl
  fixed _ _ := rfl
  states q := by
    have id_rename : (fun state : State => state.rename (Equiv.refl StateId)) = id :=
      funext State.rename_id
    rw [id_rename, Option.map_id]
    rfl
  entry := rfl
  exit := rfl

theorem MergedRenumbers.concatMerged (h : MergedRenumbers φ m m') :
    Renumbers φ (concatMerged m) (concatMerged m') where
  toArenaRenumbers := by
    have wired := h.leadOn m.first.exit m.second.entry
    rw [h.first_exit, h.second_entry] at wired
    exact wired
  entry := h.first_entry
  exit := h.second_exit

theorem MergedRenumbers.unionMerged (h : MergedRenumbers φ m m') :
    Renumbers φ (unionMerged m) (unionMerged m') := by
  have entry : φ m.states.size = m'.states.size := (h.fixed _ le_rfl).trans h.size.symm
  have exit : φ (m.states.size + 1) = m'.states.size + 1 := by
    rw [h.fixed _ (Nat.le_succ _), h.size]
  have enter_first := h.push_blank.push_blank.link m.states.size m.first.entry
  rw [entry, h.first_entry] at enter_first
  have leave_first := enter_first.leadOn m.first.exit (m.states.size + 1)
  rw [exit, h.first_exit] at leave_first
  have enter_second := leave_first.link m.states.size m.second.entry
  rw [entry, h.second_entry] at enter_second
  have leave_second := enter_second.leadOn m.second.exit (m.states.size + 1)
  rw [exit, h.second_exit] at leave_second
  have flagged := leave_second.setFinal (m.states.size + 1) true
  rw [exit] at flagged
  refine { toArenaRenumbers := ?_, entry := entry, exit := exit }
  simp only [Fragment.unionMerged]
  exact flagged

theorem Renumbers.loop (h : Renumbers φ f g) : Renumbers φ f.loop g.loop where
  toArenaRenumbers := by
    have wired := (h.link f.exit f.entry).link f.entry f.exit
    rw [h.entry, h.exit] at wired
    exact wired
  entry := h.entry
  exit := h.exit

/-! ## Arenas side by side -/

/-- Two arenas of `m` and `n` states stand side by side when moved by `d` and `e`. -/
def Abreast (m n d e : Nat) : Prop := d = 0 ∧ e = m ∨ e = 0 ∧ d = n

/-- The renumbering of two arenas of `m` and `n` states, one by `φ` and one by `ψ`, that stand at
`d` and `e` and are to stand at `d'` and `e'`. -/
def rearrange (m n d e d' e' : Nat) (φ ψ : StateId → StateId) (q : StateId) : StateId :=
  if d ≤ q ∧ q < m + d then φ (q - d) + d'
  else if e ≤ q ∧ q < n + e then ψ (q - e) + e'
  else q

section Rearrangement

variable {m n d e d' e' q : Nat} {φ ψ φ' ψ' : StateId → StateId}

theorem Abreast.cases (apart : Abreast m n d e) (q : Nat) :
    (∃ p < m, q = p + d) ∨ (∃ p < n, q = p + e) ∨ m + n ≤ q := by
  by_cases first : d ≤ q ∧ q < m + d
  · exact .inl ⟨q - d, by omega, by omega⟩
  by_cases second : e ≤ q ∧ q < n + e
  · exact .inr (.inl ⟨q - e, by omega, by omega⟩)
  rcases apart with ⟨rfl, rfl⟩ | ⟨rfl, rfl⟩ <;> omega

theorem rearrange_first (inside : q < m) :
    rearrange m n d e d' e' φ ψ (q + d) = φ q + d' := by
  have here : d ≤ q + d ∧ q + d < m + d := by omega
  rw [rearrange, if_pos here, Nat.add_sub_cancel]

theorem rearrange_second (apart : Abreast m n d e) (inside : q < n) :
    rearrange m n d e d' e' φ ψ (q + e) = ψ q + e' := by
  have elsewhere : ¬ (d ≤ q + e ∧ q + e < m + d) := by
    rcases apart with ⟨rfl, rfl⟩ | ⟨rfl, rfl⟩ <;> omega
  have here : e ≤ q + e ∧ q + e < n + e := by omega
  rw [rearrange, if_neg elsewhere, if_pos here, Nat.add_sub_cancel]

theorem rearrange_outside (apart : Abreast m n d e) (outside : m + n ≤ q) :
    rearrange m n d e d' e' φ ψ q = q := by
  have not_first : ¬ (d ≤ q ∧ q < m + d) := by
    rcases apart with ⟨rfl, rfl⟩ | ⟨rfl, rfl⟩ <;> omega
  have not_second : ¬ (e ≤ q ∧ q < n + e) := by
    rcases apart with ⟨rfl, rfl⟩ | ⟨rfl, rfl⟩ <;> omega
  rw [rearrange, if_neg not_first, if_neg not_second]

theorem rearrange_rearrange (apart : Abreast m n d e) (apart' : Abreast m n d' e')
    (first : ∀ q < m, φ q < m ∧ φ' (φ q) = q) (second : ∀ q < n, ψ q < n ∧ ψ' (ψ q) = q)
    (q : StateId) :
    rearrange m n d' e' d e φ' ψ' (rearrange m n d e d' e' φ ψ q) = q := by
  rcases apart.cases q with ⟨p, inside, rfl⟩ | ⟨p, inside, rfl⟩ | outside
  · obtain ⟨lt, back⟩ := first p inside
    rw [rearrange_first inside, rearrange_first lt, back]
  · obtain ⟨lt, back⟩ := second p inside
    rw [rearrange_second apart inside, rearrange_second apart' lt, back]
  · rw [rearrange_outside apart outside, rearrange_outside apart' outside]

end Rearrangement

theorem Renumbers.count_eq (h : Renumbers φ f g) : g.count = f.count := h.size

theorem Renumbers.lt_count_iff (h : Renumbers φ f g) : φ q < f.count ↔ q < f.count := by
  constructor
  · intro inside
    by_contra outside
    rw [h.fixed q (Nat.le_of_not_lt outside)] at inside
    exact outside inside
  · intro inside
    by_contra outside
    have fixed : φ (φ q) = φ q := h.fixed _ (Nat.le_of_not_lt outside)
    rw [φ.injective fixed] at outside
    exact outside inside

theorem Renumbers.symm_lt_count_iff (h : Renumbers φ f g) : φ.symm q < f.count ↔ q < f.count := by
  rw [← h.lt_count_iff, φ.apply_symm_apply]

namespace Layout

theorem exists_rearrangement (lay : Layout a b m da db) (lay' : Layout a' b' m' da' db')
    (ra : Renumbers φ a a') (rb : Renumbers ψ b b') :
    ∃ χ : Equiv.Perm StateId, (∀ q < a.count, χ (q + da) = φ q + da') ∧
      (∀ q < b.count, χ (q + db) = ψ q + db') ∧ ∀ q, a.count + b.count ≤ q → χ q = q := by
  have apart : Abreast a.count b.count da db := lay.apart
  have apart' : Abreast a.count b.count da' db' := by
    rw [← ra.count_eq, ← rb.count_eq]
    exact lay'.apart
  refine ⟨⟨rearrange a.count b.count da db da' db' φ ψ,
    rearrange a.count b.count da' db' da db φ.symm ψ.symm, ?_, ?_⟩, ?_, ?_, ?_⟩
  · exact rearrange_rearrange apart apart'
      (fun q lt => ⟨ra.lt_count_iff.2 lt, φ.symm_apply_apply q⟩)
      fun q lt => ⟨rb.lt_count_iff.2 lt, ψ.symm_apply_apply q⟩
  · exact rearrange_rearrange apart' apart
      (fun q lt => ⟨ra.symm_lt_count_iff.2 lt, φ.apply_symm_apply q⟩)
      fun q lt => ⟨rb.symm_lt_count_iff.2 lt, ψ.apply_symm_apply q⟩
  · intro q lt
    exact rearrange_first lt
  · intro q lt
    exact rearrange_second apart lt
  · intro q le
    exact rearrange_outside apart le

/-- The states of an operand in two merged arenas, when `χ` takes each to its place. -/
theorem getElem?_first (lay : Layout a b m da db) (lay' : Layout a' b' m' da' db')
    (wa : a.WellFormed) (ra : Renumbers φ a a') (place : ∀ q < a.count, χ (q + da) = φ q + da')
    (inside : q < a.count) : m'.states[χ (q + da)]? = m.states[q + da]?.map (·.rename χ) := by
  obtain ⟨state, at_q⟩ := state?_of_lt_count inside
  have inside' : φ q < a'.count := ra.count_eq ▸ ra.lt_count_iff.2 inside
  have renumbered : a'.state? (φ q) = some (state.rename φ) := by
    have states : a'.state? (φ q) = (a.state? q).map (·.rename φ) := ra.states q
    rw [states, at_q, Option.map_some]
  have moved : (state.rename φ).shift da' = (state.shift da).rename χ := by
    rw [State.shift_eq_rename, State.shift_eq_rename, State.rename_rename, State.rename_rename]
    apply State.rename_congr
    intro label r edge
    exact (place r (wa.edge_lt ⟨state, at_q, edge⟩)).symm
  rw [place q inside, lay'.first_states _ inside', lay.first_states q inside, renumbered, at_q]
  simp only [Option.map_some, moved]

theorem exists_renumbers (lay : Layout a b m da db) (lay' : Layout a' b' m' da' db')
    (wa : a.WellFormed) (wb : b.WellFormed) (ra : Renumbers φ a a') (rb : Renumbers ψ b b') :
    ∃ χ, MergedRenumbers χ m m' := by
  obtain ⟨χ, first, second, outside⟩ := lay.exists_rearrangement lay' ra rb
  have same_size : m'.states.size = m.states.size := by
    rw [lay'.size, lay.size, ra.count_eq, rb.count_eq]
  refine ⟨χ, ⟨same_size, ?_, ?_⟩, ?_, ?_, ?_, ?_⟩
  · intro q le
    exact outside q (lay.size ▸ le)
  · intro q
    by_cases inside : q < m.states.size
    · rcases lay.cases_of_lt inside with ⟨p, hp, rfl⟩ | ⟨p, hp, rfl⟩
      · exact lay.getElem?_first lay' wa ra first hp
      · have moved := lay.swap.getElem?_first lay'.swap wb rb second hp
        exact moved
    · have le : m.states.size ≤ q := Nat.le_of_not_lt inside
      rw [outside q (lay.size ▸ le), Array.getElem?_eq_none le,
        Array.getElem?_eq_none (same_size ▸ le)]
      rfl
  · rw [lay.first_entry, first _ wa.entry_lt, ra.entry, lay'.first_entry]
  · rw [lay.first_exit, first _ wa.exit_lt, ra.exit, lay'.first_exit]
  · rw [lay.second_entry, second _ wb.entry_lt, rb.entry, lay'.second_entry]
  · rw [lay.second_exit, second _ wb.exit_lt, rb.exit, lay'.second_exit]

end Layout

/-- A way to join two arenas that sets them side by side. -/
def SideBySide (join : Fragment → Fragment → Merged) : Prop :=
  ∀ a b, ∃ da db, Layout a b (join a b) da db

theorem SideBySide.exists_renumbers {join join' : Fragment → Fragment → Merged}
    (aside : SideBySide join) (aside' : SideBySide join') (wa : a.WellFormed) (wb : b.WellFormed)
    (ra : Renumbers φ a a') (rb : Renumbers ψ b b') :
    ∃ da db, Layout a b (join a b) da db ∧ ∃ χ, MergedRenumbers χ (join a b) (join' a' b') := by
  obtain ⟨da, db, lay⟩ := aside a b
  obtain ⟨da', db', lay'⟩ := aside' a' b'
  exact ⟨da, db, lay, lay.exists_renumbers lay' wa wb ra rb⟩

end Fragment

/-! ## Constructions -/

open Fragment

/-- Two ways to join arenas that both set them side by side give the same construction up to a
renumbering. -/
theorem Construction.exists_renumbers {join join' : Fragment → Fragment → Merged}
    (aside : SideBySide join) (aside' : SideBySide join') (c : Construction)
    (leaves : ∀ f ∈ c.leaves, f.WellFormed) :
    (c.build join).WellFormed ∧ ∃ φ, Renumbers φ (c.build join) (c.build join') := by
  induction c with
  | leaf f => exact ⟨leaves f (List.mem_singleton_self f), _, .refl f⟩
  | concat first second first_ih second_ih =>
    obtain ⟨wa, φ, ra⟩ := first_ih fun f mem => leaves f (List.mem_append_left _ mem)
    obtain ⟨wb, ψ, rb⟩ := second_ih fun f mem => leaves f (List.mem_append_right _ mem)
    obtain ⟨da, db, lay, χ, merged⟩ := aside.exists_renumbers aside' wa wb ra rb
    exact ⟨lay.wellFormed_concatMerged wa wb, χ, merged.concatMerged⟩
  | union a b a_ih b_ih =>
    obtain ⟨wa, φ, ra⟩ := a_ih fun f mem => leaves f (List.mem_append_left _ mem)
    obtain ⟨wb, ψ, rb⟩ := b_ih fun f mem => leaves f (List.mem_append_right _ mem)
    obtain ⟨da, db, lay, χ, merged⟩ := aside.exists_renumbers aside' wa wb ra rb
    exact ⟨lay.wellFormed_unionMerged wa wb, χ, merged.unionMerged⟩
  | loop body ih =>
    obtain ⟨wf, φ, renumbers⟩ := ih leaves
    exact ⟨wf.loop, φ, renumbers.loop⟩

end FragmentAlgebra
