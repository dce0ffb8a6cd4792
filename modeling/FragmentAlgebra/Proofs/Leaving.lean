import FragmentAlgebra.Proofs.Safety
import FragmentAlgebra.Proofs.Steering

/-! # Leaving a state

A branch probability of zero is refused since no state could ever be left with it, and every
probability above zero passes. But a coin compares a word with an integer threshold, and the
threshold of a probability below `2 ^ -64` is zero as well: no word is below it. An accepted
configuration can leave a state exactly if its branch probability is at least `2 ^ -64`
(`can_leave_iff`); on the doubles below it, no round makes a move and a walk stays where it starts
(`never_moves`).
-/

namespace FragmentAlgebra

variable {σ : Type} {config : WalkConfig} {state : State}

theorem scaled_pos_of_validate (valid : config.validate = .ok ()) :
    0 < config.branchProbability.scaled := by
  obtain ⟨-, finite, -⟩ := Checked.isChance_of_validate valid
  obtain ⟨-, pos, -⟩ := WalkConfig.bounds_of_validate valid
  have above := Binary64.scaled_lt_of_lt pos (by decide) finite
  rwa [Binary64.scaled_zero] at above

namespace Walk

/-! ## Choosing a move -/

theorem exists_words_leaving (valid : config.validate = .ok ()) (edges : state.hasEdges = true)
    (enough : 2 ^ 1010 ≤ config.branchProbability.scaled) (q : StateId) :
    ∃ words, ((chooseMove config.branchProbability q state).run (Tape.ofList words)).1.isSome =
      true := by
  have wins : 1 ≤ config.branchProbability.threshold :=
    (Binary64.one_le_threshold_iff (scaled_pos_of_validate valid)).2 enough
  obtain ⟨words, up⟩ := yields_flip_true (.inr wins)
  have front : (Tape.ofList words).ahead = words ++ [] := by
    rw [Tape.ahead_ofList, List.append_nil]
  exact ⟨words, isSome_chooseMove edges (up _ [] front).1⟩

theorem always_stays [RandomSource σ] (valid : config.validate = .ok ())
    (small : config.branchProbability.scaled < 2 ^ 1010) (q : StateId) (state : State) :
    Always (chooseMove config.branchProbability q state : StateM σ (Option Move)) (· = none) := by
  have uncertain : config.branchProbability ≠ .one := by
    intro certain
    rw [certain, Binary64.scaled_one] at small
    have larger : (2 : Int) ^ 1010 ≤ 2 ^ (64 + 1010) :=
      pow_le_pow_right₀ (by norm_num) (Nat.le_add_left _ _)
    exact absurd small (not_lt.2 larger)
  have none_below : config.branchProbability.threshold = 0 := by
    have none_wins := mt (Binary64.one_le_threshold_iff (scaled_pos_of_validate valid)).1
      (not_le.2 small)
    omega
  exact always_chooseMove_none (always_flip_false uncertain none_below) q state

/-- An accepted configuration can leave a state that has edges exactly if its branch probability is
at least `2 ^ -64`, which is `2 ^ 1010` in units of the least double. Below that no word makes any
coin come up, whatever the source is. -/
theorem can_leave_iff (valid : config.validate = .ok ()) (edges : state.hasEdges = true)
    (q : StateId) :
    ((∃ words, ((chooseMove config.branchProbability q state).run (Tape.ofList words)).1.isSome =
        true) ↔ 2 ^ 1010 ≤ config.branchProbability.scaled) ∧
      (config.branchProbability.scaled < 2 ^ 1010 → ∀ (σ : Type) [RandomSource σ],
        Always (chooseMove config.branchProbability q state : StateM σ (Option Move)) (· = none)) := by
  refine ⟨⟨?_, fun enough => exists_words_leaving valid edges enough q⟩,
    fun small σ _ => always_stays valid small q state⟩
  rintro ⟨words, moves⟩
  by_contra small
  have stays := always_stays valid (not_le.1 small) q state (Tape.ofList words)
  rw [stays] at moves
  cases moves

/-- The least branch probability with which the entry of a literal can be left is `2 ^ -64`. -/
theorem can_leave_of_two_to_minus_64 :
    let config : WalkConfig := { WalkConfig.default with branchProbability := ⟨959 * 2 ^ 52⟩ }
    let state := State.blank.addSymbolEdge 97 1
    config.validate = .ok () ∧ state.hasEdges = true ∧
      ∃ words, ((chooseMove config.branchProbability 0 state).run (Tape.ofList words)).1.isSome =
        true := by
  intro config state
  have valid : config.validate = .ok () := by decide +kernel
  have edges : state.hasEdges = true := by decide +kernel
  have enough : 2 ^ 1010 ≤ config.branchProbability.scaled := by decide +kernel
  exact ⟨valid, edges, (can_leave_iff valid edges 0).1.2 enough⟩

/-- The double nearest to `1e-20` is accepted, but the entry of a literal is never left with it. -/
theorem never_leaves_with_tiny_coin :
    let config : WalkConfig :=
      { WalkConfig.default with branchProbability := ⟨0x3BC79CA10C924223⟩ }
    let state := State.blank.addSymbolEdge 97 1
    config.validate = .ok () ∧ state.hasEdges = true ∧
      ¬ ∃ words, ((chooseMove config.branchProbability 0 state).run (Tape.ofList words)).1.isSome =
        true := by
  intro config state
  have valid : config.validate = .ok () := by decide +kernel
  have small : config.branchProbability.scaled < 2 ^ 1010 := by decide +kernel
  refine ⟨valid, by decide +kernel, ?_⟩
  rintro ⟨words, moves⟩
  rw [always_stays valid small 0 state (Tape.ofList words)] at moves
  cases moves

/-! ## Walks that stay where they are -/

variable [RandomSource σ] {f : Fragment} {walk next : Walk σ}

theorem Acts.stays (acts : Acts config state walk next)
    (stays : ∀ q, Always (chooseMove config.branchProbability q state : StateM σ (Option Move))
      (· = none)) : next.current = walk.current ∧ next.moves = walk.moves := by
  cases acts with
  | @move move source later going edges moved =>
    have none_chosen := stays walk.current source
    rw [moved] at none_chosen
    cases none_chosen
  | _ => exact ⟨rfl, rfl⟩

theorem Turn.stays (valid : config.validate = .ok ())
    (small : config.branchProbability.scaled < 2 ^ 1010) (turn : Turn config f walk next) :
    next.current = walk.current ∧ next.moves = walk.moves := by
  cases turn with
  | @act state _ within at_current acts =>
    have stays := acts.stays fun q => always_stays valid small q state
    exact stays
  | _ => exact ⟨rfl, rfl⟩

/-- With such a branch probability a walk stays where it starts, and reads nothing. -/
theorem never_moves (valid : config.validate = .ok ())
    (small : config.branchProbability.scaled < 2 ^ 1010) (walk : Walk σ) (rounds : Nat) :
    (walk.run config f rounds).current = walk.current ∧
      (walk.run config f rounds).moves = walk.moves := by
  refine run_induct_round (P := fun later => later.current = walk.current ∧
    later.moves = walk.moves) ?_ ⟨rfl, rfl⟩ rounds
  rintro later running ⟨current, moves⟩
  obtain ⟨next_current, next_moves⟩ := (turn_round (f := f) running).stays valid small
  exact ⟨next_current.trans current, next_moves.trans moves⟩

end Walk

end FragmentAlgebra
