import FragmentAlgebra.Proofs.Budgets
import FragmentAlgebra.Proofs.Coins
import FragmentAlgebra.Proofs.Loops
import FragmentAlgebra.Proofs.Trim

/-! # The two extremes of the stop coin

A certain stop coin takes no word and always comes up, so a walk ends at the first final state it
stands at: all the words it draws go into the choices of branches at states that are not final
(`Branches`), and the word it returns is that of a `FirstVisit` of the exit.

A stop probability of zero is a coin that never comes up, so a walk ends at a final state only if no
edge leaves it. From the exit of a loop an edge always leads on to its entry. Hence no walk on a
loop returns a word, and on a composed one, where it cannot be stranded either, it goes on until its
budget is spent (`stops_at_first_final_state_or_never`).
-/

namespace FragmentAlgebra

variable {σ : Type} {f : Fragment} {q r : StateId} {word : List Symbol} {n : Nat}

/-- A path from `q` that is at `r` when it ends and at no earlier time. -/
inductive Fragment.FirstVisit (f : Fragment) (r : StateId) : StateId → List Symbol → Prop
  | arrived : FirstVisit f r r []
  | step {q middle : StateId} {label : Option Symbol} {word : List Symbol} (away : q ≠ r)
      (edge : f.Edge q label middle) (rest : FirstVisit f r middle word) :
      FirstVisit f r q (label.toList ++ word)

theorem Binary64.mantissa_of_scaled_eq_zero {p : Binary64} (zero : p.scaled = 0) :
    p.mantissa = 0 := by
  have size : (p.mantissa : Int) * 2 ^ (p.exponent + 1074).toNat = 0 := by
    unfold scaled at zero
    split at zero
    · exact Int.neg_eq_zero.1 zero
    · exact zero
  simpa using size

variable [RandomSource σ]

theorem always_flip_false_of_zero {p : Binary64} (zero : p.scaled = 0) :
    Always (Random.flip p : StateM σ Bool) (· = false) := by
  have uncertain : p ≠ .one := by
    rintro rfl
    rw [Binary64.scaled_one] at zero
    exact absurd zero (by positivity)
  have none_below : p.threshold = 0 := by
    rw [Binary64.threshold, Binary64.mantissa_of_scaled_eq_zero zero, Nat.zero_mul, Nat.zero_div]
  exact always_flip_false uncertain none_below

namespace Walk

variable {config : WalkConfig} {state : State} {walk next : Walk σ} {p : Binary64}

/-! ## Stopping for certain -/

theorem run_chooseStop_one (state : State) (source : σ) :
    (chooseStop .one state).run source = (state.isFinal, source) := by
  unfold chooseStop Random.flip
  cases state.isFinal with
  | false => rfl
  | true => cases state.hasEdges <;> rfl

/-- A number of rounds at states that are not final. In each the words are drawn for the choice of a
branch and for nothing else. -/
inductive Branches (p : Binary64) (f : Fragment) :
    Nat → StateId → σ → List Symbol → StateId → σ → Prop
  | done (q : StateId) (source : σ) : Branches p f 0 q source [] q source
  | round {n : Nat} {q r : StateId} {state : State} {source between after : σ}
      {move : Option Move} {word : List Symbol} (at_q : f.state? q = some state)
      (not_final : state.isFinal = false)
      (chosen : (chooseMove p q state).run source = (move, between))
      (rest : Branches p f n ((move.map Move.target).getD q) between word r after) :
      Branches p f (n + 1) q source ((move.bind Move.symbol?).toList ++ word) r after

theorem Branches.firstVisit {source after : σ} (final : f.IsFinal r)
    (branches : Branches p f n q source word r after) : f.FirstVisit r q word := by
  induction branches with
  | done => exact .arrived
  | @round n q r state source between after move word at_q not_final chosen rest ih =>
    have visit := ih final
    cases move with
    | none => exact visit
    | some move =>
      have follows := always_chooseMove p q state source
      rw [chosen] at follows
      have away : q ≠ r := by
        rintro rfl
        obtain ⟨other, at_r, is_final⟩ := final
        obtain rfl : state = other := Option.some.inj (at_q.symm.trans at_r)
        rw [not_final] at is_final
        cases is_final
      exact .step away ((follows move rfl).edge at_q) visit

/-- What a round makes of a running walk under a certain stop coin: it ends the walk where it stands
and draws no word, or it chooses a branch at a state that is not final. -/
inductive CertainRound (config : WalkConfig) (f : Fragment) (walk next : Walk σ) : Prop
  | ends (ended : next.status ≠ .running) (current : next.current = walk.current)
      (word : next.word = walk.word) (source : next.source = walk.source)
      (steps_ge : walk.steps ≤ next.steps) (steps_le : next.steps ≤ walk.steps + 1)
  | branches {state : State} {move : Option Move} (going : next.status = .running)
      (steps : next.steps = walk.steps + 1) (at_current : f.state? walk.current = some state)
      (not_final : state.isFinal = false)
      (chosen : (chooseMove config.branchProbability walk.current state).run walk.source =
        (move, next.source))
      (current : next.current = (move.map Move.target).getD walk.current)
      (word : next.word = walk.word ++ (move.bind Move.symbol?).toList)

theorem Turn.certainRound (certain : config.stopProbability = .one)
    (running : walk.status = .running) (turn : Turn config f walk next) :
    CertainRound config f walk next := by
  cases turn with
  | exhaust exhausted => exact .ends (by simp) rfl rfl rfl (le_refl _) (Nat.le_succ _)
  | leave within outside => exact .ends (by simp) rfl rfl rfl (Nat.le_succ _) (le_refl _)
  | @act state _ within at_current acts =>
    have coin := run_chooseStop_one state walk.source
    rw [← certain] at coin
    cases acts with
    | stop stopped =>
      obtain ⟨-, rfl⟩ := Prod.mk.inj (coin.symm.trans stopped)
      exact .ends (by simp) rfl rfl rfl (Nat.le_succ _) (le_refl _)
    | stick going stuck =>
      obtain ⟨-, rfl⟩ := Prod.mk.inj (coin.symm.trans going)
      exact .ends (by simp) rfl rfl rfl (Nat.le_succ _) (le_refl _)
    | @move move source later going edges moved =>
      obtain ⟨not_final, rfl⟩ := Prod.mk.inj (coin.symm.trans going)
      exact .branches running rfl at_current not_final moved rfl (word_cons ..)
    | @wait source later going edges waited =>
      obtain ⟨not_final, rfl⟩ := Prod.mk.inj (coin.symm.trans going)
      exact .branches running rfl at_current not_final waited rfl (List.append_nil _).symm

/-- The rounds of a run under a certain stop coin are choices of branches, but for the one that ends
the walk. -/
theorem branches_run (certain : config.stopProbability = .one)
    (running : walk.status = .running) (rounds : Nat) :
    ∃ n word, Branches config.branchProbability f n walk.current walk.source word
        (walk.run config f rounds).current (walk.run config f rounds).source ∧
      (walk.run config f rounds).word = walk.word ++ word ∧
      walk.steps + n ≤ (walk.run config f rounds).steps ∧
      (walk.run config f rounds).steps ≤ walk.steps + n + 1 := by
  induction rounds generalizing walk with
  | zero => exact ⟨0, [], .done _ _, (List.append_nil _).symm, le_refl _, Nat.le_succ _⟩
  | succ rounds ih =>
    rw [run_succ running]
    cases (turn_round (f := f) running).certainRound certain running with
    | ends ended current word source steps_ge steps_le =>
      rw [run_of_ended ended, current, word, source]
      exact ⟨0, [], .done _ _, (List.append_nil _).symm, steps_ge, steps_le⟩
    | branches going steps at_current not_final chosen current word =>
      obtain ⟨n, rest, later, spelled, steps_ge, steps_le⟩ := ih going
      rw [current] at later
      refine ⟨n + 1, _, .round at_current not_final chosen later, ?_, ?_, ?_⟩
      · rw [spelled, word, List.append_assoc]
      · omega
      · omega

/-! ## Never stopping -/

theorem always_chooseStop_of_zero (zero : p.scaled = 0) (state : State) :
    Always (chooseStop p state : StateM σ Bool) fun stop =>
      stop = true → state.isFinal = true ∧ state.hasEdges = false := by
  apply Always.ite
  · intro final
    apply Always.ite
    · intro edges source stopped
      rw [always_flip_false_of_zero zero source] at stopped
      cases stopped
    · intro stuck
      exact .pure fun _ => ⟨final, by simpa using stuck⟩
  · intro _
    apply Always.pure
    simp

/-- A complete walk stands at a final state that no edge leaves. -/
def Exhausted (f : Fragment) (walk : Walk σ) : Prop :=
  walk.status = .complete →
    ∃ state, f.state? walk.current = some state ∧ state.isFinal = true ∧ state.hasEdges = false

theorem Turn.exhausted (zero : config.stopProbability.scaled = 0)
    (running : walk.status = .running) (turn : Turn config f walk next) : Exhausted f next := by
  intro complete
  cases turn with
  | exhaust exhausted => cases complete
  | leave within outside => cases complete
  | @act state _ within at_current acts =>
    have stops := always_chooseStop_of_zero zero state walk.source
    cases acts with
    | stop stopped =>
      rw [stopped] at stops
      exact ⟨state, at_current, stops rfl⟩
    | stick going stuck => cases complete
    | move going edges moved => simp [running] at complete
    | wait going edges waited => simp [running] at complete

theorem exhausted_run (zero : config.stopProbability.scaled = 0) (f : Fragment) (source : σ)
    (rounds : Nat) : Exhausted f ((start f source).run config f rounds) :=
  run_induct_round (fun running _ => (turn_round running).exhausted zero running)
    (fun complete => by cases complete) rounds

end Walk

namespace Generator

variable {g after : Generator σ}

theorem branches_walk (certain : g.config.stopProbability = .one) (f : Fragment) (rounds : Nat) :
    ∃ n ≤ (g.walk f rounds).steps, (g.walk f rounds).steps ≤ n + 1 ∧
      Walk.Branches g.config.branchProbability f n f.entry g.source (g.walk f rounds).word
        (g.walk f rounds).current (g.walk f rounds).source := by
  have running : (Walk.start f g.source).status = .running := rfl
  obtain ⟨n, word, branches, spelled, steps_ge, steps_le⟩ :=
    Walk.branches_run (f := f) certain running rounds
  obtain rfl : (g.walk f rounds).word = word := spelled
  have from_zero : (Walk.start f g.source).steps = 0 := rfl
  rw [from_zero, Nat.zero_add] at steps_ge steps_le
  exact ⟨n, steps_ge, steps_le, branches⟩

theorem Returns.firstVisit (wf : f.WellFormed) (certain : g.config.stopProbability = .one)
    (returns : g.Returns f (.ok word) after) : f.FirstVisit f.exit f.entry word := by
  obtain ⟨rounds, result, -⟩ := returns
  obtain ⟨complete, rfl⟩ := Walk.result_eq_ok_iff.1 result
  obtain ⟨n, -, -, branches⟩ := branches_walk certain f rounds
  have along : Walk.Along f (g.walk f rounds) :=
    Walk.along_run (Walk.along_start f g.source) rounds
  have final := along.final complete
  rw [wf.isFinal_iff.1 final] at branches final
  exact branches.firstVisit final

theorem Returns.not_edge_exit (wf : f.WellFormed) (zero : g.config.stopProbability.scaled = 0)
    (returns : g.Returns f (.ok word) after) (label : Option Symbol) (q : StateId) :
    ¬ f.Edge f.exit label q := by
  obtain ⟨rounds, result, -⟩ := returns
  obtain ⟨complete, -⟩ := Walk.result_eq_ok_iff.1 result
  obtain ⟨state, at_exit, final, stuck⟩ := Walk.exhausted_run zero f g.source rounds complete
  have exit : ((Walk.start f g.source).run g.config f rounds).current = f.exit :=
    wf.isFinal_iff.1 ⟨state, at_exit, final⟩
  rw [exit] at at_exit
  rintro ⟨other, at_exit', mem⟩
  obtain rfl : state = other := Option.some.inj (at_exit.symm.trans at_exit')
  rw [State.hasEdges_of_mem_successors mem] at stuck
  cases stuck

/-- No word is returned on a loop: from its exit an edge leads back to its entry. -/
theorem not_returns_loop (wf : f.WellFormed) (zero : g.config.stopProbability.scaled = 0) :
    ¬ g.Returns f.loop (.ok word) after := by
  intro returns
  have back : f.loop.Edge f.exit none f.entry :=
    (Fragment.edge_loop wf).2 (.inr ⟨rfl, .inl ⟨rfl, rfl⟩⟩)
  exact returns.not_edge_exit wf.loop zero none f.entry back

theorem running_loop (composed : f.Composed) (zero : g.config.stopProbability.scaled = 0)
    (rounds : Nat) : ((g.limit none).walk f.loop rounds).status = .running := by
  obtain ⟨wf, trim⟩ := Fragment.hereditary_trim.of_composed (.loop composed)
  have body := Fragment.hereditary_wellFormed.of_composed composed
  have live : Walk.Live f.loop ((g.limit none).walk f.loop rounds) :=
    Walk.run_induct (Walk.Step.live wf trim) (Walk.live_start f.loop g.source) rounds
  cases status : ((g.limit none).walk f.loop rounds).status with
  | running => rfl
  | complete => exact absurd (returns_of_complete status) (not_returns_loop body zero)
  | budgetExceeded m =>
    exact absurd (Walk.result_eq_budgetExceeded_iff.2 ⟨status, rfl⟩)
      (walk_ne_budgetExceeded g f.loop rounds m _)
  | deadEnd q => exact absurd status (live.going q)

theorem returns_loop_budgetExceeded (composed : f.Composed)
    (zero : g.config.stopProbability.scaled = 0) (limit : g.config.maxSteps = some n) :
    ∃ produced after, g.Returns f.loop (.error (.budgetExceeded n produced)) after := by
  have same : g = g.limit (some n) := by
    obtain ⟨config, source⟩ := g
    simp only [Generator.limit, WalkConfig.limit, ← limit]
  have running := Walk.result_eq_none_iff.2 (running_loop composed zero n)
  rw [same]
  refine ⟨((g.limit none).walk f.loop n).word.length, _, returns_limit_iff.2 ⟨?_, rfl⟩⟩
  rw [running, Option.getD_none]

/-- The extremes of the stop coin are absolute, whatever words the source hands out and whatever the
budget is. If stopping is certain, the word of a call on an obtainable fragment is that of a path
which is at the final state only when it ends, and all words drawn in a walk are drawn for the
choices of branches in its rounds. If the stop probability is zero (of either sign), a call returns
a word only if no edge leaves the final state: never on a loop, and under a budget a call on a
composed loop always exceeds it. -/
theorem stops_at_first_final_state_or_never (obtainable : f.Obtainable) (g : Generator σ) :
    (g.config.stopProbability = .one →
      (∀ word after, g.Returns f (.ok word) after → f.FirstVisit f.exit f.entry word) ∧
      ∀ rounds, ∃ n ≤ (g.walk f rounds).steps, (g.walk f rounds).steps ≤ n + 1 ∧
        Walk.Branches g.config.branchProbability f n f.entry g.source (g.walk f rounds).word
          (g.walk f rounds).current (g.walk f rounds).source) ∧
    (g.config.stopProbability.scaled = 0 →
      (∀ word after, g.Returns f (.ok word) after → ∀ label q, ¬ f.Edge f.exit label q) ∧
      (∀ word after, ¬ g.Returns f.loop (.ok word) after) ∧
      (f.Composed → ∀ n, g.config.maxSteps = some n → ∃ produced after,
        g.Returns f.loop (.error (.budgetExceeded n produced)) after)) := by
  have wf := obtainable.wellFormed
  refine ⟨fun certain => ⟨fun word after returns => returns.firstVisit wf certain, ?_⟩,
    fun zero => ⟨fun word after returns => returns.not_edge_exit wf zero,
      fun word after => not_returns_loop wf zero,
      fun composed n limit => returns_loop_budgetExceeded composed zero limit⟩⟩
  exact branches_walk certain f

/-- A loop of one symbol under a certain stop coin and under a stop probability of minus zero. -/
theorem stops_of_looped_literal :
    let f := Fragment.literal 97
    let certain : Generator Tape :=
      ⟨{ WalkConfig.default with stopProbability := .one }, .ofList [0]⟩
    let never : Generator Tape :=
      ⟨{ WalkConfig.default with stopProbability := .ofMagnitude true 0 }, .ofList [0]⟩
    f.loop.Obtainable ∧
      (∃ after, certain.Returns f.loop (.ok [97]) after ∧
        f.loop.FirstVisit f.loop.exit f.loop.entry [97]) ∧
      (∃ after, never.Returns f (.ok [97]) after ∧ ∀ label q, ¬ f.Edge f.exit label q) ∧
      ∃ produced after, never.Returns f.loop (.error (.budgetExceeded 100000 produced)) after := by
  intro f certain never
  have composed : f.Composed := .literal 97
  have obtainable : f.Obtainable := .literal 97
  have looped := certain.stops_at_first_final_state_or_never (.loop obtainable)
  have plain := never.stops_at_first_final_state_or_never obtainable
  have first : (certain.walk f.loop 2).status = .complete := by decide +kernel
  have first_word : (certain.walk f.loop 2).word = [97] := by decide +kernel
  have second : (never.walk f 2).status = .complete := by decide +kernel
  have second_word : (never.walk f 2).word = [97] := by decide +kernel
  have returned := first_word ▸ returns_of_complete first
  have plain_returned := second_word ▸ returns_of_complete second
  have zero : never.config.stopProbability.scaled = 0 := by decide +kernel
  exact ⟨.loop obtainable, ⟨_, returned, (looped.1 rfl).1 _ _ returned⟩,
    ⟨_, plain_returned, (plain.2 zero).1 _ _ plain_returned⟩,
    (plain.2 zero).2.2 composed _ rfl⟩

end Generator

end FragmentAlgebra
