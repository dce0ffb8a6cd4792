import FragmentAlgebra.Fragment.Combinators
import FragmentAlgebra.Proofs.Walks

/-! # Budgets

A budget does nothing to a walk but cut it off. As long as a budget allows for every round, a walk
goes as it goes without one (`Walk.run_limit`), and a walk that is still running when its budget is
spent is `cut`. So a call under a budget of `n` rounds returns what the walk without a budget comes
to within `n` rounds, and fails if it comes to no end (`Generator.returns_limit_iff`).

A round begins one step and emits at most one symbol, and the round that completes a walk emits
none; `Walk.run_grows` carries such bounds from one round to a run. Together they say how the calls
under two budgets compare (`Generator.budgets_only_cut_short`).
-/

namespace FragmentAlgebra

variable {σ : Type}

/-- The same configuration with another budget, or with none. -/
def WalkConfig.limit (config : WalkConfig) (budget : Option Nat) : WalkConfig :=
  { config with maxSteps := budget }

theorem WalkConfig.limit_eq (config : WalkConfig) (budget : Option Nat) : config.limit budget =
    match budget with
    | some n => config.withMaxSteps n
    | none => config.unbounded := by
  cases budget <;> rfl

/-- The same generator under another budget. -/
def Generator.limit (g : Generator σ) (budget : Option Nat) : Generator σ :=
  { g with config := g.config.limit budget }

namespace Walk

variable {config : WalkConfig} {f : Fragment} {walk next : Walk σ} {n : Nat}

/-! ## What one round adds -/

theorem Step.steps_grow (step : Step config f walk next) :
    walk.steps ≤ next.steps ∧ next.steps ≤ walk.steps + 1 := by
  cases step <;> simp

theorem Step.steps_of_running (step : Step config f walk next) (running : next.status = .running) :
    next.steps = walk.steps + 1 := by
  cases step with
  | exhaust exhausted => cases running
  | _ => rfl

theorem Step.length_word_grows (step : Step config f walk next) :
    walk.word.length ≤ next.word.length ∧ next.word.length ≤ walk.word.length + 1 := by
  cases step with
  | @move state move source within at_current follows =>
    rw [word_cons]
    cases move <;> simp [word, Move.symbol?]
  | _ => simp [word]

/-- At most one symbol was emitted in each round, and none in the round that completed the walk. -/
structure Paced (walk : Walk σ) : Prop where
  length_le : walk.word.length ≤ walk.steps
  length_lt : walk.status = .complete → walk.word.length < walk.steps

theorem paced_start (f : Fragment) (source : σ) : Paced (start f source) where
  length_le := Nat.le_refl 0
  length_lt complete := by cases complete

theorem Step.paced (running : walk.status = .running) (step : Step config f walk next)
    (paced : Paced walk) : Paced next := by
  have length := paced.length_le
  have grown := step.length_word_grows.2
  cases step with
  | exhaust exhausted => exact ⟨length, fun complete => by cases complete⟩
  | leave within outside => exact ⟨Nat.le_succ_of_le length, fun complete => by cases complete⟩
  | stop source within at_current final =>
    exact ⟨Nat.le_succ_of_le length, fun _ => Nat.lt_succ_of_le length⟩
  | stick source within at_current not_final stuck =>
    exact ⟨Nat.le_succ_of_le length, fun complete => by cases complete⟩
  | move source within at_current follows =>
    exact ⟨grown.trans (Nat.succ_le_succ length), by simp [running]⟩
  | wait source within at_current edges =>
    exact ⟨Nat.le_succ_of_le length, by simp [running]⟩

/-- Only a walk that has a budget can run out of it. -/
theorem Step.budget_of_exceeded (running : walk.status = .running)
    (step : Step config f walk next) (exceeded : next.status = .budgetExceeded n) :
    config.maxSteps = some n := by
  cases step with
  | exhaust exhausted =>
    obtain rfl := WalkStatus.budgetExceeded.inj exceeded
    exact (Option.filter_eq_some_iff.1 exhausted).1
  | leave within outside => cases exceeded
  | stop source within at_current final => cases exceeded
  | stick source within at_current not_final stuck => cases exceeded
  | move source within at_current follows => simp [running] at exceeded
  | wait source within at_current edges => simp [running] at exceeded

/-! ## Cutting a walk off -/

/-- What a budget of `n` rounds leaves of a walk after these rounds. -/
def cut (n : Nat) (walk : Walk σ) : Walk σ :=
  match walk.status with
  | .running => { walk with status := .budgetExceeded n }
  | _ => walk

theorem cut_of_running (running : walk.status = .running) (n : Nat) :
    walk.cut n = { walk with status := .budgetExceeded n } := by
  rw [cut, running]

theorem cut_of_ended (ended : walk.status ≠ .running) (n : Nat) : walk.cut n = walk := by
  unfold cut
  split
  case h_1 running => exact absurd running ended
  case h_2 => rfl

theorem source_cut (walk : Walk σ) (n : Nat) : (walk.cut n).source = walk.source := by
  by_cases running : walk.status = .running
  · rw [cut_of_running running]
  · rw [cut_of_ended running]

theorem result_eq_none_iff : walk.result = none ↔ walk.status = .running := by
  unfold result
  cases walk.status <;> simp

theorem result_cut (walk : Walk σ) (n : Nat) : (walk.cut n).result =
    some (walk.result.getD (.error (.budgetExceeded n walk.word.length))) := by
  by_cases running : walk.status = .running
  · rw [cut_of_running running, result_eq_none_iff.2 running]
    rfl
  · obtain ⟨outcome, ended⟩ := Option.ne_none_iff_exists'.1 (mt result_eq_none_iff.1 running)
    rw [cut_of_ended running, ended]
    rfl

variable [RandomSource σ]

/-! ## What a run adds -/

/-- What a round leaves or raises by one, a run raises by no more than its rounds. -/
theorem run_grows {measure : Walk σ → Nat}
    (step : ∀ {walk next : Walk σ}, Step config f walk next →
      measure walk ≤ measure next ∧ measure next ≤ measure walk + 1) (walk : Walk σ)
    (rounds : Nat) : measure walk ≤ measure (walk.run config f rounds) ∧
      measure (walk.run config f rounds) ≤ measure walk + rounds := by
  induction rounds generalizing walk with
  | zero => exact ⟨le_refl _, le_refl _⟩
  | succ rounds ih =>
    by_cases running : walk.status = .running
    · obtain ⟨low, high⟩ := ih (walk.round config f)
      obtain ⟨first_low, first_high⟩ := step (step_round running)
      rw [run_succ running]
      omega
    · rw [run_of_ended running]
      omega

theorem running_of_run {rounds : Nat} (running : (walk.run config f rounds).status = .running) :
    walk.status = .running := by
  by_contra ended
  rw [run_of_ended ended] at running
  exact ended running

/-- What every round that does not end a walk raises by one, a run raises by its rounds. -/
theorem run_raises (measure : Walk σ → Nat)
    (step : ∀ {walk : Walk σ}, walk.status = .running → (walk.round config f).status = .running →
      measure (walk.round config f) = measure walk + 1) {rounds : Nat}
    (running : (walk.run config f rounds).status = .running) :
    measure (walk.run config f rounds) = measure walk + rounds := by
  induction rounds generalizing walk with
  | zero => rfl
  | succ rounds ih =>
    have before : walk.status = .running := running_of_run running
    rw [run_succ before] at running ⊢
    have after : (walk.round config f).status = .running := running_of_run running
    rw [ih running, step before after]
    omega

theorem steps_run_of_running {rounds : Nat}
    (running : (walk.run config f rounds).status = .running) :
    (walk.run config f rounds).steps = walk.steps + rounds :=
  run_raises steps (fun before => (step_round before).steps_of_running) running

/-! ## Runs under a budget -/

theorem round_limit {budget : Option Nat} (room : ∀ n ∈ budget, walk.steps < n) :
    walk.round (config.limit budget) f = walk.round (config.limit none) f := by
  have within : spent (config.limit budget) walk.steps = none := spent_eq_none room
  have free : spent (config.limit none) walk.steps = none := rfl
  rw [round, round, within, free]
  rfl

theorem run_limit {budget : Option Nat} {rounds : Nat}
    (room : ∀ n ∈ budget, walk.steps + rounds ≤ n) :
    walk.run (config.limit budget) f rounds = walk.run (config.limit none) f rounds := by
  induction rounds generalizing walk with
  | zero => rfl
  | succ rounds ih =>
    by_cases running : walk.status = .running
    · have one_more : ∀ n ∈ budget, walk.steps < n := by
        intro n mem
        have enough := room n mem
        omega
      have step : Step (config.limit none) f walk (walk.round (config.limit none) f) :=
        step_round running
      have grown := step.steps_grow.2
      rw [run_succ running, run_succ running, round_limit one_more]
      refine ih fun n mem => ?_
      have enough := room n mem
      omega
    · rw [run_of_ended running, run_of_ended running]

theorem run_limit_succ (config : WalkConfig) (f : Fragment) (source : σ) (n : Nat) :
    (start f source).run (config.limit (some n)) f (n + 1) =
      ((start f source).run (config.limit none) f n).cut n := by
  have room : ∀ m ∈ some n, (start f source).steps + n ≤ m := by simp [start]
  rw [run_add, run_limit room]
  by_cases running : ((start f source).run (config.limit none) f n).status = .running
  · have steps := steps_run_of_running running
    have spent : spent (config.limit (some n))
        ((start f source).run (config.limit none) f n).steps = some n := by
      rw [steps]
      simp [Walk.spent, WalkConfig.limit, start]
    rw [cut_of_running running, run_succ running, run, round, running, spent]
  · rw [cut_of_ended running, run_of_ended running]

end Walk

/-! ## Calls under a budget -/

namespace Generator

variable [RandomSource σ] {g after : Generator σ} {f : Fragment} {n : Nat}
  {outcome : Except GenerateError (List Symbol)}

theorem walk_limit (g : Generator σ) (f : Fragment) (n : Nat) :
    (g.limit (some n)).walk f (n + 1) = ((g.limit none).walk f n).cut n :=
  Walk.run_limit_succ g.config f g.source n

/-- A call under a budget of `n` rounds returns what the walk without a budget comes to within them,
and that the budget is exceeded if it comes to no end. -/
theorem returns_limit_iff : (g.limit (some n)).Returns f outcome after ↔
    outcome = ((g.limit none).walk f n).result.getD
        (.error (.budgetExceeded n ((g.limit none).walk f n).word.length)) ∧
      after = { g.limit (some n) with source := ((g.limit none).walk f n).source } := by
  have returns : (g.limit (some n)).Returns f _ _ :=
    ⟨n + 1, by rw [walk_limit, Walk.result_cut], rfl⟩
  rw [walk_limit, Walk.source_cut] at returns
  constructor
  · intro other
    exact other.unique returns
  · rintro ⟨rfl, rfl⟩
    exact returns

theorem steps_walk_le (g : Generator σ) (f : Fragment) (rounds : Nat) :
    (g.walk f rounds).steps ≤ rounds := by
  have grown : (g.walk f rounds).steps ≤ (Walk.start f g.source).steps + rounds :=
    (Walk.run_grows Walk.Step.steps_grow _ rounds).2
  simpa [Walk.start] using grown

theorem paced_walk (g : Generator σ) (f : Fragment) (rounds : Nat) :
    (g.walk f rounds).Paced :=
  Walk.run_induct Walk.Step.paced (Walk.paced_start f g.source) rounds

theorem length_word_walk_add (g : Generator σ) (f : Fragment) (m n : Nat) :
    (g.walk f m).word.length ≤ (g.walk f (m + n)).word.length ∧
      (g.walk f (m + n)).word.length ≤ (g.walk f m).word.length + n := by
  have split : g.walk f (m + n) = (g.walk f m).run g.config f n := Walk.run_add m n
  rw [split]
  exact Walk.run_grows Walk.Step.length_word_grows (g.walk f m) n

theorem walk_ne_budgetExceeded (g : Generator σ) (f : Fragment) (rounds limit produced : Nat) :
    ((g.limit none).walk f rounds).result ≠ some (.error (.budgetExceeded limit produced)) := by
  have free : ∀ m, ((g.limit none).walk f rounds).status ≠ .budgetExceeded m := by
    refine Walk.run_induct (P := fun walk => ∀ m, walk.status ≠ .budgetExceeded m) ?_ ?_ rounds
    · intro walk next running step _ m exceeded
      cases step.budget_of_exceeded running exceeded
    · simp [Walk.start]
  intro result
  exact free limit (Walk.result_eq_budgetExceeded_iff.1 result).1

/-- A budget that is exceeded is the one that was given, and the walk is still running. -/
theorem Returns.exceeded {limit produced : Nat}
    (returns : (g.limit (some n)).Returns f (.error (.budgetExceeded limit produced)) after) :
    ((g.limit none).walk f n).result = none ∧ limit = n ∧
      produced = ((g.limit none).walk f n).word.length := by
  obtain ⟨given, -⟩ := returns_limit_iff.1 returns
  cases found : ((g.limit none).walk f n).result with
  | some other =>
    rw [found, Option.getD_some] at given
    exact absurd (given ▸ found) (walk_ne_budgetExceeded g f n limit produced)
  | none =>
    rw [found, Option.getD_none] at given
    obtain ⟨rfl, rfl⟩ := GenerateError.budgetExceeded.inj (Except.error.inj given)
    exact ⟨rfl, rfl, rfl⟩

/-! ## Two budgets -/

/-- A word or a dead end that a call returns under a budget, it returns under every larger budget
and without one, and leaves the same source behind. -/
theorem Returns.of_larger {budget : Option Nat} (larger : ∀ m ∈ budget, n ≤ m)
    (returns : (g.limit (some n)).Returns f outcome after)
    (ended : ∀ limit produced, outcome ≠ .error (.budgetExceeded limit produced)) :
    (g.limit budget).Returns f outcome (after.limit budget) := by
  obtain ⟨given, rfl⟩ := returns_limit_iff.1 returns
  have result : ((g.limit none).walk f n).result = some outcome := by
    cases found : ((g.limit none).walk f n).result with
    | none => exact absurd (by rw [given, found]; rfl) (ended n _)
    | some other => rw [given, found]; rfl
  cases budget with
  | none => exact ⟨n, result, rfl⟩
  | some m =>
    obtain ⟨k, rfl⟩ := Nat.exists_eq_add_of_le (larger m rfl)
    have later := walk_of_result result k
    refine returns_limit_iff.2 ⟨?_, ?_⟩
    · rw [later, result]
      rfl
    · rw [later]
      rfl

/-- A call that exceeds a budget exceeds every smaller one, after at most as many symbols; it emits
at most one more in each of the rounds by which the budgets differ. -/
theorem Returns.of_smaller {budget : Option Nat} {limit produced : Nat}
    (larger : ∀ m ∈ budget, n ≤ m)
    (returns : (g.limit budget).Returns f (.error (.budgetExceeded limit produced)) after) :
    budget = some limit ∧ ∃ before later,
      (g.limit (some n)).Returns f (.error (.budgetExceeded n before)) later ∧
        before ≤ produced ∧ produced ≤ before + (limit - n) := by
  cases budget with
  | none =>
    obtain ⟨rounds, result, -⟩ := returns
    exact absurd result (walk_ne_budgetExceeded g f rounds limit produced)
  | some m =>
    obtain ⟨k, rfl⟩ := Nat.exists_eq_add_of_le (larger m rfl)
    obtain ⟨found, rfl, rfl⟩ := returns.exceeded
    have running : ((g.limit none).walk f n).result = none := by
      by_contra ended
      obtain ⟨other, ended⟩ := Option.ne_none_iff_exists'.1 ended
      rw [walk_of_result ended k, ended] at found
      cases found
    have grown := length_word_walk_add (g.limit none) f n k
    refine ⟨rfl, _, _, returns_limit_iff.2 ⟨?_, rfl⟩, grown.1, ?_⟩
    · rw [running]
      rfl
    · omega

theorem Returns.length_lt {word : List Symbol}
    (returns : (g.limit (some n)).Returns f (.ok word) after) : word.length < n := by
  obtain ⟨given, -⟩ := returns_limit_iff.1 returns
  have steps := steps_walk_le (g.limit none) f n
  have paced := paced_walk (g.limit none) f n
  generalize (g.limit none).walk f n = walk at given steps paced
  unfold Walk.result at given
  split at given
  case h_2 complete =>
    obtain rfl := Except.ok.inj given
    exact (paced.length_lt complete).trans_le steps
  all_goals simp at given

theorem Returns.produced_le {limit produced : Nat}
    (returns : (g.limit (some n)).Returns f (.error (.budgetExceeded limit produced)) after) :
    limit = n ∧ produced ≤ n := by
  obtain ⟨-, rfl, rfl⟩ := returns.exceeded
  have steps := steps_walk_le (g.limit none) f limit
  exact ⟨rfl, (paced_walk (g.limit none) f limit).length_le.trans steps⟩

/-- Budgets only cut walks short. What a call returns under a budget of `n` rounds, if it does not
exceed it, it returns under every larger budget and without one, with the same words taken from the
source. A call that exceeds a larger budget exceeds this one as well, after no more symbols, and
emits at most one more in each further round. A word that is returned is shorter than the budget,
and no more symbols than the budget are produced in vain. -/
theorem budgets_only_cut_short (g : Generator σ) (f : Fragment) (n : Nat) (budget : Option Nat)
    (larger : ∀ m ∈ budget, n ≤ m) :
    (∀ outcome after, (g.limit (some n)).Returns f outcome after →
      ((∃ word, outcome = .ok word) ∨ ∃ q, outcome = .error (.deadEnd q)) →
        (g.limit budget).Returns f outcome (after.limit budget)) ∧
    (∀ limit produced after,
      (g.limit budget).Returns f (.error (.budgetExceeded limit produced)) after →
        budget = some limit ∧ ∃ before later,
          (g.limit (some n)).Returns f (.error (.budgetExceeded n before)) later ∧
            before ≤ produced ∧ produced ≤ before + (limit - n)) ∧
    (∀ word after, (g.limit (some n)).Returns f (.ok word) after → word.length < n) ∧
    ∀ limit produced after,
      (g.limit (some n)).Returns f (.error (.budgetExceeded limit produced)) after →
        limit = n ∧ produced ≤ n := by
  refine ⟨?_, fun _ _ _ returns => returns.of_smaller larger, fun _ _ returns => returns.length_lt,
    fun _ _ _ returns => returns.produced_le⟩
  rintro outcome after returns (⟨word, rfl⟩ | ⟨q, rfl⟩)
  · exact returns.of_larger larger (by simp)
  · exact returns.of_larger larger (by simp)

/-- A word of two symbols takes six rounds: five are too few, and three leave one symbol less. -/
theorem budgets_of_two_symbols :
    let g : Generator Tape := ⟨.default, .ofList [0]⟩
    let f := Fragment.ofBytes [97, 98]
    (∃ after, (g.limit (some 6)).Returns f (.ok [97, 98]) after ∧
      (g.limit none).Returns f (.ok [97, 98]) (after.limit none)) ∧
    (∃ after, (g.limit (some 5)).Returns f (.error (.budgetExceeded 5 2)) after ∧
      ∃ before later, (g.limit (some 3)).Returns f (.error (.budgetExceeded 3 before)) later ∧
        before ≤ 2 ∧ 2 ≤ before + (5 - 3)) := by
  intro g f
  have complete : ((g.limit none).walk f 6).result = some (.ok [97, 98]) := by decide +kernel
  have running : ((g.limit none).walk f 5).result = none := by decide +kernel
  have length : ((g.limit none).walk f 5).word.length = 2 := by decide +kernel
  have enough : (g.limit (some 6)).Returns f (.ok [97, 98]) _ :=
    returns_limit_iff.2 ⟨by rw [complete]; rfl, rfl⟩
  have short : (g.limit (some 5)).Returns f (.error (.budgetExceeded 5 2)) _ :=
    returns_limit_iff.2 ⟨by rw [running, length]; rfl, rfl⟩
  obtain ⟨keeps, -⟩ := budgets_only_cut_short g f 6 none (by simp)
  obtain ⟨-, exceeds, -⟩ := budgets_only_cut_short g f 3 (some 5) (by simp)
  exact ⟨⟨_, enough, keeps _ _ enough (.inl ⟨_, rfl⟩)⟩, _, short, (exceeds _ _ _ short).2⟩

end Generator

end FragmentAlgebra
