import FragmentAlgebra.Proofs.Acceptance
import FragmentAlgebra.Search.Plain

/-! # Backtracking and the search that remembers

Plain backtracking lets siblings share a growing list of visited states. A try that fails leaves
the states it visited `Exhausted`: none of them accepts the input at once, and the epsilon edges
between them lead to visited states only. With nothing visited at the start, an exhausted list is
closed, so a path out of it never gets to accept, and no accepting path is hidden.

`Decides` says this of one try, `decides_acceptsFrom` of every try, by recursion along the search.
The search that remembers entries gives the same answers (`accepts_eq_acceptsFrom`).
-/

namespace FragmentAlgebra

namespace Fragment

variable {f : Fragment} {q r : StateId} {symbol : Symbol} {input : List Symbol}
  {origins : List StateId}

/-! ## Acceptance from a state -/

/-- Some path from `q` to a final state spells the input. -/
def AcceptsFrom (f : Fragment) (q : StateId) (input : List Symbol) : Prop :=
  ∃ r, f.Path q input r ∧ f.IsFinal r

/-- The same for paths that do not start with an epsilon edge. -/
def AcceptsAt (f : Fragment) (q : StateId) : List Symbol → Prop
  | [] => f.IsFinal q
  | symbol :: rest => ∃ next, f.Edge q (some symbol) next ∧ f.AcceptsFrom next rest

theorem AcceptsAt.lt_count (here : f.AcceptsAt q input) : q < f.count := by
  cases input with
  | nil => exact IsFinal.lt_count here
  | cons symbol rest =>
    obtain ⟨next, edge, _⟩ := here
    exact edge.lt_count

theorem AcceptsFrom.lt_count (accepts : f.AcceptsFrom q input) : q < f.count := by
  obtain ⟨r, path, final⟩ := accepts
  exact path.start_lt_count final.lt_count

theorem AcceptsAt.acceptsFrom (here : f.AcceptsAt q input) : f.AcceptsFrom q input := by
  cases input with
  | nil => exact ⟨q, .stay q, here⟩
  | cons symbol rest =>
    obtain ⟨next, edge, r, path, final⟩ := here
    exact ⟨r, .cons edge path, final⟩

theorem AcceptsFrom.cons_epsilon (edge : f.Edge q none r) (accepts : f.AcceptsFrom r input) :
    f.AcceptsFrom q input := by
  obtain ⟨s, path, final⟩ := accepts
  exact ⟨s, .cons edge path, final⟩

theorem AcceptsFrom.exists_acceptsAt (accepts : f.AcceptsFrom q input) :
    ∃ m, f.EpsilonReaches q m ∧ f.AcceptsAt m input := by
  obtain ⟨r, path, final⟩ := accepts
  cases input with
  | nil => exact ⟨r, path, final⟩
  | cons symbol rest =>
    obtain ⟨m, next, stretch, edge, back⟩ := path.uncons
    exact ⟨m, stretch, next, edge, r, back, final⟩

/-! ## Exhausted lists -/

/-- No state visited since `before` accepts the input at once, and their epsilon edges lead to
visited states. -/
def Exhausted (f : Fragment) (input : List Symbol) (before after : List StateId) : Prop :=
  ∀ q ∈ after, q ∉ before →
    ¬ f.AcceptsAt q input ∧ ∀ r, f.Edge q none r → r < f.count → r ∈ after

namespace Exhausted

variable {before mid after : List StateId}

theorem refl (before : List StateId) : f.Exhausted input before before :=
  fun _ mem new => absurd mem new

theorem trans (first : f.Exhausted input before mid) (second : f.Exhausted input mid after)
    (grows : mid ⊆ after) : f.Exhausted input before after := by
  intro q mem new
  by_cases old : q ∈ mid
  · obtain ⟨here, closed⟩ := first q old new
    exact ⟨here, fun r edge inside => grows (closed r edge inside)⟩
  · exact second q mem old

theorem unmark (behind : f.Exhausted input (q :: before) after) (here : ¬ f.AcceptsAt q input)
    (closed : ∀ r, f.Edge q none r → r < f.count → r ∈ after) :
    f.Exhausted input before after := by
  intro p mem new
  by_cases same : p = q
  · subst same
    exact ⟨here, closed⟩
  · have unmarked : p ∉ q :: before := by simp [same, new]
    exact behind p mem unmarked

/-- With nothing visited before, an exhausted list is closed, and nothing in it accepts. -/
theorem not_acceptsFrom (exhausted : f.Exhausted input [] after) (mem : q ∈ after) :
    ¬ f.AcceptsFrom q input := by
  intro accepts
  obtain ⟨m, stretch, here⟩ := accepts.exists_acceptsAt
  have reached : m ∈ after :=
    stretch.mem_of_closed (S := (· ∈ after))
      (fun p r hp edge inside => (exhausted p hp List.not_mem_nil).2 r edge inside)
      here.lt_count mem
  exact (exhausted m reached List.not_mem_nil).1 here

end Exhausted

/-! ## What a try decides -/

/-- A try from `origins` that accepts is right; one that fails has visited them all and leaves the
states it visited exhausted. -/
structure Decides (f : Fragment) (input : List Symbol) (origins : List StateId)
    {before : List StateId} (trial : Trial before) : Prop where
  sound : trial.found = true → ∃ q ∈ origins, f.AcceptsFrom q input
  covered : trial.found = false → ∀ q ∈ origins, q < f.count → q ∈ trial.visited
  exhausted : trial.found = false → f.Exhausted input before trial.visited

namespace Decides

variable {before : List StateId}

theorem refused (settled : ∀ q ∈ origins, q < f.count → q ∈ before) :
    f.Decides input origins (.refused before) where
  sound found := by simp [Trial.refused] at found
  covered _ := settled
  exhausted _ := .refl before

theorem accepted (accepts : f.AcceptsFrom q input) : f.Decides input [q] (.accepted q before) where
  sound _ := ⟨q, List.mem_singleton.2 rfl, accepts⟩
  covered failed := by simp [Trial.accepted] at failed
  exhausted failed := by simp [Trial.accepted] at failed

theorem marked {state : State} (at_q : f.state? q = some state) (here : ¬ f.AcceptsAt q input)
    {behind : Trial (q :: before)} (decides : f.Decides input state.epsilon behind) :
    f.Decides input [q] (behind.since (List.subset_cons_self q before)) where
  sound found := by
    obtain ⟨r, target, accepts⟩ := decides.sound found
    have edge : f.Edge q none r := ⟨state, at_q, target⟩
    exact ⟨q, List.mem_singleton.2 rfl, accepts.cons_epsilon edge⟩
  covered failed p mem _ := by
    obtain rfl := List.mem_singleton.1 mem
    exact behind.grows List.mem_cons_self
  exhausted failed := by
    refine (decides.exhausted failed).unmark here ?_
    rintro r ⟨state', at_q', target⟩ inside
    obtain rfl : state = state' := Option.some.inj (at_q.symm.trans at_q')
    exact decides.covered failed r target inside

theorem first {trial : Trial before} (decides : f.Decides input [q] trial)
    (found : trial.found = true) : f.Decides input (q :: origins) trial where
  sound _ := by
    obtain ⟨p, mem, accepts⟩ := decides.sound found
    obtain rfl := List.mem_singleton.1 mem
    exact ⟨p, List.mem_cons_self, accepts⟩
  covered failed := by simp [found] at failed
  exhausted failed := by simp [found] at failed

theorem later {trial : Trial before} (decides : f.Decides input [q] trial)
    (failed : trial.found = false) {others : Trial trial.visited}
    (rest : f.Decides input origins others) :
    f.Decides input (q :: origins) (others.since trial.grows) where
  sound found := by
    obtain ⟨p, mem, accepts⟩ := rest.sound found
    exact ⟨p, List.mem_cons_of_mem q mem, accepts⟩
  covered failed' p mem inside := by
    rcases List.mem_cons.1 mem with rfl | mem
    · exact others.grows (decides.covered failed p (List.mem_singleton.2 rfl) inside)
    · exact rest.covered failed' p mem inside
  exhausted failed' :=
    (decides.exhausted failed).trans (rest.exhausted failed') others.grows

theorem found_iff {trial : Trial []} (decides : f.Decides input [q] trial) :
    trial.found = true ↔ f.AcceptsFrom q input := by
  constructor
  · intro found
    obtain ⟨p, mem, accepts⟩ := decides.sound found
    obtain rfl := List.mem_singleton.1 mem
    exact accepts
  · intro accepts
    by_contra missed
    have failed : trial.found = false := by simpa using missed
    have visited : q ∈ trial.visited :=
      decides.covered failed q (List.mem_singleton.2 rfl) accepts.lt_count
    exact (decides.exhausted failed).not_acceptsFrom visited accepts

end Decides

/-! ## The whole recursion -/

theorem acceptsAt_nil_iff {state : State} (at_q : f.state? q = some state) :
    f.AcceptsAt q [] ↔ state.isFinal = true := by
  simp [AcceptsAt, IsFinal, at_q]

theorem acceptsAt_cons_iff {state : State} (at_q : f.state? q = some state)
    (decided : ∀ next, f.Decides input [next] (f.acceptsFrom [] input next)) :
    f.AcceptsAt q (symbol :: input) ↔
      ((state.targets symbol).any fun next => (f.acceptsFrom [] input next).found) = true := by
  simp only [List.any_eq_true, (decided _).found_iff]
  constructor
  · rintro ⟨next, ⟨state', at_q', target⟩, accepts⟩
    obtain rfl : state = state' := Option.some.inj (at_q.symm.trans at_q')
    exact ⟨next, target, accepts⟩
  · rintro ⟨next, target, accepts⟩
    exact ⟨next, ⟨state, at_q, target⟩, accepts⟩

theorem acceptsFrom_of_new {state : State} {visited : List StateId} (new : q ∉ visited)
    (at_q : f.state? q = some state) : f.acceptsFrom visited input q =
      match input with
      | [] =>
        if state.isFinal then .accepted q visited
        else (f.anyAccepts (q :: visited) [] state.epsilon).since (List.subset_cons_self q visited)
      | symbol :: rest =>
        if (state.targets symbol).any fun next => (f.acceptsFrom [] rest next).found then
          .accepted q visited
        else
          (f.anyAccepts (q :: visited) (symbol :: rest) state.epsilon).since
            (List.subset_cons_self q visited) := by
  rw [acceptsFrom, if_neg new]
  split
  case h_1 out => simp [at_q] at out
  case h_2 found =>
    obtain rfl := Option.some.inj (at_q.symm.trans found)
    rfl

/-- Every try decides. The cases are those of one state, which is visited, outside, at the end of the
input or in front of a symbol, and then those of several. -/
theorem decides_acceptsFrom :
    (∀ visited input q, f.Decides input [q] (f.acceptsFrom visited input q)) ∧
      ∀ visited input origins, f.Decides input origins (f.anyAccepts visited input origins) := by
  apply acceptsFrom.mutual_induct f
  case case1 =>
    intro visited input q old
    rw [acceptsFrom, if_pos old]
    refine .refused fun p mem _ => ?_
    exact List.mem_singleton.1 mem ▸ old
  case case2 =>
    intro visited input q new out
    rw [acceptsFrom, if_neg new]
    split
    case h_1 =>
      refine .refused fun p mem inside => ?_
      obtain ⟨state, at_p⟩ := state?_of_lt_count inside
      obtain rfl := List.mem_singleton.1 mem
      simp [out] at at_p
    case h_2 found => simp [out] at found
  case case3 =>
    intro visited q new state at_q final
    rw [acceptsFrom_of_new new at_q]
    simp only [final, if_true]
    exact .accepted ((acceptsAt_nil_iff at_q).2 final).acceptsFrom
  case case4 =>
    intro visited q new state at_q not_final behind
    rw [acceptsFrom_of_new new at_q]
    simp only [not_final]
    exact behind.marked at_q fun here => not_final ((acceptsAt_nil_iff at_q).1 here)
  case case5 =>
    intro visited q new state at_q symbol rest taken decided
    have here := (acceptsAt_cons_iff at_q decided).2 taken
    rw [acceptsFrom_of_new new at_q]
    simp only [taken, if_true]
    exact .accepted here.acceptsFrom
  case case6 =>
    intro visited q new state at_q symbol rest not_taken decided behind
    rw [acceptsFrom_of_new new at_q]
    simp only [not_taken]
    exact behind.marked at_q fun here => not_taken ((acceptsAt_cons_iff at_q decided).1 here)
  case case7 =>
    intro visited input
    rw [anyAccepts]
    exact .refused fun q mem _ => absurd mem List.not_mem_nil
  case case8 =>
    intro visited input q others first found decides
    rw [anyAccepts]
    simp only [first, found, if_true]
    exact decides.first found
  case case9 =>
    intro visited input q others first failed decides rest
    rw [anyAccepts]
    simp only [first, failed]
    exact decides.later (by simpa using failed) rest

/-- The search that remembers entries answers as plain backtracking does, on every graph and for
every input. -/
theorem accepts_eq_acceptsFrom (f : Fragment) (input : List Symbol) :
    f.accepts input = (f.acceptsFrom [] input f.entry).found := by
  rw [Bool.eq_iff_iff, ← mem_language, mem_language_iff_accepts]
  exact (decides_acceptsFrom.1 [] input f.entry).found_iff.symm

end Fragment

end FragmentAlgebra
