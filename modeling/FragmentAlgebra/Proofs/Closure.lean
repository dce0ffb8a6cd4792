import FragmentAlgebra.Search
import FragmentAlgebra.Proofs.Paths

/-! # Epsilon closures

A stack search marks an element before it visits the elements behind it. `Frontier` is the invariant
of every such search: what is marked is closed under the successor relation, up to what still waits
on the stack. It survives the three things a search does with the top of its stack: to pass over it
because it is marked, to drop it because it is not live, and to expand it.

`mem_closure` is what the walk along epsilon edges computes: the states of the arena reached along
epsilon edges, whatever cycles these edges form.
-/

namespace FragmentAlgebra

open Std (HashSet)

/-! ## The invariant of a stack search -/

/-- Every live successor of a marked element is marked or waits on the stack. -/
def Frontier {α : Type} [BEq α] [Hashable α] (next : α → α → Prop) (live : α → Prop)
    (marked : HashSet α) (stack : List α) : Prop :=
  ∀ a ∈ marked, ∀ b, next a b → live b → b ∈ marked ∨ b ∈ stack

namespace Frontier

variable {α : Type} [BEq α] [Hashable α] {next : α → α → Prop} {live : α → Prop}
  {marked : HashSet α} {stack : List α} {a : α}

theorem empty (stack : List α) : Frontier next live ∅ stack := by
  intro a mem
  simp at mem

theorem drop (h : Frontier next live marked (a :: stack)) (settled : a ∈ marked ∨ ¬ live a) :
    Frontier next live marked stack := by
  intro b hb c step alive
  rcases h b hb c step alive with hc | hc
  · exact .inl hc
  · rcases List.mem_cons.1 hc with rfl | hc
    · exact .inl (settled.resolve_right (not_not_intro alive))
    · exact .inr hc

variable [LawfulBEq α] [LawfulHashable α]

theorem expand (h : Frontier next live marked (a :: stack)) {behind : List α}
    (all : ∀ b, next a b → live b → b ∈ marked.insert a ∨ b ∈ behind) :
    Frontier next live (marked.insert a) (behind ++ stack) := by
  intro b hb c step alive
  rw [HashSet.mem_insert] at hb
  rcases hb with eq | hb
  · obtain rfl : a = b := eq_of_beq eq
    exact (all c step alive).imp_right (List.mem_append_left _)
  · rcases h b hb c step alive with hc | hc
    · exact .inl (HashSet.mem_insert.2 (.inr hc))
    · rcases List.mem_cons.1 hc with rfl | hc
      · exact .inl HashSet.mem_insert_self
      · exact .inr (List.mem_append_right _ hc)

end Frontier

namespace Fragment

variable {f : Fragment} {q r : StateId}

/-! ## One state of the walk -/

section OneState

variable {visited : HashSet StateId} {seen stack : List StateId}

theorem closureFrom_of_visited (old : q ∈ visited) :
    f.closureFrom visited seen (q :: stack) = f.closureFrom visited seen stack := by
  rw [closureFrom, if_pos old]

theorem closureFrom_of_outside (new : q ∉ visited) (outside : f.state? q = none) :
    f.closureFrom visited seen (q :: stack) = f.closureFrom visited seen stack := by
  rw [closureFrom, if_neg new]
  split
  case h_1 => rfl
  case h_2 state found => simp [outside] at found

theorem closureFrom_of_state {state : State} (new : q ∉ visited) (at_q : f.state? q = some state) :
    f.closureFrom visited seen (q :: stack) =
      f.closureFrom (visited.insert q) (q :: seen)
        (state.epsilon.filter (· ∉ visited.insert q) ++ stack) := by
  rw [closureFrom, if_neg new]
  split
  case h_1 outside => simp [at_q] at outside
  case h_2 state' found =>
    obtain rfl : state = state' := Option.some.inj (at_q.symm.trans found)
    rfl

end OneState

/-! ## What the walk keeps -/

theorem subset_closureFrom {visited : HashSet StateId} {seen stack : List StateId}
    (mem : q ∈ seen) : q ∈ f.closureFrom visited seen stack := by
  fun_induction closureFrom f visited seen stack with
  | case1 visited seen => exact mem
  | case2 visited seen p stack old ih => exact ih mem
  | case3 visited seen p stack new out ih => exact ih mem
  | case4 visited seen p stack new state at_p visited' ih => exact ih (List.mem_cons_of_mem _ mem)

theorem stack_subset_closureFrom {visited : HashSet StateId} {seen stack : List StateId}
    (agree : ∀ p, p ∈ visited → p ∈ seen) (mem : q ∈ stack) (inside : q < f.count) :
    q ∈ f.closureFrom visited seen stack := by
  fun_induction closureFrom f visited seen stack with
  | case1 visited seen => simp at mem
  | case2 visited seen p stack old ih =>
    rcases List.mem_cons.1 mem with rfl | mem
    · exact subset_closureFrom (agree q old)
    · exact ih agree mem
  | case3 visited seen p stack new out ih =>
    rcases List.mem_cons.1 mem with rfl | mem
    · obtain ⟨state, at_q⟩ := state?_of_lt_count inside
      simp [at_q] at out
    · exact ih agree mem
  | case4 visited seen p stack new state at_p visited' ih =>
    rcases List.mem_cons.1 mem with rfl | mem
    · exact subset_closureFrom List.mem_cons_self
    · refine ih ?_ (List.mem_append_right _ mem)
      intro r hr
      rcases HashSet.mem_insert.1 hr with eq | hr
      · simp [eq_of_beq eq]
      · exact List.mem_cons_of_mem _ (agree r hr)

/-- Edges do not lead out of the result: `visited` and `seen` hold the same states, so once the stack
is used up the one is closed because the other is. -/
theorem closureFrom_closed {visited : HashSet StateId} {seen stack : List StateId}
    (agree : ∀ p, p ∈ visited ↔ p ∈ seen)
    (frontier : Frontier (f.Edge · none ·) (· < f.count) visited stack)
    (mem : q ∈ f.closureFrom visited seen stack) (edge : f.Edge q none r) (inside : r < f.count) :
    r ∈ f.closureFrom visited seen stack := by
  fun_induction closureFrom f visited seen stack with
  | case1 visited seen =>
    rcases frontier q ((agree q).2 mem) r edge inside with hr | hr
    · exact (agree r).1 hr
    · simp at hr
  | case2 visited seen p stack old ih => exact ih agree (frontier.drop (.inl old)) mem
  | case3 visited seen p stack new out ih =>
    refine ih agree (frontier.drop (.inr fun inside => ?_)) mem
    obtain ⟨state, at_p⟩ := state?_of_lt_count inside
    simp [at_p] at out
  | case4 visited seen p stack new state at_p visited' ih =>
    refine ih ?_ (frontier.expand ?_) mem
    · intro s
      rw [HashSet.mem_insert, List.mem_cons, ← agree, beq_iff_eq, eq_comm]
    · rintro s ⟨state', at_p', target⟩ _
      obtain rfl : state = state' := Option.some.inj (at_p.symm.trans at_p')
      by_cases old : s ∈ visited.insert p
      · exact .inl old
      · exact .inr (List.mem_filter.2 ⟨target, by simpa [visited'] using old⟩)

theorem reached_of_mem_closureFrom {visited : HashSet StateId} {seen stack : List StateId}
    (mem : r ∈ f.closureFrom visited seen stack) :
    r ∈ seen ∨ r < f.count ∧ ∃ q ∈ stack, f.EpsilonReaches q r := by
  fun_induction closureFrom f visited seen stack with
  | case1 visited seen => exact .inl mem
  | case2 visited seen p stack old ih =>
    refine (ih mem).imp_right ?_
    rintro ⟨inside, q, hq, path⟩
    exact ⟨inside, q, List.mem_cons_of_mem _ hq, path⟩
  | case3 visited seen p stack new out ih =>
    refine (ih mem).imp_right ?_
    rintro ⟨inside, q, hq, path⟩
    exact ⟨inside, q, List.mem_cons_of_mem _ hq, path⟩
  | case4 visited seen p stack new state at_p visited' ih =>
    rcases ih mem with found | ⟨inside, q, hq, path⟩
    · rcases List.mem_cons.1 found with rfl | found
      · exact .inr ⟨lt_count_of_state? at_p, r, List.mem_cons_self, .stay r⟩
      · exact .inl found
    · refine .inr ⟨inside, ?_⟩
      rcases List.mem_append.1 hq with hq | hq
      · exact ⟨p, List.mem_cons_self, .skip at_p ((List.mem_filter.1 hq).1) path⟩
      · exact ⟨q, List.mem_cons_of_mem _ hq, path⟩

/-! ## The closure of a state -/

theorem EpsilonReaches.mem_of_closed {S : StateId → Prop}
    (closed : ∀ p m, S p → f.Edge p none m → m < f.count → S m) (path : f.EpsilonReaches q r)
    (inside : r < f.count) (start : S q) : S r := by
  unfold EpsilonReaches at path
  generalize none_read : ([] : List Symbol) = word at path
  induction path using Path.induct with
  | stay q => exact start
  | @cons q m r label word edge rest ih =>
    cases label with
    | none => exact ih inside (closed q m start edge (rest.start_lt_count inside)) none_read
    | some c => cases none_read

theorem mem_closure : r ∈ f.closure q ↔ r < f.count ∧ f.EpsilonReaches q r := by
  constructor
  · intro mem
    rcases reached_of_mem_closureFrom mem with none_seen | ⟨inside, p, hp, path⟩
    · simp at none_seen
    · obtain rfl := List.mem_singleton.1 hp
      exact ⟨inside, path⟩
  · rintro ⟨inside, path⟩
    refine path.mem_of_closed (S := (· ∈ f.closure q)) ?_ inside ?_
    · intro p m mem edge inside
      exact closureFrom_closed (by simp) (Frontier.empty _) mem edge inside
    · exact stack_subset_closureFrom (by simp) (by simp) (path.start_lt_count inside)

end Fragment

end FragmentAlgebra
