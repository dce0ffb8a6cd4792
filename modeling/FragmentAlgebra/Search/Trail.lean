import FragmentAlgebra.Search

/-! # A search entry by entry

What becomes of the first pending entry decides how a search goes on: it is settled already, it lies
outside, it ends the search, or it queues others. `Search.run_induct` is the induction over these
cases, and the report and the trail of a search each have an equation for every case. The length of
the trail is what the search adds to its count of expanded entries (`explored_run`).
-/

namespace FragmentAlgebra

open Std (HashSet)

namespace Search

/-- Induction over the entries that a search takes off its stack. -/
theorem run_induct (fragment : Fragment) (input : Array Symbol)
    {motive : HashSet Entry → List Entry → Prop} (done : ∀ settled, motive settled [])
    (old : ∀ settled entry pending, entry ∈ settled → motive settled pending →
      motive settled (entry :: pending))
    (outside : ∀ settled entry pending, entry ∉ settled →
      ¬ (entry.1 < fragment.count ∧ entry.2 ≤ input.size) → motive settled pending →
      motive settled (entry :: pending))
    (accepted : ∀ settled entry pending, entry ∉ settled →
      entry.1 < fragment.count ∧ entry.2 ≤ input.size →
      expand fragment input (settled.insert entry) entry = .accepted →
      motive settled (entry :: pending))
    (queued : ∀ settled entry pending next, entry ∉ settled →
      entry.1 < fragment.count ∧ entry.2 ≤ input.size →
      expand fragment input (settled.insert entry) entry = .queued next →
      motive (settled.insert entry) (next ++ pending) → motive settled (entry :: pending))
    (settled : HashSet Entry) (pending : List Entry) : motive settled pending := by
  refine explore.induct fragment input (fun settled _ pending => motive settled pending) ?_ ?_ ?_ ?_
    ?_ settled [] pending
  · exact fun settled _ => done settled
  · exact fun settled _ entry pending mem ih => old settled entry pending mem ih
  · exact fun settled _ entry pending new inside found => accepted settled entry pending new inside
      found
  · exact fun settled _ entry pending new inside next found ih =>
      queued settled entry pending next new inside found ih
  · exact fun settled _ entry pending new out ih => outside settled entry pending new out ih

variable {fragment : Fragment} {input : Array Symbol} {settled : HashSet Entry} {entry : Entry}
  {log pending next : List Entry}

/-! ## The log -/

theorem explore_of_settled (old : entry ∈ settled) :
    explore fragment input settled log (entry :: pending) =
      explore fragment input settled log pending := by
  rw [explore, if_pos old]

theorem explore_of_outside (new : entry ∉ settled)
    (outside : ¬ (entry.1 < fragment.count ∧ entry.2 ≤ input.size)) :
    explore fragment input settled log (entry :: pending) =
      explore fragment input settled log pending := by
  rw [explore, if_neg new, dif_neg outside]

theorem explore_of_accepted (new : entry ∉ settled)
    (inside : entry.1 < fragment.count ∧ entry.2 ≤ input.size)
    (expanded : expand fragment input (settled.insert entry) entry = .accepted) :
    explore fragment input settled log (entry :: pending) =
      ⟨⟨true, (settled.insert entry).size⟩, entry :: log⟩ := by
  rw [explore, if_neg new, dif_pos inside]
  simp only [expanded]

theorem explore_of_queued (new : entry ∉ settled)
    (inside : entry.1 < fragment.count ∧ entry.2 ≤ input.size)
    (expanded : expand fragment input (settled.insert entry) entry = .queued next) :
    explore fragment input settled log (entry :: pending) =
      explore fragment input (settled.insert entry) (entry :: log) (next ++ pending) := by
  rw [explore, if_neg new, dif_pos inside]
  simp only [expanded]

/-- A search looks at no entry of its log: the report does not depend on it, and the trail is put in
front of it. -/
theorem explore_eq (log : List Entry) : explore fragment input settled log pending =
    ⟨run fragment input settled pending, (trail fragment input settled pending).reverse ++ log⟩ := by
  have split (log : List Entry) : explore fragment input settled log pending =
      ⟨(explore fragment input settled [] pending).report,
        (explore fragment input settled [] pending).log ++ log⟩ := by
    induction settled, pending using run_induct fragment input generalizing log with
    | done settled => rw [explore, explore, List.nil_append]
    | old settled entry pending mem ih => rw [explore_of_settled mem, explore_of_settled mem, ih]
    | outside settled entry pending new out ih =>
      rw [explore_of_outside new out, explore_of_outside new out, ih]
    | accepted settled entry pending new inside expanded =>
      rw [explore_of_accepted new inside expanded, explore_of_accepted new inside expanded]
      rfl
    | queued settled entry pending next new inside expanded ih =>
      rw [explore_of_queued new inside expanded, explore_of_queued new inside expanded,
        ih (entry :: log), ih [entry], List.append_assoc, List.singleton_append]
  rw [split, run, trail, List.reverse_reverse]

/-! ## The report and the trail -/

theorem run_nil : run fragment input settled [] = ⟨false, settled.size⟩ := by
  rw [run, explore]

theorem run_of_settled (old : entry ∈ settled) :
    run fragment input settled (entry :: pending) = run fragment input settled pending := by
  rw [run, explore_of_settled old, run]

theorem run_of_outside (new : entry ∉ settled)
    (outside : ¬ (entry.1 < fragment.count ∧ entry.2 ≤ input.size)) :
    run fragment input settled (entry :: pending) = run fragment input settled pending := by
  rw [run, explore_of_outside new outside, run]

theorem run_of_accepted (new : entry ∉ settled)
    (inside : entry.1 < fragment.count ∧ entry.2 ≤ input.size)
    (expanded : expand fragment input (settled.insert entry) entry = .accepted) :
    run fragment input settled (entry :: pending) = ⟨true, (settled.insert entry).size⟩ := by
  rw [run, explore_of_accepted new inside expanded]

theorem run_of_queued (new : entry ∉ settled)
    (inside : entry.1 < fragment.count ∧ entry.2 ≤ input.size)
    (expanded : expand fragment input (settled.insert entry) entry = .queued next) :
    run fragment input settled (entry :: pending) =
      run fragment input (settled.insert entry) (next ++ pending) := by
  rw [run, explore_of_queued new inside expanded, explore_eq]

theorem trail_nil : trail fragment input settled [] = [] := by
  rw [trail, explore, List.reverse_nil]

theorem trail_of_settled (old : entry ∈ settled) :
    trail fragment input settled (entry :: pending) = trail fragment input settled pending := by
  rw [trail, explore_of_settled old, trail]

theorem trail_of_outside (new : entry ∉ settled)
    (outside : ¬ (entry.1 < fragment.count ∧ entry.2 ≤ input.size)) :
    trail fragment input settled (entry :: pending) = trail fragment input settled pending := by
  rw [trail, explore_of_outside new outside, trail]

theorem trail_of_accepted (new : entry ∉ settled)
    (inside : entry.1 < fragment.count ∧ entry.2 ≤ input.size)
    (expanded : expand fragment input (settled.insert entry) entry = .accepted) :
    trail fragment input settled (entry :: pending) = [entry] := by
  rw [trail, explore_of_accepted new inside expanded, List.reverse_singleton]

theorem trail_of_queued (new : entry ∉ settled)
    (inside : entry.1 < fragment.count ∧ entry.2 ≤ input.size)
    (expanded : expand fragment input (settled.insert entry) entry = .queued next) :
    trail fragment input settled (entry :: pending) =
      entry :: trail fragment input (settled.insert entry) (next ++ pending) := by
  rw [trail, explore_of_queued new inside expanded, explore_eq, List.reverse_append,
    List.reverse_singleton, List.reverse_reverse, List.singleton_append]

theorem explored_run (fragment : Fragment) (input : Array Symbol) (settled : HashSet Entry)
    (pending : List Entry) : (run fragment input settled pending).explored =
      settled.size + (trail fragment input settled pending).length := by
  induction settled, pending using run_induct fragment input with
  | done settled =>
    rw [run_nil, trail_nil]
    rfl
  | old settled entry pending old ih => rw [run_of_settled old, ih, trail_of_settled old]
  | outside settled entry pending new outside ih =>
    rw [run_of_outside new outside, ih, trail_of_outside new outside]
  | accepted settled entry pending new inside expanded =>
    rw [run_of_accepted new inside expanded, trail_of_accepted new inside expanded,
      List.length_singleton]
    simp only [HashSet.size_insert, if_neg new]
  | queued settled entry pending next new inside expanded ih =>
    rw [run_of_queued new inside expanded, ih, trail_of_queued new inside expanded,
      List.length_cons, HashSet.size_insert, if_neg new]
    omega

end Search

end FragmentAlgebra
