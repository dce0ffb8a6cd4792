import Mathlib
import FragmentAlgebra.Proofs.Acceptance
import FragmentAlgebra.Proofs.Loops
import FragmentAlgebra.Search.Reached

/-! # What a search expands

The trail of a search repeats no entry and holds reached entries only. When the search refuses its
input, the settled entries are in the end a `Frontier` of nothing, so they hold every reached entry,
and the count of a search is the number of these (`explored_eq_ncard`). When it accepts, an entry
was expanded at every offset of the input, since an entry is only queued from the offset before.

What is reached depends on the edges as a relation; the order in which they are listed decides how
soon an accepting search ends, and nothing about one that refuses (`SameGraph.search_eq`).
-/

namespace FragmentAlgebra

open Std (HashSet)

namespace Search

variable {f g : Fragment} {input : Array Symbol} {settled : HashSet Entry} {pending : List Entry}
  {e next : Entry}

/-! ## Reached entries -/

theorem Reached.of_leads (before : Reached f input e) (leads : Leads f input e next) :
    Reached f input next := by
  obtain ⟨offset, symbol, q, look, stretch, edge⟩ := leads
  have reached := Reached.step before look stretch (mem_targets.2 edge)
  rw [← offset] at reached
  exact reached

/-- Whatever holds the first entry and, with an entry, every entry it leads to, holds all that are
reached. -/
theorem Reached.induct {S : Entry → Prop} (start : S (f.entry, 0))
    (closed : ∀ e next, Reached f input e → S e → Leads f input e next → S next)
    (reached : Reached f input e) : S e := by
  induction reached with
  | start => exact start
  | @step q middle next offset symbol before look stretch edge ih =>
    exact closed (q, offset) _ before ih ⟨rfl, symbol, middle, look, stretch, mem_targets.1 edge⟩

theorem Reached.inside (range : f.InRange) (reached : Reached f input e) : Inside f input e := by
  apply reached.induct (S := Inside f input)
  · exact ⟨range.1, Nat.zero_le _⟩
  · intro e next _ _ leads
    exact leads.inside range

theorem finite_reached (range : f.InRange) (input : Array Symbol) :
    {e | Reached f input e}.Finite := by
  apply (entries f input).finite_toSet.subset
  intro e reached
  exact mem_entries.2 (reached.inside range)

/-! ## Every entry is expanded once -/

theorem not_settled_of_mem_trail (mem : e ∈ trail f input settled pending) : e ∉ settled := by
  induction settled, pending using run_induct f input with
  | done settled => simp [trail_nil] at mem
  | old settled top pending old ih => exact ih (trail_of_settled old ▸ mem)
  | outside settled top pending new outside ih => exact ih (trail_of_outside new outside ▸ mem)
  | accepted settled top pending new inside expanded =>
    rw [trail_of_accepted new inside expanded] at mem
    obtain rfl := List.mem_singleton.1 mem
    exact new
  | queued settled top pending queue new inside expanded ih =>
    rw [trail_of_queued new inside expanded] at mem
    rcases List.mem_cons.1 mem with rfl | mem
    · exact new
    · exact fun old => ih mem (HashSet.mem_insert.2 (.inr old))

theorem nodup_trail (f : Fragment) (input : Array Symbol) (settled : HashSet Entry)
    (pending : List Entry) : (trail f input settled pending).Nodup := by
  induction settled, pending using run_induct f input with
  | done settled =>
    rw [trail_nil]
    exact List.nodup_nil
  | old settled top pending old ih => rwa [trail_of_settled old]
  | outside settled top pending new outside ih => rwa [trail_of_outside new outside]
  | accepted settled top pending new inside expanded =>
    rw [trail_of_accepted new inside expanded]
    exact List.nodup_singleton top
  | queued settled top pending queue new inside expanded ih =>
    rw [trail_of_queued new inside expanded]
    refine List.nodup_cons.2 ⟨fun mem => ?_, ih⟩
    exact not_settled_of_mem_trail mem HashSet.mem_insert_self

theorem reached_of_mem_trail (all : ∀ e ∈ pending, Reached f input e)
    (mem : e ∈ trail f input settled pending) : Reached f input e := by
  induction settled, pending using run_induct f input with
  | done settled => simp [trail_nil] at mem
  | old settled top pending old ih =>
    exact ih (List.forall_mem_cons.1 all).2 (trail_of_settled old ▸ mem)
  | outside settled top pending new outside ih =>
    exact ih (List.forall_mem_cons.1 all).2 (trail_of_outside new outside ▸ mem)
  | accepted settled top pending new inside expanded =>
    rw [trail_of_accepted new inside expanded] at mem
    obtain rfl := List.mem_singleton.1 mem
    exact all e List.mem_cons_self
  | queued settled top pending queue new inside expanded ih =>
    rw [trail_of_queued new inside expanded] at mem
    obtain ⟨reached, rest⟩ := List.forall_mem_cons.1 all
    rcases List.mem_cons.1 mem with rfl | mem
    · exact reached
    · refine ih (List.forall_mem_append.2 ⟨fun e he => ?_, rest⟩) mem
      exact reached.of_leads ((mem_of_expand_eq_queued expanded e).1 he).1

/-! ## A search that refuses -/

/-- A search that refuses its input comes to an end with nothing pending. -/
theorem exists_final (refused : (run f input settled pending).accepted = false)
    (frontier : Frontier (Leads f input) (Inside f input) settled pending) :
    ∃ final : HashSet Entry, Frontier (Leads f input) (Inside f input) final [] ∧
      (∀ e, e ∈ final ↔ e ∈ settled ∨ e ∈ trail f input settled pending) ∧
        ∀ e ∈ pending, Inside f input e → e ∈ final := by
  induction settled, pending using run_induct f input with
  | done settled => exact ⟨settled, frontier, by simp [trail_nil], by simp⟩
  | old settled top pending old ih =>
    rw [run_of_settled old] at refused
    obtain ⟨final, closed, mem_final, covers⟩ := ih refused (frontier.drop (.inl old))
    refine ⟨final, closed, ?_, List.forall_mem_cons.2 ⟨fun _ => ?_, covers⟩⟩
    · rw [trail_of_settled old]
      exact mem_final
    · exact (mem_final top).2 (.inl old)
  | outside settled top pending new outside ih =>
    rw [run_of_outside new outside] at refused
    obtain ⟨final, closed, mem_final, covers⟩ := ih refused (frontier.drop (.inr outside))
    refine ⟨final, closed, ?_, List.forall_mem_cons.2 ⟨fun inside => ?_, covers⟩⟩
    · rw [trail_of_outside new outside]
      exact mem_final
    · exact absurd inside outside
  | accepted settled top pending new inside expanded =>
    rw [run_of_accepted new inside expanded] at refused
    cases refused
  | queued settled top pending queue new inside expanded ih =>
    rw [run_of_queued new inside expanded] at refused
    obtain ⟨final, closed, mem_final, covers⟩ := ih refused (frontier_of_queued frontier expanded)
    have same : ∀ e, e ∈ final ↔ e ∈ settled ∨ e ∈ trail f input settled (top :: pending) := by
      intro e
      rw [mem_final, trail_of_queued new inside expanded]
      simp only [HashSet.mem_insert, List.mem_cons, beq_iff_eq]
      tauto
    refine ⟨final, closed, same, List.forall_mem_cons.2 ⟨fun _ => ?_, fun e he => ?_⟩⟩
    · exact (mem_final top).2 (.inl HashSet.mem_insert_self)
    · exact covers e (List.mem_append_right _ he)

/-! ## A search that accepts -/

/-- As long as every pending entry has settled ones at all offsets before its own, the accepting
entry has them as well. -/
theorem exists_offset_of_accepted (accepted : (run f input settled pending).accepted = true)
    (climbs : ∀ e ∈ pending, ∀ i < e.2, ∃ below ∈ settled, below.2 = i) {i : Nat}
    (le : i ≤ input.size) : ∃ e, (e ∈ settled ∨ e ∈ trail f input settled pending) ∧ e.2 = i := by
  induction settled, pending using run_induct f input with
  | done settled =>
    rw [run_nil] at accepted
    cases accepted
  | old settled top pending old ih =>
    rw [run_of_settled old] at accepted
    rw [trail_of_settled old]
    exact ih accepted (List.forall_mem_cons.1 climbs).2
  | outside settled top pending new outside ih =>
    rw [run_of_outside new outside] at accepted
    rw [trail_of_outside new outside]
    exact ih accepted (List.forall_mem_cons.1 climbs).2
  | accepted settled top pending new inside expanded =>
    have used_up := Array.getElem?_eq_none_iff.1 (expand_eq_accepted.1 expanded).1
    rcases Nat.lt_or_eq_of_le (le.trans used_up) with lt | rfl
    · obtain ⟨below, mem, offset⟩ := climbs top List.mem_cons_self i lt
      exact ⟨below, .inl mem, offset⟩
    · refine ⟨top, .inr ?_, rfl⟩
      rw [trail_of_accepted new inside expanded]
      exact List.mem_singleton_self top
  | queued settled top pending queue new inside expanded ih =>
    rw [run_of_queued new inside expanded] at accepted
    obtain ⟨here, rest⟩ := List.forall_mem_cons.1 climbs
    have old (below : Entry) (mem : below ∈ settled) : below ∈ settled.insert top :=
      HashSet.mem_insert.2 (.inr mem)
    have climbs' : ∀ e ∈ queue ++ pending, ∀ j < e.2, ∃ below ∈ settled.insert top, below.2 = j := by
      intro e he j lt
      rcases List.mem_append.1 he with he | he
      · have offset := ((mem_of_expand_eq_queued expanded e).1 he).1.1
        rcases Nat.lt_or_eq_of_le (Nat.le_of_lt_succ (offset ▸ lt)) with lt | rfl
        · obtain ⟨below, mem, offset⟩ := here j lt
          exact ⟨below, old below mem, offset⟩
        · exact ⟨top, HashSet.mem_insert_self, rfl⟩
      · obtain ⟨below, mem, offset⟩ := rest e he j lt
        exact ⟨below, old below mem, offset⟩
    obtain ⟨e, mem, offset⟩ := ih accepted climbs'
    refine ⟨e, ?_, offset⟩
    rw [trail_of_queued new inside expanded]
    simp only [HashSet.mem_insert, List.mem_cons, beq_iff_eq] at mem ⊢
    tauto

end Search

namespace Fragment

variable {f g : Fragment} {word : List Symbol} {p q : StateId} {e : Search.Entry}

/-! ## The count of a search -/

/-- The entries that can come up in a search of `word`. -/
def reached (f : Fragment) (word : List Symbol) : Set Search.Entry :=
  {e | Search.Reached f word.toArray e}

theorem explored_search (f : Fragment) (word : List Symbol) :
    (f.search word).explored = (f.expanded word).length := by
  rw [search, Search.explored_run, HashSet.size_empty, Nat.zero_add]
  rfl

theorem nodup_expanded (f : Fragment) (word : List Symbol) : (f.expanded word).Nodup :=
  Search.nodup_trail f word.toArray ∅ _

theorem reached_of_mem_expanded (mem : e ∈ f.expanded word) : e ∈ f.reached word := by
  apply Search.reached_of_mem_trail _ mem
  intro e first
  obtain rfl := List.mem_singleton.1 first
  exact .start

theorem mem_expanded_of_refused (range : f.InRange) (refused : f.accepts word = false)
    (mem : e ∈ f.reached word) : e ∈ f.expanded word := by
  obtain ⟨final, closed, mem_final, covers⟩ := Search.exists_final refused (Frontier.empty _)
  have settled : e ∈ final := by
    apply Search.Reached.induct (S := (· ∈ final)) _ _ mem
    · exact covers _ List.mem_cons_self ⟨range.1, Nat.zero_le _⟩
    · intro e next _ old leads
      simpa using closed e old next leads (leads.inside range)
  exact ((mem_final e).1 settled).resolve_left HashSet.not_mem_empty

theorem explored_le_ncard (range : f.InRange) (word : List Symbol) :
    (f.search word).explored ≤ (f.reached word).ncard := by
  rw [explored_search, ← List.toFinset_card_of_nodup (nodup_expanded f word),
    ← Set.ncard_coe_finset]
  apply Set.ncard_le_ncard _ (Search.finite_reached range _)
  intro e mem
  exact reached_of_mem_expanded (by simpa using mem)

theorem explored_eq_ncard (range : f.InRange) (refused : f.accepts word = false) :
    (f.search word).explored = (f.reached word).ncard := by
  rw [explored_search, ← List.toFinset_card_of_nodup (nodup_expanded f word),
    ← Set.ncard_coe_finset]
  apply congrArg
  ext e
  rw [List.coe_toFinset]
  exact ⟨reached_of_mem_expanded, mem_expanded_of_refused range refused⟩

theorem length_lt_explored (accepted : f.accepts word = true) :
    word.length < (f.search word).explored := by
  have offsets : List.range (word.length + 1) ⊆ (f.expanded word).map (·.2) := by
    intro i mem
    have le : i ≤ word.toArray.size := by
      simp at mem ⊢
      omega
    obtain ⟨e, expanded, offset⟩ :=
      Search.exists_offset_of_accepted accepted (by simp) le
    exact List.mem_map.2 ⟨e, expanded.resolve_left HashSet.not_mem_empty, offset⟩
  have le := (List.nodup_range.subperm offsets).length_le
  rw [explored_search]
  simpa using le

/-! ## The order of edges -/

/-- The same states and the same edges, whatever the order and the multiplicity in which the edges
are listed. -/
structure SameGraph (f g : Fragment) : Prop where
  count : g.count = f.count
  entry : g.entry = f.entry
  edge_iff : ∀ q label r, g.Edge q label r ↔ f.Edge q label r
  isFinal_iff : ∀ q, g.IsFinal q ↔ f.IsFinal q

namespace SameGraph

theorem symm (h : SameGraph f g) : SameGraph g f where
  count := h.count.symm
  entry := h.entry.symm
  edge_iff q label r := (h.edge_iff q label r).symm
  isFinal_iff q := (h.isFinal_iff q).symm

theorem inRange (h : SameGraph f g) (range : f.InRange) : g.InRange := by
  rw [inRange_iff, h.count, h.entry]
  simp only [h.edge_iff]
  exact inRange_iff.1 range

theorem path (h : SameGraph f g) (path : f.Path p word q) : g.Path p word q :=
  path.map id fun q label r edge => (h.edge_iff q label r).2 edge

theorem accepts (h : SameGraph f g) (accepted : f.accepts word = true) :
    g.accepts word = true := by
  obtain ⟨q, path, final⟩ := mem_language_iff_accepts.1 (mem_language.2 accepted)
  have path' : g.Path g.entry word q := h.entry ▸ h.path path
  exact mem_language_iff_accepts.2 ⟨q, path', (h.isFinal_iff q).2 final⟩

theorem reached_subset (h : SameGraph f g) (word : List Symbol) :
    f.reached word ⊆ g.reached word := by
  intro e reached
  apply Search.Reached.induct (S := (· ∈ g.reached word)) _ _ reached
  · rw [← h.entry]
    exact .start
  · rintro e next _ before ⟨offset, symbol, q, look, stretch, edge⟩
    have edge' := (h.edge_iff q (some symbol) next.1).2 edge
    exact Search.Reached.of_leads before ⟨offset, symbol, q, look, h.path stretch, edge'⟩

/-- Where one of two listings of a graph is refused, both searches give the same report. -/
theorem search_eq (h : SameGraph f g) (range : f.InRange) (refused : f.accepts word = false) :
    g.search word = f.search word := by
  have refused' : g.accepts word = false := by
    by_contra accepted
    rw [h.symm.accepts (by simpa using accepted)] at refused
    cases refused
  have same : g.reached word = f.reached word :=
    (h.symm.reached_subset word).antisymm (h.reached_subset word)
  have explored : (g.search word).explored = (f.search word).explored := by
    rw [explored_eq_ncard (h.inRange range) refused', explored_eq_ncard range refused, same]
  have answer : (g.search word).accepted = (f.search word).accepted :=
    refused'.trans refused.symm
  calc g.search word
      = ⟨(g.search word).accepted, (g.search word).explored⟩ := rfl
    _ = ⟨(f.search word).accepted, (f.search word).explored⟩ := by rw [answer, explored]
    _ = f.search word := rfl

end SameGraph

/-! ## Every search -/

/-- A search expands no entry twice and reached entries only, and its count is the number of entries
that it expands. A search that refuses its input expands all that are reached, in whatever order the
edges are listed; one that accepts has expanded an entry at every offset. -/
theorem search_expands_reached_once (range : f.InRange) (word : List Symbol) :
    (f.expanded word).Nodup ∧ (∀ e ∈ f.expanded word, e ∈ f.reached word) ∧
    (f.search word).explored = (f.expanded word).length ∧ (f.reached word).Finite ∧
    (f.accepts word = false → (f.search word).explored = (f.reached word).ncard ∧
      ∀ g, SameGraph f g → g.search word = f.search word) ∧
    (f.accepts word = true → word.length + 1 ≤ (f.search word).explored ∧
      (f.search word).explored ≤ (f.reached word).ncard) ∧
    (f.search word).explored ≤ f.count * (word.length + 1) := by
  refine ⟨nodup_expanded f word, fun e => reached_of_mem_expanded, explored_search f word,
    Search.finite_reached range _, fun refused => ?_, fun accepted => ?_, ?_⟩
  · exact ⟨explored_eq_ncard range refused, fun g same => same.search_eq range refused⟩
  · exact ⟨length_lt_explored accepted, explored_le_ncard range word⟩
  · have bound : (f.search word).explored ≤ (Search.entries f word.toArray).length :=
      Search.explored_le (by simp)
    simpa [Search.length_entries] using bound

/-- A loop reads one symbol and refuses the next: two entries are reached, although its epsilon
edges form a cycle. It accepts the symbol read twice, having expanded an entry at each offset. -/
theorem search_of_looped_literal :
    let f := (literal 97).loop
    f.InRange ∧ (f.search [97, 98]).explored = 2 ∧ 3 ≤ (f.search [97, 97]).explored := by
  intro f
  have range : f.InRange := by decide
  have edge {q : Nat} {c : Symbol} {r : Nat} (step : f.Edge q (some c) r) : c = 97 ∧ r = 1 := by
    rcases (edge_loop (wellFormed_literal 97)).1 step with inner | ⟨none_read, _⟩
    · obtain ⟨_, read, same⟩ := ((singleEdge_literal 97).edge_iff _ _ _).1 inner
      exact ⟨Option.some.inj read, same⟩
    · cases none_read
  have refused : f.accepts [97, 98] = false := by
    by_contra accepted
    obtain ⟨q, path, _⟩ :=
      mem_language_iff_accepts.1 (mem_language.2 (by simpa using accepted))
    obtain ⟨_, _, _, _, rest⟩ := path.uncons
    obtain ⟨_, _, _, last, _⟩ := rest.uncons
    exact absurd (edge last).1 (by decide)
  have reached : f.reached [97, 98] = {(0, 0), (1, 1)} := by
    ext e
    constructor
    · intro reached
      apply Search.Reached.induct (S := (· ∈ _)) _ _ reached
      · exact .inl rfl
      · rintro _ next _ (rfl | rfl) ⟨offset, c, q, look, _, step⟩
        · exact .inr (Prod.ext (edge step).2 offset)
        · obtain rfl := Option.some.inj look
          exact absurd (edge step).1 (by decide)
    · have origin : Search.Reached f #[97, 98] (0, 0) := .start
      rintro (rfl | rfl)
      · exact origin
      · exact origin.step rfl (.stay 0) (List.mem_singleton.2 rfl)
  have twice : f.accepts [97, 97] = true := by
    have piece : [97] ∈ (literal 97).language := mem_language_literal.2 rfl
    exact kstar_language_le_loop (wellFormed_literal 97)
      (append_mem_kstar piece (mem_kstar_of_mem piece))
  obtain ⟨-, -, -, -, refuses, -, -⟩ := search_expands_reached_once range [97, 98]
  obtain ⟨-, -, -, -, -, accepts, -⟩ := search_expands_reached_once range [97, 97]
  refine ⟨range, ?_, (accepts twice).1⟩
  rw [(refuses refused).1, reached]
  exact Set.ncard_pair (by decide)

end Fragment

end FragmentAlgebra
