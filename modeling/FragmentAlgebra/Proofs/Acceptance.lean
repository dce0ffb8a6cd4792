import Mathlib
import FragmentAlgebra.Proofs.Closure
import FragmentAlgebra.Search.Trail

/-! # The search decides acceptance

An entry succeeds if the rest of the input leads from its state to a final state. The search finds
such an entry exactly if there is one:

* `exists_succeeds_of_run`: an accepting search had a succeeding entry on its stack;
* `run_accepted`: with a succeeding entry among the settled or the pending ones, the search
  accepts. The settled entries are a `Frontier` of the pending ones and none of them ends the
  search, so a settled entry can only succeed through a pending one.

`Fragment.language` is the set of words that the search accepts, and `mem_language_iff_accepts`
says that it is the set of labels of accepting paths.
-/

namespace FragmentAlgebra

open Std (HashSet)

namespace Search

variable {f : Fragment} {input : Array Symbol}

/-! ## Entries and their successors -/

/-- The rest of the input leads from the state of the entry to a final state. -/
def Succeeds (f : Fragment) (input : Array Symbol) (entry : Entry) : Prop :=
  entry.2 ≤ input.size ∧ ∃ r, f.Path entry.1 (input.toList.drop entry.2) r ∧ f.IsFinal r

/-- The input is used up and a final state lies in the closure of the entry. -/
def Ends (f : Fragment) (input : Array Symbol) (entry : Entry) : Prop :=
  input[entry.2]? = none ∧ ∃ r, f.EpsilonReaches entry.1 r ∧ f.IsFinal r

/-- One symbol of the input leads from the closure of one entry to the other. -/
def Leads (f : Fragment) (input : Array Symbol) (entry next : Entry) : Prop :=
  next.2 = entry.2 + 1 ∧ ∃ symbol q, input[entry.2]? = some symbol ∧
    f.EpsilonReaches entry.1 q ∧ f.Edge q (some symbol) next.1

/-- A state of the arena, at an offset within the input. -/
def Inside (f : Fragment) (input : Array Symbol) (entry : Entry) : Prop :=
  entry.1 < f.count ∧ entry.2 ≤ input.size

theorem drop_eq_cons {offset : Nat} {symbol : Symbol} (look : input[offset]? = some symbol) :
    input.toList.drop offset = symbol :: input.toList.drop (offset + 1) := by
  rw [← Array.getElem?_toList] at look
  obtain ⟨lt, rfl⟩ := List.getElem?_eq_some_iff.1 look
  exact List.drop_eq_getElem_cons lt

theorem drop_eq_nil {offset : Nat} (look : input[offset]? = none) :
    input.toList.drop offset = [] := by
  have le := Array.getElem?_eq_none_iff.1 look
  exact List.drop_eq_nil_of_le (by simpa using le)

theorem Succeeds.inside {entry : Entry} (h : Succeeds f input entry) : Inside f input entry := by
  obtain ⟨le, r, path, final⟩ := h
  exact ⟨path.start_lt_count final.lt_count, le⟩

theorem Ends.succeeds {entry : Entry} (h : Ends f input entry) (le : entry.2 ≤ input.size) :
    Succeeds f input entry := by
  obtain ⟨used_up, r, path, final⟩ := h
  refine ⟨le, r, ?_, final⟩
  rw [drop_eq_nil used_up]
  exact path

/-- A search does not leave the arena, nor the input. -/
theorem Leads.inside {entry next : Entry} (range : f.InRange) (leads : Leads f input entry next) :
    Inside f input next := by
  obtain ⟨offset, symbol, q, look, _, edge⟩ := leads
  have lt := (Array.getElem?_eq_some_iff.1 look).1
  exact ⟨(Fragment.inRange_iff.1 range).2 _ _ _ edge, by omega⟩

theorem Leads.succeeds {entry next : Entry} (h : Leads f input entry next)
    (succeeds : Succeeds f input next) : Succeeds f input entry := by
  obtain ⟨offset, symbol, q, look, stretch, edge⟩ := h
  obtain ⟨le, r, path, final⟩ := succeeds
  refine ⟨by omega, r, ?_, final⟩
  rw [drop_eq_cons look]
  rw [offset] at path
  exact stretch.trans (.cons edge path)

theorem Succeeds.ends_or_leads {entry : Entry} (h : Succeeds f input entry) :
    Ends f input entry ∨ ∃ next, Leads f input entry next ∧ Succeeds f input next := by
  obtain ⟨le, r, path, final⟩ := h
  cases look : input[entry.2]? with
  | none =>
    rw [drop_eq_nil look] at path
    exact .inl ⟨look, r, path, final⟩
  | some symbol =>
    rw [drop_eq_cons look] at path
    obtain ⟨q, next, stretch, edge, rest⟩ := path.uncons
    have lt := (Array.getElem?_eq_some_iff.1 look).1
    exact .inr ⟨(next, entry.2 + 1), ⟨rfl, symbol, q, look, stretch, edge⟩,
      Nat.succ_le_of_lt lt, r, rest, final⟩

/-! ## One expansion -/

theorem mem_targets {q r : StateId} {symbol : Symbol} :
    r ∈ f.targets q symbol ↔ f.Edge q (some symbol) r := by
  unfold Fragment.targets Fragment.Edge
  cases f.state? q with
  | none => simp
  | some state => simp [State.successors]

theorem any_isFinal_closure {q : StateId} :
    (f.closure q).any f.isFinal = true ↔ ∃ r, f.EpsilonReaches q r ∧ f.IsFinal r := by
  simp only [List.any_eq_true, Fragment.mem_closure, Fragment.isFinal,
    ← Fragment.isFinal_iff_state?_any]
  constructor
  · rintro ⟨r, ⟨_, path⟩, final⟩
    exact ⟨r, path, final⟩
  · rintro ⟨r, path, final⟩
    exact ⟨r, ⟨final.lt_count, path⟩, final⟩

theorem expand_of_end {settled : HashSet Entry} {entry : Entry} (look : input[entry.2]? = none) :
    expand f input settled entry =
      if (f.closure entry.1).any f.isFinal then .accepted else .queued [] := by
  simp only [expand, look]

theorem expand_of_symbol {settled : HashSet Entry} {entry : Entry} {symbol : Symbol}
    (look : input[entry.2]? = some symbol) :
    expand f input settled entry = .queued ((f.closure entry.1).flatMap fun q =>
      ((f.targets q symbol).map (fun next => (next, entry.2 + 1))).filter (· ∉ settled)) := by
  simp only [expand, look]

theorem expand_eq_accepted {settled : HashSet Entry} {entry : Entry} :
    expand f input settled entry = .accepted ↔ Ends f input entry := by
  unfold expand Ends
  rw [← any_isFinal_closure]
  cases input[entry.2]? with
  | none => simp
  | some symbol => simp

theorem mem_of_expand_eq_queued {settled : HashSet Entry} {entry : Entry} {next : List Entry}
    (h : expand f input settled entry = .queued next) (e : Entry) :
    e ∈ next ↔ Leads f input entry e ∧ e ∉ settled := by
  unfold expand at h
  cases look : input[entry.2]? with
  | none =>
    simp only [look] at h
    split at h
    · cases h
    · obtain rfl := Expansion.queued.inj h
      simp [Leads, look]
  | some symbol =>
    simp only [look] at h
    obtain rfl := Expansion.queued.inj h
    simp only [List.mem_flatMap, List.mem_filter, List.mem_map, Fragment.mem_closure, mem_targets,
      Leads, look, Option.some.injEq, decide_eq_true_eq]
    constructor
    · rintro ⟨q, ⟨_, stretch⟩, ⟨r, edge, rfl⟩, new⟩
      exact ⟨⟨rfl, symbol, q, rfl, stretch, edge⟩, new⟩
    · rintro ⟨⟨offset, _, q, rfl, stretch, edge⟩, new⟩
      exact ⟨q, ⟨edge.lt_count, stretch⟩, ⟨e.1, edge, Prod.ext rfl offset.symm⟩, new⟩

/-! ## The whole search -/

theorem exists_succeeds_of_run {settled : HashSet Entry} {pending : List Entry}
    (accepted : (run f input settled pending).accepted = true) :
    ∃ entry ∈ pending, Succeeds f input entry := by
  induction settled, pending using run_induct f input with
  | done settled =>
    rw [run_nil] at accepted
    cases accepted
  | old settled entry pending old ih =>
    rw [run_of_settled old] at accepted
    obtain ⟨e, he, succeeds⟩ := ih accepted
    exact ⟨e, List.mem_cons_of_mem _ he, succeeds⟩
  | outside settled entry pending new outside ih =>
    rw [run_of_outside new outside] at accepted
    obtain ⟨e, he, succeeds⟩ := ih accepted
    exact ⟨e, List.mem_cons_of_mem _ he, succeeds⟩
  | accepted settled entry pending new inside expanded =>
    have ends := expand_eq_accepted.1 expanded
    exact ⟨entry, List.mem_cons_self, ends.succeeds inside.2⟩
  | queued settled entry pending next new inside expanded ih =>
    rw [run_of_queued new inside expanded] at accepted
    obtain ⟨e, he, succeeds⟩ := ih accepted
    rcases List.mem_append.1 he with he | he
    · have leads := ((mem_of_expand_eq_queued expanded e).1 he).1
      exact ⟨entry, List.mem_cons_self, leads.succeeds succeeds⟩
    · exact ⟨e, List.mem_cons_of_mem _ he, succeeds⟩

/-- The leads of a settled entry are settled, and every lead reads a symbol. So the induction is on
what is left of the input. -/
theorem not_succeeds_of_frontier {settled : HashSet Entry}
    (frontier : Frontier (Leads f input) (Inside f input) settled [])
    (barren : ∀ e ∈ settled, ¬ Ends f input e) {entry : Entry} (mem : entry ∈ settled) :
    ¬ Succeeds f input entry := by
  intro succeeds
  induction left : input.size - entry.2 using Nat.strong_induction_on generalizing entry with
  | h n ih =>
    rcases succeeds.ends_or_leads with ends | ⟨next, leads, succeeds'⟩
    · exact barren entry mem ends
    · have settled_next : next ∈ settled := by
        simpa using frontier entry mem next leads succeeds'.inside
      have offset := leads.1
      have bound := succeeds'.1
      exact ih (input.size - next.2) (by omega) settled_next succeeds' rfl

/-- The frontier of a search after an expansion: what the entry leads to is settled or queued. -/
theorem frontier_of_queued {settled : HashSet Entry} {entry : Entry} {pending next : List Entry}
    (frontier : Frontier (Leads f input) (Inside f input) settled (entry :: pending))
    (expanded : expand f input (settled.insert entry) entry = .queued next) :
    Frontier (Leads f input) (Inside f input) (settled.insert entry) (next ++ pending) := by
  refine frontier.expand fun e leads _ => ?_
  by_cases old : e ∈ settled.insert entry
  · exact .inl old
  · exact .inr ((mem_of_expand_eq_queued expanded e).2 ⟨leads, old⟩)

theorem run_accepted {settled : HashSet Entry} {pending : List Entry}
    (frontier : Frontier (Leads f input) (Inside f input) settled pending)
    (barren : ∀ e ∈ settled, ¬ Ends f input e) {entry : Entry}
    (mem : entry ∈ settled ∨ entry ∈ pending) (succeeds : Succeeds f input entry) :
    (run f input settled pending).accepted = true := by
  induction settled, pending using run_induct f input with
  | done settled =>
    have settled_entry : entry ∈ settled := by simpa using mem
    exact absurd succeeds (not_succeeds_of_frontier frontier barren settled_entry)
  | old settled top pending old ih =>
    rw [run_of_settled old]
    refine ih (frontier.drop (.inl old)) barren ?_
    rcases mem with mem | mem
    · exact .inl mem
    · rcases List.mem_cons.1 mem with rfl | mem
      · exact .inl old
      · exact .inr mem
  | outside settled top pending new outside ih =>
    rw [run_of_outside new outside]
    refine ih (frontier.drop (.inr outside)) barren ?_
    rcases mem with mem | mem
    · exact .inl mem
    · rcases List.mem_cons.1 mem with rfl | mem
      · exact absurd succeeds.inside outside
      · exact .inr mem
  | accepted settled top pending new inside expanded => rw [run_of_accepted new inside expanded]
  | queued settled top pending next new inside expanded ih =>
    rw [run_of_queued new inside expanded]
    have top_barren : ¬ Ends f input top := by
      intro ends
      have accepted : expand f input (settled.insert top) top = .accepted :=
        expand_eq_accepted.2 ends
      rw [accepted] at expanded
      cases expanded
    refine ih (frontier_of_queued frontier expanded) (fun e he => ?_) ?_
    · rcases HashSet.mem_insert.1 he with eq | he
      · obtain rfl : top = e := eq_of_beq eq
        exact top_barren
      · exact barren e he
    · rcases mem with mem | mem
      · exact .inl (HashSet.mem_insert.2 (.inr mem))
      · rcases List.mem_cons.1 mem with rfl | mem
        · exact .inl HashSet.mem_insert_self
        · exact .inr (List.mem_append_right _ mem)

/-! ## The cost of a search -/

theorem explored_le {settled : HashSet Entry} {pending : List Entry}
    (inside : ∀ e ∈ settled, e ∈ entries f input) :
    (run f input settled pending).explored ≤ (entries f input).length := by
  have size_le {settled : HashSet Entry} (inside : ∀ e ∈ settled, e ∈ entries f input) :
      settled.size ≤ (entries f input).length := by
    have distinct : settled.toList.Nodup := by
      simpa [List.Nodup] using settled.distinct_toList
    rw [← HashSet.length_toList]
    exact (distinct.subperm fun e he => inside e (HashSet.mem_toList.1 he)).length_le
  have insert_inside {settled : HashSet Entry} {entry : Entry}
      (inside : ∀ e ∈ settled, e ∈ entries f input) (new : entry ∈ entries f input) :
      ∀ e ∈ settled.insert entry, e ∈ entries f input := by
    intro e he
    rcases HashSet.mem_insert.1 he with eq | he
    · exact eq_of_beq eq ▸ new
    · exact inside e he
  induction settled, pending using run_induct f input with
  | done settled =>
    rw [run_nil]
    exact size_le inside
  | old settled entry pending old ih =>
    rw [run_of_settled old]
    exact ih inside
  | outside settled entry pending new outside ih =>
    rw [run_of_outside new outside]
    exact ih inside
  | accepted settled entry pending new bounds expanded =>
    rw [run_of_accepted new bounds expanded]
    exact size_le (insert_inside inside (mem_entries.2 bounds))
  | queued settled entry pending next new bounds expanded ih =>
    rw [run_of_queued new bounds expanded]
    exact ih (insert_inside inside (mem_entries.2 bounds))

theorem length_entries : (entries f input).length = f.count * (input.size + 1) := by
  simp [entries, List.length_flatMap]

end Search

namespace Fragment

/-! ## The language of a fragment -/

variable {f : Fragment} {word : List Symbol}

theorem succeeds_start_iff : Search.Succeeds f word.toArray (f.entry, 0) ↔ f.Accepts word := by
  simp [Search.Succeeds, Accepts]

/-- The words that a fragment accepts. -/
def language (f : Fragment) : Language Symbol := {word | f.accepts word = true}

theorem mem_language : word ∈ f.language ↔ f.accepts word = true := Iff.rfl

theorem mem_language_iff_accepts : word ∈ f.language ↔ f.Accepts word := by
  rw [mem_language, ← succeeds_start_iff]
  constructor
  · intro accepted
    obtain ⟨entry, mem, succeeds⟩ := Search.exists_succeeds_of_run accepted
    obtain rfl := List.mem_singleton.1 mem
    exact succeeds
  · intro succeeds
    exact Search.run_accepted (Frontier.empty _) (by simp) (.inr List.mem_cons_self) succeeds

theorem WellFormed.mem_language_iff_path (h : f.WellFormed) :
    word ∈ f.language ↔ f.Path f.entry word f.exit := by
  rw [mem_language_iff_accepts, h.accepts_iff_path]

/-- On every graph the search ends, having expanded each state at each offset at most once, and it
accepts exactly the words that label a path from the entry to a final state. -/
theorem accepts_iff_exists_path (f : Fragment) (word : List Symbol) :
    (f.accepts word = true ↔ ∃ q, f.Path f.entry word q ∧ f.IsFinal q) ∧
      (f.search word).explored ≤ f.count * (word.length + 1) := by
  constructor
  · exact mem_language_iff_accepts
  · have bound : (f.search word).explored ≤ (Search.entries f word.toArray).length :=
      Search.explored_le (by simp)
    simpa [Search.length_entries] using bound

end Fragment

end FragmentAlgebra
