import FragmentAlgebra.Proofs.Acceptance
import FragmentAlgebra.Proofs.Renumbering

/-! # Searches of renumbered fragments

A search of a renumbered fragment is the same search with other state numbers. Two runs go side by
side: the second has the renamed entries on its stack, and its settled entries mirror those of the
first (`Mirrors`). So every closure is the renamed one (`Renumbers.closure_eq`), every expansion
brings the renamed entries (`expand_renumbered`), and the two runs give one report
(`Renumbers.search_eq`).
-/

namespace FragmentAlgebra

open Std (HashSet)

/-! ## Mirrored sets -/

/-- The second set holds the images of the members of the first, and no other image. -/
structure Mirrors {α : Type} [BEq α] [Hashable α] (φ : α → α) (marked marked' : HashSet α) :
    Prop where
  mem : ∀ a, φ a ∈ marked' ↔ a ∈ marked
  size : marked'.size = marked.size

namespace Mirrors

variable {α : Type} [BEq α] [Hashable α] {φ : α → α} {marked marked' : HashSet α}

theorem empty (φ : α → α) : Mirrors φ ∅ ∅ where
  mem a := by simp
  size := rfl

theorem insert [LawfulBEq α] [LawfulHashable α] (h : Mirrors φ marked marked')
    (injective : φ.Injective) (a : α) : Mirrors φ (marked.insert a) (marked'.insert (φ a)) where
  mem b := by simp [h.mem, injective.eq_iff]
  size := by simp [HashSet.size_insert, h.mem, h.size]

theorem filter_map (h : Mirrors φ marked marked') (l : List α) :
    (l.map φ).filter (· ∉ marked') = (l.filter (· ∉ marked)).map φ := by
  rw [List.filter_map]
  congr 2
  funext a
  simp [h.mem]

end Mirrors

variable {φ : Equiv.Perm StateId} {f g : Fragment}

namespace Fragment

/-! ## Closures -/

section Closure

variable {visited visited' : HashSet StateId} {seen stack : List StateId} {q : StateId}

theorem Renumbers.state?_eq (h : Renumbers φ f g) (q : StateId) :
    g.state? (φ q) = (f.state? q).map (·.rename φ) := h.states q

theorem Renumbers.closureFrom_eq (h : Renumbers φ f g) (marks : Mirrors φ visited visited') :
    g.closureFrom visited' (seen.map φ) (stack.map φ) =
      (f.closureFrom visited seen stack).map φ := by
  fun_induction closureFrom f visited seen stack generalizing visited' with
  | case1 visited seen => rw [List.map_nil, closureFrom]
  | case2 visited seen q stack old ih =>
    rw [List.map_cons, closureFrom_of_visited ((marks.mem q).2 old), ih marks]
  | case3 visited seen q stack new outside ih =>
    have new' : φ q ∉ visited' := mt (marks.mem q).1 new
    have outside' : g.state? (φ q) = none := by rw [h.state?_eq, outside, Option.map_none]
    rw [List.map_cons, closureFrom_of_outside new' outside', ih marks]
  | case4 visited seen q stack new state at_q inserted =>
    rename_i ih
    have new' : φ q ∉ visited' := mt (marks.mem q).1 new
    have at_q' : g.state? (φ q) = some (state.rename φ) := by
      rw [h.state?_eq, at_q, Option.map_some]
    have marks' : Mirrors φ inserted (visited'.insert (φ q)) := marks.insert φ.injective q
    have behind : (state.rename φ).epsilon.filter (· ∉ visited'.insert (φ q)) =
        (state.epsilon.filter (· ∉ inserted)).map φ := marks'.filter_map state.epsilon
    rw [List.map_cons, closureFrom_of_state new' at_q', behind, ← List.map_append,
      ← List.map_cons, ih marks']

theorem Renumbers.closure_eq (h : Renumbers φ f g) (q : StateId) :
    g.closure (φ q) = (f.closure q).map φ := by
  have alone : [φ q] = [q].map φ := rfl
  rw [closure, closure, alone, ← h.closureFrom_eq (.empty φ), List.map_nil]

end Closure

theorem Renumbers.isFinal_eq (h : Renumbers φ f g) (q : StateId) :
    g.isFinal (φ q) = f.isFinal q := by
  rw [isFinal, isFinal, h.state?_eq]
  cases f.state? q <;> rfl

theorem Renumbers.targets_eq (h : Renumbers φ f g) (q : StateId) (symbol : Symbol) :
    g.targets (φ q) symbol = (f.targets q symbol).map φ := by
  rw [targets, targets, h.state?_eq]
  cases f.state? q with
  | none => rfl
  | some state => exact state.successors_rename φ (some symbol)

end Fragment

namespace Search

/-! ## Searches -/

/-- Rename the state of an entry. -/
def Entry.rename (φ : StateId → StateId) (entry : Entry) : Entry := (φ entry.1, entry.2)

def Expansion.rename (φ : StateId → StateId) : Expansion → Expansion
  | .accepted => .accepted
  | .queued next => .queued (next.map (Entry.rename φ))

theorem Entry.rename_injective (φ : Equiv.Perm StateId) : (Entry.rename φ).Injective := by
  rintro ⟨q, offset⟩ ⟨r, offset'⟩ same
  obtain ⟨states, offsets⟩ := Prod.mk.inj same
  exact Prod.ext (φ.injective states) offsets

variable {input : Array Symbol} {settled settled' : HashSet Entry} {pending : List Entry}
  {entry : Entry}

theorem expand_renumbered (h : f.Renumbers φ g) (marks : Mirrors (Entry.rename φ) settled settled')
    (input : Array Symbol) (entry : Entry) :
    expand g input settled' (entry.rename φ) = (expand f input settled entry).rename φ := by
  have closure : g.closure (entry.rename φ).1 = (f.closure entry.1).map φ := h.closure_eq entry.1
  cases look : input[entry.2]? with
  | none =>
    have finals : g.isFinal ∘ φ = f.isFinal := funext h.isFinal_eq
    have look' : input[(entry.rename φ).2]? = none := look
    rw [expand_of_end look, expand_of_end look', closure, List.any_map, finals]
    split <;> rfl
  | some symbol =>
    have branch (q : StateId) :
        ((g.targets (φ q) symbol).map fun next => (next, entry.2 + 1)).filter (· ∉ settled') =
          (((f.targets q symbol).map fun next => (next, entry.2 + 1)).filter (· ∉ settled)).map
            (Entry.rename φ) := by
      rw [← marks.filter_map, h.targets_eq, List.map_map, List.map_map]
      rfl
    have look' : input[(entry.rename φ).2]? = some symbol := look
    rw [expand_of_symbol look, expand_of_symbol look', closure, Expansion.rename,
      List.flatMap_map, List.map_flatMap]
    simp only [Entry.rename, branch]

theorem run_renumbered (h : f.Renumbers φ g) (marks : Mirrors (Entry.rename φ) settled settled') :
    run g input settled' (pending.map (Entry.rename φ)) = run f input settled pending := by
  have inside_iff (entry : Entry) : (entry.rename φ).1 < g.count ∧ (entry.rename φ).2 ≤ input.size ↔
      entry.1 < f.count ∧ entry.2 ≤ input.size := by
    rw [h.count_eq]
    exact and_congr_left' h.lt_count_iff
  induction settled, pending using run_induct f input generalizing settled' with
  | done settled => rw [List.map_nil, run_nil, run_nil, marks.size]
  | old settled entry pending old ih =>
    rw [List.map_cons, run_of_settled ((marks.mem entry).2 old), run_of_settled old, ih marks]
  | outside settled entry pending new outside ih =>
    have new' := mt (marks.mem entry).1 new
    rw [List.map_cons, run_of_outside new' (mt (inside_iff entry).1 outside),
      run_of_outside new outside, ih marks]
  | accepted settled entry pending new inside expanded =>
    have new' := mt (marks.mem entry).1 new
    have marks' := marks.insert (Entry.rename_injective φ) entry
    have expanded' := expand_renumbered h marks' input entry
    rw [expanded] at expanded'
    rw [List.map_cons, run_of_accepted new' ((inside_iff entry).2 inside) expanded',
      run_of_accepted new inside expanded, marks'.size]
  | queued settled entry pending next new inside expanded ih =>
    have new' := mt (marks.mem entry).1 new
    have marks' := marks.insert (Entry.rename_injective φ) entry
    have expanded' := expand_renumbered h marks' input entry
    rw [expanded] at expanded'
    rw [List.map_cons, run_of_queued new' ((inside_iff entry).2 inside) expanded',
      run_of_queued new inside expanded, ← List.map_append, ih marks']

end Search

theorem Fragment.Renumbers.search_eq (h : f.Renumbers φ g) (word : List Symbol) :
    g.search word = f.search word := by
  have start : [(g.entry, 0)] = [(f.entry, 0)].map (Search.Entry.rename φ) := by
    rw [List.map_singleton, Search.Entry.rename, h.entry]
  rw [search, search, start, Search.run_renumbered h (.empty _)]

end FragmentAlgebra
