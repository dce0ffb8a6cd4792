import Std.Data.HashSet
import FragmentAlgebra.Fragment.Language

/-! # Acceptance search

The search keeps a stack of entries, a state with an offset into the input. An entry is expanded
once: its epsilon closure is walked, and every state reached by consuming the symbol at the offset
is queued for the next offset. A final state in a closure at the end of the input ends the search.

* `closure`: the states reached along epsilon edges, by an explicit stack.
* `explore`: the search over entries, with a log of the entries expanded.
* `run` and `trail`: its two results, the `Report` of the answer and the number of entries expanded,
  and these entries in order.
* `Fragment.accepts`: the answer alone.

Every closure and every search ends, because each round either shortens its stack or uses up one of
finitely many states or entries.
-/

namespace FragmentAlgebra

open Std (HashSet)

/-! ## Counting what is left -/

/-- The number of members of `all` that are not in `used`. -/
def unused {α : Type} [BEq α] [Hashable α] (all : List α) (used : HashSet α) : Nat :=
  all.countP fun a => !used.contains a

theorem countP_lt_countP_of_imp {α : Type} {p q : α → Bool} {all : List α} {a : α}
    (imp : ∀ b, q b = true → p b = true) (mem : a ∈ all) (hp : p a = true) (hq : q a = false) :
    all.countP q < all.countP p := by
  induction all with
  | nil => simp at mem
  | cons head rest ih =>
    have le : rest.countP q ≤ rest.countP p := List.countP_mono_left fun b _ => imp b
    rcases List.mem_cons.1 mem with rfl | mem
    · rw [List.countP_cons_of_pos hp, List.countP_cons_of_neg (by simp [hq])]
      omega
    · have lt := ih mem
      rw [List.countP_cons, List.countP_cons]
      by_cases counted : q head = true
      · rw [if_pos counted, if_pos (imp head counted)]
        omega
      · rw [if_neg counted]
        omega

theorem unused_insert_lt {α : Type} [BEq α] [Hashable α] [LawfulBEq α] [LawfulHashable α]
    {all : List α} {used : HashSet α} {a : α} (mem : a ∈ all) (new : ¬ a ∈ used) :
    unused all (used.insert a) < unused all used := by
  apply countP_lt_countP_of_imp (a := a) _ mem
  · simpa using new
  · simp
  · intro b hb
    simp_all

namespace Fragment

/-! ## Epsilon closure -/

/-- The states reached along epsilon edges from the states on `stack`, the latest first, in front of
`seen`. The states in `visited` are passed over. -/
def closureFrom (fragment : Fragment) (visited : HashSet StateId) (seen : List StateId)
    (stack : List StateId) : List StateId :=
  match stack with
  | [] => seen
  | q :: stack =>
    if q ∈ visited then fragment.closureFrom visited seen stack
    else
      match _found : fragment.state? q with
      | none => fragment.closureFrom visited seen stack
      | some state =>
        let visited := visited.insert q
        fragment.closureFrom visited (q :: seen) (state.epsilon.filter (· ∉ visited) ++ stack)
termination_by (unused (List.range fragment.count) visited, stack.length)
decreasing_by
  · exact Prod.Lex.right _ (Nat.lt_succ_self _)
  · exact Prod.Lex.right _ (Nat.lt_succ_self _)
  · refine Prod.Lex.left _ _ (unused_insert_lt ?_ ‹_›)
    exact List.mem_range.2 (Array.getElem?_eq_some_iff.1 _found).1

/-- The states that epsilon edges lead to from a state, itself included. -/
def closure (fragment : Fragment) (q : StateId) : List StateId := fragment.closureFrom ∅ [] [q]

def isFinal (fragment : Fragment) (q : StateId) : Bool := (fragment.state? q).any (·.isFinal)

def targets (fragment : Fragment) (q : StateId) (symbol : Symbol) : List StateId :=
  match fragment.state? q with
  | some state => state.targets symbol
  | none => []

end Fragment

namespace Search

/-! ## Entries -/

/-- A state and the number of symbols read on the way to it. -/
abbrev Entry := StateId × Nat

/-- Every entry that a search of `input` through `fragment` can expand. -/
def entries (fragment : Fragment) (input : Array Symbol) : List Entry :=
  (List.range fragment.count).flatMap fun q =>
    (List.range (input.size + 1)).map fun offset => (q, offset)

theorem mem_entries {fragment : Fragment} {input : Array Symbol} {entry : Entry} :
    entry ∈ entries fragment input ↔ entry.1 < fragment.count ∧ entry.2 ≤ input.size := by
  obtain ⟨q, offset⟩ := entry
  simp only [entries, List.mem_flatMap, List.mem_map, List.mem_range, Prod.mk.injEq]
  constructor
  · rintro ⟨p, hp, o, ho, rfl, rfl⟩
    exact ⟨hp, by omega⟩
  · rintro ⟨hq, ho⟩
    exact ⟨q, hq, offset, by omega, rfl, rfl⟩

/-- The answer of a search and the number of entries it expanded. -/
structure Report where
  accepted : Bool
  explored : Nat
deriving DecidableEq

/-! ## The search -/

/-- What the expansion of one entry brings. -/
inductive Expansion
  /-- A final state is reached and the input is used up. -/
  | accepted
  /-- The entries to look at next, the most urgent first. -/
  | queued (next : List Entry)
deriving DecidableEq

/-- Expand `entry`: walk its epsilon closure and consume one symbol from each state in it. Entries
that are already settled are not queued again. -/
def expand (fragment : Fragment) (input : Array Symbol) (settled : HashSet Entry) (entry : Entry) :
    Expansion :=
  let stretch := fragment.closure entry.1
  match input[entry.2]? with
  | none => if stretch.any fragment.isFinal then .accepted else .queued []
  | some symbol =>
    .queued <| stretch.flatMap fun q =>
      (fragment.targets q symbol).map (fun next => (next, entry.2 + 1)) |>.filter (· ∉ settled)

/-- A search that has ended, with the entries that it expanded, the latest first. -/
structure Exploration where
  report : Report
  log : List Entry
deriving DecidableEq

/-- Expand the entries of `pending`, the first one first, until a final state is reached at the end
of the input or nothing is pending. Entries outside the arena are dropped. Every entry is logged
when it is expanded. -/
def explore (fragment : Fragment) (input : Array Symbol) (settled : HashSet Entry)
    (log pending : List Entry) : Exploration :=
  match pending with
  | [] => ⟨⟨false, settled.size⟩, log⟩
  | entry :: pending =>
    if entry ∈ settled then explore fragment input settled log pending
    else if _inside : entry.1 < fragment.count ∧ entry.2 ≤ input.size then
      let settled := settled.insert entry
      match expand fragment input settled entry with
      | .accepted => ⟨⟨true, settled.size⟩, entry :: log⟩
      | .queued next => explore fragment input settled (entry :: log) (next ++ pending)
    else explore fragment input settled log pending
termination_by (unused (entries fragment input) settled, pending.length)
decreasing_by
  · exact Prod.Lex.right _ (Nat.lt_succ_self _)
  · exact Prod.Lex.left _ _ (unused_insert_lt (mem_entries.2 _inside) ‹_›)
  · exact Prod.Lex.right _ (Nat.lt_succ_self _)

/-- What a search reports. -/
def run (fragment : Fragment) (input : Array Symbol) (settled : HashSet Entry)
    (pending : List Entry) : Report :=
  (explore fragment input settled [] pending).report

/-- The entries that a search expands, the first one first. -/
def trail (fragment : Fragment) (input : Array Symbol) (settled : HashSet Entry)
    (pending : List Entry) : List Entry :=
  (explore fragment input settled [] pending).log.reverse

end Search

namespace Fragment

/-- The report of the search for `input`. -/
def search (fragment : Fragment) (input : List Symbol) : Search.Report :=
  Search.run fragment input.toArray ∅ [(fragment.entry, 0)]

/-- The entries that the search for `input` expands, in order. -/
def expanded (fragment : Fragment) (input : List Symbol) : List Search.Entry :=
  Search.trail fragment input.toArray ∅ [(fragment.entry, 0)]

/-- Decide whether the fragment accepts `input`. -/
def accepts (fragment : Fragment) (input : List Symbol) : Bool := (fragment.search input).accepted

end Fragment

end FragmentAlgebra
