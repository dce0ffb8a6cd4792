import FragmentAlgebra.Proofs.Descriptions
import FragmentAlgebra.Proofs.Restoring

/-! # Obtainable fragments

A fragment is generated by some given ones if it is one of them or a leaf, made from generated
fragments by a combinator of two or of many operands, or read from a description. A fragment may be
used any number of times on the way. Nothing is given to a `Composed` fragment; to an `Obtainable`
one are given the fragments that restore from a snapshot, whoever wrote the snapshot.

A `Hereditary` property goes through lists of operands and descriptions, so that every generated
fragment has it if the given ones do (`Hereditary.of_generated`). Being well formed is such a
property, and what restores is well formed. Conversely every well-formed graph is obtainable: it is
restored from its own record. Hence a snapshot of an obtainable fragment always restores to that
fragment.
-/

namespace FragmentAlgebra

/-! ## Lists of operands -/

theorem allOperands_eq_ok_iff {operands : List (Except BuildError Operand)}
    {given : List Operand} : allOperands operands = .ok given ↔ operands = given.map .ok := by
  induction operands generalizing given with
  | nil => cases given <;> simp [allOperands]
  | cons operand operands ih =>
    cases operand with
    | error e => cases given <;> simp [allOperands]
    | ok operand =>
      rw [allOperands, Description.map_eq_ok]
      cases given with
      | nil => simp
      | cons first rest =>
        simp only [ih, List.map_cons, List.cons.injEq, Except.ok.injEq]
        constructor
        · rintro ⟨_, listed, rfl, rfl⟩
          exact ⟨rfl, listed⟩
        · rintro ⟨rfl, listed⟩
          exact ⟨rest, listed, rfl, rfl⟩

namespace Fragment

variable {f : Fragment} {operands : List Operand} {results : List (Except BuildError Operand)}

/-! ## Hereditary properties -/

namespace Hereditary

variable {P : Fragment → Prop}

theorem ofJson (h : Hereditary P) {value : Json} (read : Fragment.ofJson value = .ok f) : P f := by
  obtain ⟨d, _, rfl⟩ := Description.map_eq_ok.1 read
  exact Description.hereditary_build h d

theorem ofText (h : Hereditary P) {text : String} (read : Fragment.ofText text = .ok f) :
    P f := by
  rw [Fragment.ofText] at read
  split at read
  case h_1 => exact h.ofJson read
  case h_2 => cases read

theorem toFragment (h : Hereditary P) (given : ∀ a, .fragment a ∈ operands → P a) :
    ∀ operand ∈ operands, P operand.toFragment := by
  rintro (a | symbol | bytes) mem
  · exact given a mem
  · exact h.literal symbol
  · exact h.ofBytes bytes

theorem foldl {join : Fragment → Fragment → Fragment}
    (keeps : ∀ {a b : Fragment}, P a → P b → P (join a b)) {first : Operand}
    {rest : List Operand} (all : ∀ operand ∈ first :: rest, P operand.toFragment) :
    P (rest.foldl (fun acc next => join acc next.toFragment) first.toFragment) := by
  rw [List.forall_mem_cons] at all
  exact rest.foldlRecOn _ all.1 fun acc kept next mem => keeps kept (all.2 next mem)

theorem concatAll (h : Hereditary P) (given : ∀ a, .ok (.fragment a) ∈ results → P a)
    (combined : FragmentAlgebra.concatAll results = .ok f) : P f := by
  obtain ⟨operands, listed, rfl⟩ := Description.map_eq_ok.1 combined
  obtain rfl := allOperands_eq_ok_iff.1 listed
  have all := h.toFragment fun a mem => given a (List.mem_map_of_mem mem)
  cases operands with
  | nil => exact h.empty
  | cons first rest => exact foldl h.concat all

theorem unionAll (h : Hereditary P) (given : ∀ a, .ok (.fragment a) ∈ results → P a)
    (combined : FragmentAlgebra.unionAll results = .ok f) : P f := by
  obtain ⟨operands, listed, summed⟩ := Description.bind_eq_ok.1 combined
  obtain rfl := allOperands_eq_ok_iff.1 listed
  have all := h.toFragment fun a mem => given a (List.mem_map_of_mem mem)
  cases operands with
  | nil => cases summed
  | cons first rest =>
    obtain rfl := Except.ok.inj summed
    exact foldl h.union all

end Hereditary

/-! ## Generated fragments -/

/-- What the library makes of leaves, combinators and descriptions, and of the fragments that are
given to it. -/
inductive Generated (Given : Fragment → Prop) : Fragment → Prop
  | given {f : Fragment} (given : Given f) : Generated Given f
  | literal (symbol : Symbol) : Generated Given (.literal symbol)
  | empty : Generated Given .empty
  | ofBytes (bytes : List Symbol) : Generated Given (.ofBytes bytes)
  | concat {a b : Fragment} (first : Generated Given a) (second : Generated Given b) :
      Generated Given (a.concat b)
  | union {a b : Fragment} (first : Generated Given a) (second : Generated Given b) :
      Generated Given (a.union b)
  | loop {a : Fragment} (body : Generated Given a) : Generated Given a.loop
  | concatAll {operands : List (Except BuildError Operand)} {f : Fragment}
      (given : ∀ a, .ok (.fragment a) ∈ operands → Generated Given a)
      (combined : FragmentAlgebra.concatAll operands = .ok f) : Generated Given f
  | unionAll {operands : List (Except BuildError Operand)} {f : Fragment}
      (given : ∀ a, .ok (.fragment a) ∈ operands → Generated Given a)
      (combined : FragmentAlgebra.unionAll operands = .ok f) : Generated Given f
  | ofJson {value : Json} {f : Fragment} (read : Fragment.ofJson value = .ok f) :
      Generated Given f
  | ofText {text : String} {f : Fragment} (read : Fragment.ofText text = .ok f) :
      Generated Given f

theorem Hereditary.of_generated {P Given : Fragment → Prop} (h : Hereditary P)
    (all : ∀ f, Given f → P f) (generated : f.Generated Given) : P f := by
  induction generated with
  | given given => exact all _ given
  | literal symbol => exact h.literal symbol
  | empty => exact h.empty
  | ofBytes bytes => exact h.ofBytes bytes
  | concat _ _ first second => exact h.concat first second
  | union _ _ first second => exact h.union first second
  | loop _ body => exact h.loop body
  | concatAll _ combined given => exact h.concatAll given combined
  | unionAll _ combined given => exact h.unionAll given combined
  | ofJson read => exact h.ofJson read
  | ofText read => exact h.ofText read

/-! ## Composed fragments -/

/-- What the library makes of leaves, combinators and descriptions, without a snapshot. -/
def Composed : Fragment → Prop := Generated fun _ => False

theorem Hereditary.of_composed {P : Fragment → Prop} (h : Hereditary P) (composed : f.Composed) :
    P f :=
  h.of_generated (fun _ none_given => none_given.elim) composed

/-! ## Obtainable fragments -/

/-- What some snapshot restores to. -/
def Restored (f : Fragment) : Prop := ∃ s : Snapshot, s.restore = .ok f

/-- What the library hands out. -/
def Obtainable : Fragment → Prop := Generated Restored

theorem Obtainable.restore {s : Snapshot} (restored : s.restore = .ok f) : f.Obtainable :=
  .given ⟨s, restored⟩

theorem Restored.wellFormed (restored : f.Restored) : f.WellFormed := by
  obtain ⟨s, restored⟩ := restored
  exact Snapshot.wellFormed_of_restore restored

theorem Obtainable.wellFormed (obtainable : f.Obtainable) : f.WellFormed :=
  hereditary_wellFormed.of_generated (fun _ => Restored.wellFormed) obtainable

/-- A well-formed graph is what its own record restores to. -/
theorem WellFormed.obtainable (wf : f.WellFormed) : f.Obtainable := by
  have name : SnapshotId := ⟨.replicate 16 0⟩
  exact .restore ((Snapshot.restore_capture_iff name .epoch).2 wf)

/-- Obtainable are exactly the graphs whose entry, exit and edges stay in the arena and whose exit
is their one final state. -/
theorem obtainable_iff_one_final_state (f : Fragment) : f.Obtainable ↔
    f.entry < f.count ∧ f.exit < f.count ∧
      (∀ state ∈ f.states, ∀ label, ∀ target ∈ state.successors label, target < f.count) ∧
        f.finalStates = [f.exit] := by
  have same : f.Obtainable ↔ f.WellFormed := ⟨Obtainable.wellFormed, WellFormed.obtainable⟩
  rw [same, WellFormed, InRange]
  simp only [State.mem_allTargets, forall_exists_index]
  constructor
  · rintro ⟨⟨entry, targets⟩, exit, final⟩
    refine ⟨entry, exit, fun state mem label target hit => ?_, final⟩
    exact targets state mem target label hit
  · rintro ⟨entry, exit, targets, final⟩
    refine ⟨⟨entry, fun state mem target label hit => ?_⟩, exit, final⟩
    exact targets state mem label target hit

end Fragment

namespace Snapshot

open Fragment

/-- Whatever name and moment a snapshot is given, an obtainable fragment is restored from it as it
was: entry, exit and every state, with the order and the multiplicity of its targets. -/
theorem restore_capture_eq_ok {f : Fragment} (obtainable : f.Obtainable) (id : SnapshotId)
    (createdAt : Instant) : (capture id createdAt f).restore = .ok f :=
  (restore_capture_iff id createdAt).2 obtainable.wellFormed

/-- A graph of one state, recorded with unsorted transitions, as the first operand of a product. -/
theorem restore_capture_of_product :
    let s : Snapshot :=
      ⟨1, ⟨.replicate 16 0⟩, .epoch, 0, 0, [⟨true, [0], [(98, [0]), (97, [0, 0])]⟩]⟩
    let f := s.toFragment.loop.concat (.literal 99)
    s.restore = .ok s.toFragment ∧ f.Obtainable ∧ (capture s.id .epoch f).restore = .ok f := by
  intro s f
  have restored : s.restore = .ok s.toFragment := by decide
  have obtainable : f.Obtainable := .concat (.loop (.given ⟨s, restored⟩)) (.literal 99)
  exact ⟨restored, obtainable, restore_capture_eq_ok obtainable s.id .epoch⟩

end Snapshot

end FragmentAlgebra
