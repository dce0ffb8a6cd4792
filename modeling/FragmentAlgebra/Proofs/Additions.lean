import FragmentAlgebra.Proofs.Paths

/-! # Edges appended one by one

Edges are appended to a state one at a time, each under a label: a symbol, or `none` for an epsilon
edge. An `Addition` is one such call and `State.addAll` a sequence of them. Under each label a state
has what it had before, followed by what was added under that label, in order and as often as it was
added (`State.successors_addAll`); the other labels and the flag stay as they were.

So two sequences give the same state exactly if under each label they add the same targets in the
same order. These are the sequences that exchanges of neighbours under different labels turn into
each other (`exchanged_iff`): nothing else about the order of the calls can be seen in the state,
and nothing less.
-/

namespace FragmentAlgebra

/-! ## Additions -/

/-- An edge that is appended: a symbol or `none` for an epsilon edge, and where the edge leads. -/
@[ext] structure Addition where
  label : Option Symbol
  target : StateId
deriving DecidableEq

/-- The same edge with its target under another name. -/
def Addition.rename (addition : Addition) (φ : StateId → StateId) : Addition :=
  { addition with target := φ addition.target }

/-- The targets that a sequence adds under one label, in order. -/
def targetsUnder (label : Option Symbol) (additions : List Addition) : List StateId :=
  (additions.filter (·.label = label)).map (·.target)

variable {additions others front back : List Addition} {a b : Addition} {label : Option Symbol}

@[simp] theorem targetsUnder_nil (label : Option Symbol) : targetsUnder label [] = [] := rfl

theorem targetsUnder_append (label : Option Symbol) (additions others : List Addition) :
    targetsUnder label (additions ++ others) =
      targetsUnder label additions ++ targetsUnder label others := by
  simp [targetsUnder]

theorem targetsUnder_cons (label : Option Symbol) (a : Addition) (additions : List Addition) :
    targetsUnder label (a :: additions) =
      (if a.label = label then [a.target] else []) ++ targetsUnder label additions := by
  by_cases here : a.label = label
  · simp [targetsUnder, here]
  · simp [targetsUnder, here]

theorem targetsUnder_eq_nil_iff :
    targetsUnder label additions = [] ↔ ∀ a ∈ additions, a.label ≠ label := by
  simp [targetsUnder]

theorem targetsUnder_ne_nil_iff :
    targetsUnder label additions ≠ [] ↔ ∃ a ∈ additions, a.label = label := by
  simp [targetsUnder]

/-- The first target under a label is added behind additions under other labels only. -/
theorem exists_first_under {target : StateId} {targets : List StateId}
    (starts : targetsUnder label additions = target :: targets) :
    ∃ front back, additions = front ++ ⟨label, target⟩ :: back ∧
      ∀ x ∈ front, x.label ≠ label := by
  obtain ⟨first, rest, listed, rfl, _⟩ := List.map_eq_cons_iff.1 starts
  obtain ⟨front, back, rfl, before, here, _⟩ := List.filter_eq_cons_iff.1 listed
  obtain rfl : first.label = label := by simpa using here
  exact ⟨front, back, rfl, by simpa using before⟩

/-! ## States built by additions -/

namespace State

def add (state : State) (addition : Addition) : State :=
  match addition.label with
  | none => state.addEpsilonEdge addition.target
  | some symbol => state.addSymbolEdge symbol addition.target

def addAll (state : State) (additions : List Addition) : State := additions.foldl add state

/-- A new state with edges appended to it in the given order. -/
def ofAdditions (additions : List Addition) : State := blank.addAll additions

variable {state : State}

theorem isFinal_add (state : State) (a : Addition) : (state.add a).isFinal = state.isFinal := by
  obtain ⟨_ | c, target⟩ := a
  · rfl
  · rfl

theorem successors_add (state : State) (a : Addition) (label : Option Symbol) :
    (state.add a).successors label =
      state.successors label ++ if a.label = label then [a.target] else [] := by
  obtain ⟨_ | c, target⟩ := a
  · rw [add, successors_addEpsilonEdge]
    by_cases here : label = none
    · simp [here]
    · simp [here, Ne.symm here]
  · rw [add, successors_addSymbolEdge]
    by_cases here : label = some c
    · simp [here]
    · simp [here, Ne.symm here]

theorem isFinal_addAll (state : State) (additions : List Addition) :
    (state.addAll additions).isFinal = state.isFinal := by
  induction additions generalizing state with
  | nil => rfl
  | cons a additions ih =>
    calc (state.addAll (a :: additions)).isFinal
        = ((state.add a).addAll additions).isFinal := rfl
      _ = state.isFinal := by rw [ih, isFinal_add]

/-- Under each label the new targets follow the old ones. -/
theorem successors_addAll (state : State) (additions : List Addition) (label : Option Symbol) :
    (state.addAll additions).successors label =
      state.successors label ++ targetsUnder label additions := by
  induction additions generalizing state with
  | nil => simp [addAll]
  | cons a additions ih =>
    calc (state.addAll (a :: additions)).successors label
        = ((state.add a).addAll additions).successors label := rfl
      _ = state.successors label ++ targetsUnder label (a :: additions) := by
          rw [ih, successors_add, targetsUnder_cons, List.append_assoc]

theorem successors_ofAdditions (additions : List Addition) (label : Option Symbol) :
    (ofAdditions additions).successors label = targetsUnder label additions := by
  rw [ofAdditions, successors_addAll, successors_blank, List.nil_append]

theorem addAll_eq_addAll_iff : state.addAll additions = state.addAll others ↔
    ∀ label, targetsUnder label additions = targetsUnder label others := by
  constructor
  · intro same label
    have lists := congrArg (·.successors label) same
    simp only [successors_addAll] at lists
    exact List.append_cancel_left lists
  · intro same
    apply ext_successors
    · rw [isFinal_addAll, isFinal_addAll]
    · intro label
      rw [successors_addAll, successors_addAll, same label]

/-! ## Renamed targets -/

theorem rename_add (state : State) (a : Addition) (φ : StateId → StateId) :
    (state.add a).rename φ = (state.rename φ).add (a.rename φ) := by
  apply ext_successors
  · rw [isFinal_add]
    exact isFinal_add state a
  · intro label
    rw [successors_rename, successors_add, successors_add, successors_rename, List.map_append]
    by_cases here : a.label = label
    · simp [Addition.rename, here]
    · simp [Addition.rename, here]

theorem rename_addAll (state : State) (additions : List Addition) (φ : StateId → StateId) :
    (state.addAll additions).rename φ = (state.rename φ).addAll (additions.map (·.rename φ)) := by
  induction additions generalizing state with
  | nil => rfl
  | cons a additions ih =>
    calc (state.addAll (a :: additions)).rename φ
        = ((state.add a).addAll additions).rename φ := rfl
      _ = ((state.rename φ).add (a.rename φ)).addAll (additions.map (·.rename φ)) := by
          rw [ih, rename_add]

/-! ## Symbols and edges in use -/

theorem pairwise_symbols (state : State) : state.symbols.Pairwise (· < ·) :=
  List.pairwise_map.2 state.edges.ordered.1

theorem mem_symbols_iff {c : Symbol} : c ∈ state.symbols ↔ state.successors (some c) ≠ [] :=
  EdgeTable.mem_symbols

theorem hasEdges_iff : state.hasEdges = true ↔ ∃ label, state.successors label ≠ [] := by
  constructor
  · intro edges
    simp only [hasEdges, Bool.or_eq_true, Bool.not_eq_true', List.isEmpty_eq_false_iff,
      EdgeTable.isEmpty] at edges
    obtain epsilon | rows := edges
    · exact ⟨none, epsilon⟩
    · obtain ⟨row, mem⟩ := List.exists_mem_of_ne_nil _ rows
      have used : row.1 ∈ state.symbols := List.mem_map_of_mem mem
      exact ⟨some row.1, mem_symbols_iff.1 used⟩
  · rintro ⟨label, listed⟩
    obtain ⟨target, mem⟩ := List.exists_mem_of_ne_nil _ listed
    exact hasEdges_of_mem_successors mem

theorem hasEdges_ofAdditions : (ofAdditions additions).hasEdges = true ↔ additions ≠ [] := by
  simp only [hasEdges_iff, successors_ofAdditions, targetsUnder_ne_nil_iff]
  constructor
  · rintro ⟨label, a, mem, _⟩
    exact List.ne_nil_of_mem mem
  · intro some_call
    obtain ⟨a, mem⟩ := List.exists_mem_of_ne_nil _ some_call
    exact ⟨a.label, a, mem, rfl⟩

end State

/-! ## Exchanged neighbours -/

/-- Exchanges of neighbours under different labels lead from one sequence to the other. -/
inductive Exchanged : List Addition → List Addition → Prop
  | refl (additions : List Addition) : Exchanged additions additions
  | cons (a : Addition) {additions others : List Addition} (rest : Exchanged additions others) :
      Exchanged (a :: additions) (a :: others)
  | swap {a b : Addition} (different : a.label ≠ b.label) (back : List Addition) :
      Exchanged (a :: b :: back) (b :: a :: back)
  | trans {additions between others : List Addition} (first : Exchanged additions between)
      (second : Exchanged between others) : Exchanged additions others

namespace Exchanged

/-- Exchanges keep the list of each label, under which at most one of two exchanged neighbours is
listed. -/
theorem targetsUnder_eq (exchanged : Exchanged additions others) (label : Option Symbol) :
    targetsUnder label additions = targetsUnder label others := by
  induction exchanged with
  | refl => rfl
  | cons a rest ih => rw [targetsUnder_cons, targetsUnder_cons, ih]
  | @swap a b different back =>
    simp only [targetsUnder_cons]
    by_cases here : a.label = label
    · have other : b.label ≠ label := fun same => different (here.trans same.symm)
      simp [here, other]
    · simp [here]
  | trans first second ih ih' => exact ih.trans ih'

/-- An edge can as well be added behind edges under other labels as in front of them. -/
theorem behind (other : ∀ x ∈ front, x.label ≠ a.label) (back : List Addition) :
    Exchanged (a :: (front ++ back)) (front ++ a :: back) := by
  induction front with
  | nil => exact .refl _
  | cons b front ih =>
    have different : a.label ≠ b.label := Ne.symm (other b List.mem_cons_self)
    have rest := ih fun x mem => other x (List.mem_cons_of_mem _ mem)
    exact .trans (.swap different _) (.cons b rest)

/-- The first addition of one sequence stands in the other one behind additions under other labels,
and is exchanged with each of these until it is the first one there. -/
theorem of_targetsUnder_eq
    (same : ∀ label, targetsUnder label additions = targetsUnder label others) :
    Exchanged additions others := by
  induction additions generalizing others with
  | nil =>
    have none_left : others = [] := by
      refine List.eq_nil_iff_forall_not_mem.2 fun a mem => ?_
      exact targetsUnder_eq_nil_iff.1 (same a.label).symm a mem rfl
    rw [none_left]
    exact .refl []
  | cons a additions ih =>
    have starts : targetsUnder a.label others = a.target :: targetsUnder a.label additions := by
      rw [← same, targetsUnder_cons, if_pos rfl, List.singleton_append]
    obtain ⟨front, back, rfl, other⟩ := exists_first_under starts
    have moved : Exchanged (a :: (front ++ back)) (front ++ a :: back) := behind other back
    have rest : Exchanged additions (front ++ back) := by
      refine ih fun label => ?_
      have lists := (same label).trans (moved.targetsUnder_eq label).symm
      rw [targetsUnder_cons, targetsUnder_cons] at lists
      exact List.append_cancel_left lists
    exact .trans (.cons a rest) moved

end Exchanged

theorem exchanged_iff : Exchanged additions others ↔
    ∀ label, targetsUnder label additions = targetsUnder label others :=
  ⟨Exchanged.targetsUnder_eq, .of_targetsUnder_eq⟩

/-- Neighbours change places unseen exactly if their labels differ or they are the same edge. -/
theorem targetsUnder_neighbours_iff :
    (∀ label, targetsUnder label (front ++ a :: b :: back) =
      targetsUnder label (front ++ b :: a :: back)) ↔ a.label ≠ b.label ∨ a = b := by
  simp only [targetsUnder_append, List.append_cancel_left_eq]
  constructor
  · intro same
    by_cases one_label : a.label = b.label
    · have lists := same b.label
      simp only [targetsUnder_cons, if_pos one_label, if_true, List.singleton_append] at lists
      have targets : a.target = b.target := (List.cons.inj lists).1
      exact .inr (Addition.ext one_label targets)
    · exact .inl one_label
  · rintro (different | rfl)
    · exact (Exchanged.swap different back).targetsUnder_eq
    · intro label
      rfl

namespace State

/-- A state that was built edge by edge is what was added under each label, in order. Two sequences
give the same state exactly if they agree under every label, so exactly if exchanges of neighbours
under different labels lead from one to the other. The symbols of the state are those that were
used, it has edges as soon as one was added, and moving it is moving each edge that is added. -/
theorem determined_by_targetsUnder (additions others : List Addition) :
    (ofAdditions additions = ofAdditions others ↔
      ∀ label, targetsUnder label additions = targetsUnder label others) ∧
    (ofAdditions additions = ofAdditions others ↔ Exchanged additions others) ∧
    (∀ front back a b,
      ofAdditions (front ++ a :: b :: back) = ofAdditions (front ++ b :: a :: back) ↔
        a.label ≠ b.label ∨ a = b) ∧
    (ofAdditions additions).epsilon = targetsUnder none additions ∧
    (∀ c, (ofAdditions additions).targets c = targetsUnder (some c) additions) ∧
    (ofAdditions additions).symbols.Pairwise (· < ·) ∧
    (∀ c, c ∈ (ofAdditions additions).symbols ↔ ∃ a ∈ additions, a.label = some c) ∧
    ((ofAdditions additions).hasEdges = true ↔ additions ≠ []) ∧
    ∀ distance,
      (ofAdditions additions).shift distance =
        ofAdditions (additions.map (·.rename (· + distance))) ∧
      ∀ a, ((ofAdditions additions).add a).shift distance =
        ((ofAdditions additions).shift distance).add (a.rename (· + distance)) := by
  refine ⟨addAll_eq_addAll_iff, ?_, ?_, ?_, ?_, ?_, ?_, hasEdges_ofAdditions, ?_⟩
  case refine_1 => exact addAll_eq_addAll_iff.trans exchanged_iff.symm
  case refine_2 =>
    intro front back a b
    exact addAll_eq_addAll_iff.trans targetsUnder_neighbours_iff
  case refine_3 => exact successors_ofAdditions additions none
  case refine_4 =>
    intro c
    exact successors_ofAdditions additions (some c)
  case refine_5 => exact pairwise_symbols _
  case refine_6 =>
    intro c
    rw [mem_symbols_iff, successors_ofAdditions, targetsUnder_ne_nil_iff]
  case refine_7 =>
    intro distance
    constructor
    · exact rename_addAll blank additions (· + distance)
    · intro a
      exact rename_add _ a (· + distance)

/-- An epsilon edge may come between two edges on one symbol, but these two keep their order. -/
example :
    ofAdditions [⟨some 97, 3⟩, ⟨none, 1⟩, ⟨some 97, 2⟩] =
      ofAdditions [⟨none, 1⟩, ⟨some 97, 3⟩, ⟨some 97, 2⟩] ∧
    ofAdditions [⟨some 97, 3⟩, ⟨some 97, 2⟩] ≠ ofAdditions [⟨some 97, 2⟩, ⟨some 97, 3⟩] := by
  decide

end State

end FragmentAlgebra
