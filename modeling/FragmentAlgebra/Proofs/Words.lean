import FragmentAlgebra.Proofs.Products

/-! # Fragments of single words

`literal` and `empty` have one edge each, from their entry to their exit. A sequence of bytes is a
product of literals that ends in the empty fragment, so its language is that one sequence
(`language_ofBytes`).
-/

namespace FragmentAlgebra

namespace Fragment

variable {q r : Nat} {label : Option Symbol} {word : List Symbol}

/-! ## Two states and one edge -/

/-- A fragment of two states with the single edge from its entry to its exit under `label`. -/
structure SingleEdge (f : Fragment) (label : Option Symbol) : Prop where
  count : f.count = 2
  entry : f.entry = 0
  exit : f.exit = 1
  edge_iff : ∀ q l r, f.Edge q l r ↔ q = 0 ∧ l = label ∧ r = 1
  isFinal_iff : ∀ q, f.IsFinal q ↔ q = 1

theorem edge_pair {first second : State} : (⟨#[first, second], 0, 1⟩ : Fragment).Edge q label r ↔
    q = 0 ∧ r ∈ first.successors label ∨ q = 1 ∧ r ∈ second.successors label := by
  match q with
  | 0 => simp [Edge, state?]
  | 1 => simp [Edge, state?]
  | q + 2 => simp [Edge, state?]

theorem isFinal_pair {first second : State} : (⟨#[first, second], 0, 1⟩ : Fragment).IsFinal q ↔
    q = 0 ∧ first.isFinal = true ∨ q = 1 ∧ second.isFinal = true := by
  match q with
  | 0 => simp [IsFinal, state?]
  | 1 => simp [IsFinal, state?]
  | q + 2 => simp [IsFinal, state?]

theorem singleEdge_literal (symbol : Symbol) : (literal symbol).SingleEdge (some symbol) where
  count := rfl
  entry := rfl
  exit := rfl
  edge_iff q l r := by
    rw [literal, edge_pair, State.successors_addSymbolEdge]
    split
    case isTrue same => simp [same]
    case isFalse other => simp [other]
  isFinal_iff q := by
    rw [literal, isFinal_pair]
    simp [State.addSymbolEdge, State.blank, State.accepting]

theorem singleEdge_empty : empty.SingleEdge none where
  count := rfl
  entry := rfl
  exit := rfl
  edge_iff q l r := by
    rw [empty, edge_pair, State.successors_addEpsilonEdge]
    split
    case isTrue same => simp [same]
    case isFalse other => simp [other]
  isFinal_iff q := by
    rw [empty, isFinal_pair]
    simp [State.addEpsilonEdge, State.blank, State.accepting]

namespace SingleEdge

variable {f : Fragment}

theorem wellFormed (h : f.SingleEdge label) : f.WellFormed := by
  refine wellFormed_iff.2 ⟨⟨?_, ?_⟩, ?_, ?_⟩
  · rw [h.count, h.entry]
    exact Nat.two_pos
  · intro q l r edge
    obtain ⟨_, _, rfl⟩ := (h.edge_iff q l r).1 edge
    rw [h.count]
    exact Nat.one_lt_two
  · rw [h.count, h.exit]
    exact Nat.one_lt_two
  · intro q
    rw [h.exit, h.isFinal_iff]

theorem isolated (h : f.SingleEdge label) : f.Isolated where
  entry q l edge := by
    rw [h.entry] at edge
    exact Nat.zero_ne_one ((h.edge_iff q l 0).1 edge).2.2
  exit l q edge := by
    rw [h.exit] at edge
    exact Nat.one_ne_zero ((h.edge_iff 1 l q).1 edge).1

theorem path_exit (h : f.SingleEdge label) (path : f.Path 1 word q) : word = [] ∧ q = 1 := by
  have alone := h.isolated.exit
  rw [h.exit] at alone
  exact path.eq_of_no_edge_out alone

theorem mem_language (h : f.SingleEdge label) : word ∈ f.language ↔ word = label.toList := by
  rw [h.wellFormed.mem_language_iff_path, h.entry, h.exit]
  constructor
  · intro path
    rcases path.cases_head with ⟨_, same⟩ | ⟨l, p, rest, rfl, edge, path⟩
    · exact absurd same Nat.zero_ne_one
    · obtain ⟨_, rfl, rfl⟩ := (h.edge_iff 0 l p).1 edge
      obtain ⟨rfl, _⟩ := h.path_exit path
      exact List.append_nil _
  · rintro rfl
    exact .single ((h.edge_iff 0 label 1).2 ⟨rfl, rfl, rfl⟩)

end SingleEdge

theorem wellFormed_literal (symbol : Symbol) : (literal symbol).WellFormed :=
  (singleEdge_literal symbol).wellFormed

theorem wellFormed_empty : empty.WellFormed := singleEdge_empty.wellFormed

theorem mem_language_literal {symbol : Symbol} :
    word ∈ (literal symbol).language ↔ word = [symbol] :=
  (singleEdge_literal symbol).mem_language

theorem mem_language_empty : word ∈ empty.language ↔ word = [] := singleEdge_empty.mem_language

/-! ## Sequences of bytes -/

theorem ofBytes_cons (symbol : Symbol) (bytes : List Symbol) :
    ofBytes (symbol :: bytes) = (literal symbol).concat (ofBytes bytes) := rfl

theorem wellFormed_ofBytes (bytes : List Symbol) : (ofBytes bytes).WellFormed := by
  induction bytes with
  | nil => exact wellFormed_empty
  | cons symbol bytes ih => exact (wellFormed_literal symbol).concat ih

theorem mem_language_ofBytes {bytes : List Symbol} :
    word ∈ (ofBytes bytes).language ↔ word = bytes := by
  induction bytes generalizing word with
  | nil => exact mem_language_empty
  | cons symbol bytes ih =>
    rw [ofBytes_cons, language_concat (wellFormed_literal symbol) (wellFormed_ofBytes bytes),
      Language.mem_mul]
    constructor
    · rintro ⟨u, front, v, back, rfl⟩
      rw [mem_language_literal.1 front, ih.1 back, List.singleton_append]
    · rintro rfl
      exact ⟨[symbol], mem_language_literal.2 rfl, bytes, ih.2 rfl, rfl⟩

end Fragment

end FragmentAlgebra
