import FragmentAlgebra.Proofs.Obtainable

/-! # Laws of the combinators

What the combinators do to the words of any two obtainable fragments, whatever edges these already
have at their ends and whichever of the two arenas is the larger:

* `accepts_concat_iff`: the words of a product fall into a word of each operand;
* `accepts_union_iff`: the words of a sum are those of its operands;
* `accepts_loop_iff`: the words of a loop fall into pieces read between two ends of its body;
* `language_loop_eq_kstar_iff`: when the loop of a composed fragment is the star of its words.
-/

namespace FragmentAlgebra

open scoped Computability

namespace Fragment

variable {a b : Fragment}

/-! ## Products -/

/-- A product accepts exactly the words of the first operand followed by a word of the second. -/
theorem accepts_concat_iff (first : a.Obtainable) (second : b.Obtainable) (word : List Symbol) :
    (a.concat b).accepts word = true ↔
      ∃ u v, word = u ++ v ∧ a.accepts u = true ∧ b.accepts v = true := by
  have product := language_concat first.wellFormed second.wellFormed
  rw [← mem_language, product, Language.mem_mul]
  constructor
  · rintro ⟨u, front, v, back, rfl⟩
    exact ⟨u, v, rfl, front, back⟩
  · rintro ⟨u, v, rfl, front, back⟩
    exact ⟨u, front, v, back, rfl⟩

/-- The first operand is restored, is entered and left at one state on a cycle, and has a state
that nothing leads to; the second is larger and has an edge into its entry. -/
theorem accepts_concat_of_restored :
    let s : Snapshot :=
      ⟨1, ⟨.replicate 16 0⟩, .epoch, 0, 0, [⟨true, [0], [(97, [0])]⟩, ⟨false, [0], []⟩]⟩
    let b := (ofBytes [98, 99]).loop
    s.restore = .ok s.toFragment ∧ s.toFragment.count < b.count ∧
      (s.toFragment.concat b).accepts [97, 97, 98, 99] = true := by
  intro s b
  have restored : s.restore = .ok s.toFragment := by decide
  have front : s.toFragment.accepts [97, 97] = true := by
    have around : s.toFragment.Path 0 [97, 97] 0 :=
      .consume rfl (.head _) (.consume rfl (.head _) (.stay 0))
    exact mem_language_iff_accepts.2 ⟨0, around, _, rfl, rfl⟩
  have back : b.accepts [98, 99] = true := by
    have piece : [98, 99] ∈ (ofBytes [98, 99]).language := mem_language_ofBytes.2 rfl
    exact kstar_language_le_loop (wellFormed_ofBytes _) (mem_kstar_of_mem piece)
  have larger : s.toFragment.count < b.count := by decide +kernel
  refine ⟨restored, larger, ?_⟩
  exact (accepts_concat_iff (.restore restored) (.loop (.ofBytes _)) _).2 ⟨_, _, rfl, front, back⟩

/-! ## Sums -/

/-- A sum accepts exactly the words that one of its operands accepts. -/
theorem accepts_union_iff (first : a.Obtainable) (second : b.Obtainable) (word : List Symbol) :
    (a.union b).accepts word = true ↔ a.accepts word = true ∨ b.accepts word = true := by
  have sum := language_union first.wellFormed second.wellFormed
  rw [← mem_language, sum, Language.mem_add]
  exact Iff.rfl

/-- The exits of both operands, a loop and a restored cycle, keep edges back into their graphs. -/
theorem accepts_union_of_restored :
    let s : Snapshot :=
      ⟨1, ⟨.replicate 16 0⟩, .epoch, 0, 1, [⟨false, [], [(97, [1])]⟩, ⟨true, [], [(98, [0])]⟩]⟩
    let a := (literal 99).loop
    s.restore = .ok s.toFragment ∧ (a.union s.toFragment).accepts [99] = true ∧
      (a.union s.toFragment).accepts [97, 98, 97] = true := by
  intro s a
  have restored : s.restore = .ok s.toFragment := by decide
  have left : a.accepts [99] = true := by
    have piece : [99] ∈ (literal 99).language := mem_language_literal.2 rfl
    exact kstar_language_le_loop (wellFormed_literal 99) (mem_kstar_of_mem piece)
  have right : s.toFragment.accepts [97, 98, 97] = true := by
    have around : s.toFragment.Path 0 [97, 98, 97] 1 :=
      .consume rfl (.head _) (.consume rfl (.head _) (.consume rfl (.head _) (.stay 1)))
    exact mem_language_iff_accepts.2 ⟨1, around, _, rfl, rfl⟩
  have sum := accepts_union_iff (.loop (.literal 99)) (.restore restored)
  exact ⟨restored, (sum _).2 (.inl left), (sum _).2 (.inr right)⟩

/-! ## Loops -/

/-- A loop accepts exactly the products of pieces that are read between two ends of its body: from
its entry or its exit to its entry or its exit. These include the products of words of the body, and
are no others if no edge enters the entry of the body and none leaves its exit. A loop of a loop
accepts what the loop accepts. -/
theorem accepts_loop_iff (body : a.Obtainable) :
    (∀ word, a.loop.accepts word = true ↔
        ∃ pieces : List (List Symbol), word = pieces.flatten ∧
          ∀ piece ∈ pieces, ∃ p q, a.IsEnd p ∧ a.IsEnd q ∧ a.Path p piece q) ∧
      (∀ pieces : List (List Symbol), (∀ piece ∈ pieces, a.accepts piece = true) →
        a.loop.accepts pieces.flatten = true) ∧
      (a.Isolated → ∀ word, a.loop.accepts word = true ↔
        ∃ pieces : List (List Symbol), word = pieces.flatten ∧
          ∀ piece ∈ pieces, a.accepts piece = true) ∧
      ∀ word, a.loop.loop.accepts word = a.loop.accepts word := by
  have wf := body.wellFormed
  refine ⟨fun word => ?_, fun pieces all => ?_, fun alone word => ?_, fun word => ?_⟩
  · rw [← mem_language, language_loop wf, Language.mem_kstar]
    exact Iff.rfl
  · exact kstar_language_le_loop wf ⟨pieces, rfl, all⟩
  · rw [← mem_language, language_loop_of_isolated alone wf, Language.mem_kstar]
    exact Iff.rfl
  · rw [Bool.eq_iff_iff, ← mem_language, ← mem_language, language_loop_loop_eq_loop wf]

/-- What is read from the exit of a restored cycle back to its entry is no word of the cycle, but a
word of its loop. -/
theorem accepts_loop_of_restored :
    let s : Snapshot :=
      ⟨1, ⟨.replicate 16 0⟩, .epoch, 0, 1, [⟨false, [], [(97, [1])]⟩, ⟨true, [], [(98, [0])]⟩]⟩
    let a := s.toFragment
    s.restore = .ok a ∧ a.loop.accepts [98, 97, 98, 98] = true ∧
      a.loop.loop.accepts [98, 97, 98, 98] = true := by
  intro s a
  have restored : s.restore = .ok a := by decide
  obtain ⟨pieces, _, _, again⟩ := accepts_loop_iff (.restore restored)
  have once : a.Path 1 [98] 0 := .consume rfl (.head _) (.stay 0)
  have twice : a.Path 1 [98, 97, 98] 0 :=
    .consume rfl (.head _) (.consume rfl (.head _) once)
  have accepted : a.loop.accepts [98, 97, 98, 98] = true := by
    refine (pieces _).2 ⟨[[98, 97, 98], [98]], rfl, ?_⟩
    rw [List.forall_mem_cons, List.forall_mem_singleton]
    exact ⟨⟨1, 0, .inr rfl, .inl rfl, twice⟩, ⟨1, 0, .inr rfl, .inl rfl, once⟩⟩
  exact ⟨restored, accepted, (again _).trans accepted⟩

/-- Every product of words of a composed fragment is a word of its loop. The loop has no other words
exactly if the words read along the cycles at its entry and at its exit are products of words. -/
theorem language_loop_eq_kstar_iff {a : Fragment} (composed : a.Composed) :
    (∀ word, word ∈ a.language∗ → a.loop.accepts word = true) ∧
      ((∀ word, a.loop.accepts word = true ↔ word ∈ a.language∗) ↔
        ∀ word, a.Path a.entry word a.entry ∨ a.Path a.exit word a.exit → word ∈ a.language∗) := by
  obtain ⟨wf, wayBack⟩ := hereditary_wayBack.of_composed composed
  refine ⟨fun word mem => kstar_language_le_loop wf mem, ?_⟩
  rw [← segments_le_iff wf wayBack, ← language_loop_eq_iff_segments_le wf]
  exact Language.ext_iff.symm

theorem loop_literal_language : (literal 97).Composed ∧
    ∀ word, (literal 97).loop.accepts word = true ↔ word ∈ (literal 97).language∗ := by
  have composed : (literal 97).Composed := .literal 97
  obtain ⟨wf, wayBack⟩ := hereditary_wayBack.of_composed composed
  have alone := (singleEdge_literal 97).isolated.segments_le wf
  exact ⟨composed,
    (language_loop_eq_kstar_iff composed).2.2 ((segments_le_iff wf wayBack).1 alone)⟩

/-- A loop in front leaves a cycle at the entry, which the next loop takes for a segment: 97 is read
in the inner loop, back to the entry, and the bypass leads on. Every word holds a 98. -/
theorem loop_accepts_half_a_piece :
    ((literal 97).loop.concat (literal 98)).Composed ∧
      ((literal 97).loop.concat (literal 98)).loop.accepts [97] = true ∧
        [97] ∉ ((literal 97).loop.concat (literal 98)).language∗ := by
  have composed : ((literal 97).loop.concat (literal 98)).Composed :=
    .concat (.loop (.literal 97)) (.literal 98)
  have wf := hereditary_wellFormed.of_composed composed
  refine ⟨composed, ?_, ?_⟩
  · have leaf := wellFormed_literal 97
    have segment : [97] ∈ (literal 97).segments :=
      leaf.language_le_segments (mem_language_literal.2 rfl)
    have around : (literal 97).loop.Path (literal 97).entry [97] (literal 97).entry :=
      (path_loop_iff leaf (.inl rfl) (.inl rfl)).2 (mem_kstar_of_mem segment)
    rw [← mem_language, language_loop wf]
    exact mem_kstar_of_mem ⟨_, _, .inl rfl, .inl rfl, path_concat_entry leaf.loop around⟩
  · rintro ⟨pieces, whole, all⟩
    have last : ∀ piece ∈ pieces, (98 : Symbol) ∈ piece := by
      intro piece mem
      have word := all piece mem
      rw [language_concat (wellFormed_literal 97).loop (wellFormed_literal 98),
        Language.mem_mul] at word
      obtain ⟨u, _, v, back, rfl⟩ := word
      rw [mem_language_literal.1 back]
      simp
    cases pieces with
    | nil => cases whole
    | cons piece pieces =>
      have mem : (98 : Symbol) ∈ (piece :: pieces).flatten :=
        List.mem_append_left _ (last piece List.mem_cons_self)
      rw [← whole] at mem
      revert mem
      decide

end Fragment

end FragmentAlgebra
