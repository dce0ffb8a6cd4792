import FragmentAlgebra.Proofs.Acceptance
import FragmentAlgebra.Proofs.Merging

/-! # Products and sums of fragments

Seen from the operands, `concat` adds one epsilon edge between two arenas that share no edge, and
`union` adds a fresh entry before and a fresh exit behind them. Both keep well-formedness. A path
of the product is a path of one operand or crosses the one new edge; a path of the sum that has
left the fresh entry runs in one operand until it steps to the fresh exit. This gives the languages

* `language_concat`: the product, with the words of the first operand in front;
* `language_union`: the sum.
-/

namespace FragmentAlgebra

namespace Fragment

variable {a b : Fragment} {m : Merged} {da db p q r : Nat} {label : Option Symbol}
  {word : List Symbol}

/-! ## Operands inside a wiring -/

/-- Every edge of the arena is an edge of the fragment. -/
def Extends (f : Fragment) (states : Array State) : Prop :=
  ∀ q label r, EdgeIn states q label r → f.Edge q label r

namespace Layout

theorem map_first (lay : Layout a b m da db) {g : Fragment} (wiring : g.Extends m.states)
    (path : a.Path q word r) : g.Path (q + da) word (r + da) :=
  path.map (· + da) fun _ _ r edge =>
    wiring _ _ _ ((lay.edge_first edge.lt_count).2 ⟨r, rfl, edge⟩)

theorem map_second (lay : Layout a b m da db) {g : Fragment} (wiring : g.Extends m.states)
    (path : b.Path q word r) : g.Path (q + db) word (r + db) :=
  lay.swap.map_first wiring path

theorem edge_lt (lay : Layout a b m da db) (wa : a.WellFormed) (wb : b.WellFormed)
    (edge : EdgeIn m.states q label r) : r < m.states.size := by
  obtain ⟨state, at_q, _⟩ := id edge
  rcases lay.cases_of_lt (Array.getElem?_eq_some_iff.1 at_q).1 with ⟨p, hp, rfl⟩ | ⟨p, hp, rfl⟩
  · obtain ⟨s, rfl, inner⟩ := (lay.edge_first hp).1 edge
    exact lay.first_lt (wa.edge_lt inner)
  · obtain ⟨s, rfl, inner⟩ := (lay.edge_second hp).1 edge
    exact lay.second_lt (wb.edge_lt inner)

theorem final_iff (lay : Layout a b m da db) (wa : a.WellFormed) (wb : b.WellFormed) :
    FinalIn m.states q ↔ q = a.exit + da ∨ q = b.exit + db := by
  constructor
  · intro final
    obtain ⟨state, at_q, _⟩ := id final
    rcases lay.cases_of_lt (Array.getElem?_eq_some_iff.1 at_q).1 with ⟨p, hp, rfl⟩ | ⟨p, hp, rfl⟩
    · exact .inl (congrArg (· + da) (wa.isFinal_iff.1 ((lay.final_first hp).1 final)))
    · exact .inr (congrArg (· + db) (wb.isFinal_iff.1 ((lay.final_second hp).1 final)))
  · rintro (rfl | rfl)
    · exact (lay.final_first wa.exit_lt).2 (wa.isFinal_iff.2 rfl)
    · exact (lay.final_second wb.exit_lt).2 (wb.isFinal_iff.2 rfl)

/-! ## Products -/

theorem edge_concatMerged (lay : Layout a b m da db) (wa : a.WellFormed) :
    (concatMerged m).Edge q label r ↔
      EdgeIn m.states q label r ∨ q = a.exit + da ∧ label = none ∧ r = b.entry + db := by
  have inside := lay.first_lt wa.exit_lt
  rw [← lay.first_exit] at inside
  rw [← lay.first_exit, ← lay.second_entry]
  exact edgeIn_leadOn inside

theorem extends_concatMerged (lay : Layout a b m da db) (wa : a.WellFormed) :
    (concatMerged m).Extends m.states :=
  fun _ _ _ edge => (lay.edge_concatMerged wa).2 (.inl edge)

theorem bridge_concatMerged (lay : Layout a b m da db) (wa : a.WellFormed) :
    (concatMerged m).Edge (a.exit + da) none (b.entry + db) :=
  (lay.edge_concatMerged wa).2 (.inr ⟨rfl, rfl, rfl⟩)

theorem isFinal_concatMerged (lay : Layout a b m da db) (wa : a.WellFormed) (wb : b.WellFormed) :
    (concatMerged m).IsFinal q ↔ q = b.exit + db := by
  have apart := lay.ne wa.exit_lt wb.exit_lt
  have h : (concatMerged m).IsFinal q ↔ FinalIn m.states q ∧ q ≠ m.first.exit := finalIn_leadOn
  rw [h, lay.final_iff wa wb, lay.first_exit]
  constructor
  · rintro ⟨rfl | rfl, ne⟩
    · exact absurd rfl ne
    · rfl
  · rintro rfl
    exact ⟨.inr rfl, apart.symm⟩

theorem wellFormed_concatMerged (lay : Layout a b m da db) (wa : a.WellFormed)
    (wb : b.WellFormed) : (concatMerged m).WellFormed := by
  have size : (concatMerged m).count = m.states.size := size_leadOn
  have entry : (concatMerged m).entry = a.entry + da := lay.first_entry
  have exit : (concatMerged m).exit = b.exit + db := lay.second_exit
  refine wellFormed_iff.2 ⟨⟨?_, ?_⟩, ?_, ?_⟩
  · rw [size, entry]
    exact lay.first_lt wa.entry_lt
  · intro q label r edge
    rw [size]
    rcases (lay.edge_concatMerged wa).1 edge with edge | ⟨_, _, rfl⟩
    · exact lay.edge_lt wa wb edge
    · exact lay.second_lt wb.entry_lt
  · rw [size, exit]
    exact lay.second_lt wb.exit_lt
  · intro q
    rw [exit]
    exact lay.isFinal_concatMerged wa wb

theorem path_concatMerged_second (lay : Layout a b m da db) (wa : a.WellFormed)
    (wb : b.WellFormed) (hp : p < b.count) (path : (concatMerged m).Path (p + db) word q) :
    ∃ r, q = r + db ∧ b.Path p word r := by
  have edges : ∀ p < b.count, ∀ label z, (concatMerged m).Edge (p + db) label z →
      (∃ r, z = r + db ∧ b.Edge p label r) ∨ label = none ∧ False := by
    intro p hp label z edge
    rcases (lay.edge_concatMerged wa).1 edge with edge | ⟨same, _⟩
    · exact .inl ((lay.edge_second hp).1 edge)
    · exact absurd same.symm (lay.ne wa.exit_lt hp)
  rcases Path.escape wb.inRange edges hp path with inner | ⟨_, _, _, _, _, _, out, _⟩
  · exact inner
  · exact out.elim

/-- A path of the product that starts in the first operand stays there or crosses over once, from the
exit of the first operand to the entry of the second: there is no other way out. -/
theorem path_concatMerged_first (lay : Layout a b m da db) (wa : a.WellFormed)
    (wb : b.WellFormed) (hq : q < a.count) (path : (concatMerged m).Path (q + da) word p) :
    (∃ r, p = r + da ∧ a.Path q word r) ∨
      ∃ u v r, word = u ++ v ∧ p = r + db ∧ a.Path q u a.exit ∧ b.Path b.entry v r := by
  have edges : ∀ q < a.count, ∀ label z, (concatMerged m).Edge (q + da) label z →
      (∃ r, z = r + da ∧ a.Edge q label r) ∨ label = none ∧ q = a.exit ∧ z = b.entry + db := by
    intro q hq label z edge
    rcases (lay.edge_concatMerged wa).1 edge with edge | ⟨same, rfl, rfl⟩
    · exact .inl ((lay.edge_first hq).1 edge)
    · exact .inr ⟨rfl, Nat.add_right_cancel same, rfl⟩
  rcases Path.escape wa.inRange edges hq path with
    inner | ⟨u, v, r, z, rfl, front, ⟨rfl, rfl⟩, back⟩
  · exact .inl inner
  · obtain ⟨r, rfl, rest⟩ := lay.path_concatMerged_second wa wb wb.entry_lt back
    exact .inr ⟨u, v, r, rfl, rfl, front, rest⟩

/-! ## Sums -/

/-- The edges around the operands of a sum: out of the fresh entry and into the fresh exit. -/
def Bracket (a b : Fragment) (da db size q r : Nat) : Prop :=
  q = size ∧ (r = a.entry + da ∨ r = b.entry + db) ∨
    (q = a.exit + da ∨ q = b.exit + db) ∧ r = size + 1

/-- One equivalence for each step of the wiring, the last one first; each wants its origin inside. -/
theorem edge_unionMerged (lay : Layout a b m da db) (wa : a.WellFormed) (wb : b.WellFormed) :
    (unionMerged m).Edge q label r ↔
      EdgeIn m.states q label r ∨ label = none ∧ Bracket a b da db m.states.size q r := by
  have first_exit := lay.first_lt wa.exit_lt
  have second_exit := lay.second_lt wb.exit_lt
  rw [← lay.first_exit] at first_exit
  rw [← lay.second_exit] at second_exit
  rw [Bracket, ← lay.first_exit, ← lay.first_entry, ← lay.second_exit, ← lay.second_entry]
  have wiring : (unionMerged m).Edge q label r ↔ EdgeIn (unionMerged m).states q label r := Iff.rfl
  rw [wiring, unionMerged, edgeIn_setFinal, edgeIn_leadOn, edgeIn_link, edgeIn_leadOn, edgeIn_link,
    edgeIn_push_blank, edgeIn_push_blank]
  · grind
  all_goals simp
  all_goals omega

theorem extends_unionMerged (lay : Layout a b m da db) (wa : a.WellFormed) (wb : b.WellFormed) :
    (unionMerged m).Extends m.states :=
  fun _ _ _ edge => (lay.edge_unionMerged wa wb).2 (.inl edge)

theorem bracket_unionMerged (lay : Layout a b m da db) (wa : a.WellFormed) (wb : b.WellFormed)
    (edge : Bracket a b da db m.states.size q r) : (unionMerged m).Edge q none r :=
  (lay.edge_unionMerged wa wb).2 (.inr ⟨rfl, edge⟩)

theorem isFinal_unionMerged (lay : Layout a b m da db) (wa : a.WellFormed) (wb : b.WellFormed) :
    (unionMerged m).IsFinal q ↔ q = m.states.size + 1 := by
  have wiring : (unionMerged m).IsFinal q ↔ FinalIn (unionMerged m).states q := Iff.rfl
  rw [wiring, unionMerged, finalIn_setFinal_true, finalIn_leadOn, finalIn_link, finalIn_leadOn,
    finalIn_link, finalIn_push_blank, finalIn_push_blank, lay.final_iff wa wb, lay.first_exit,
    lay.second_exit]
  · tauto
  · simp

theorem size_unionMerged : (unionMerged m).count = m.states.size + 2 := by
  simp [unionMerged, count]

theorem wellFormed_unionMerged (lay : Layout a b m da db) (wa : a.WellFormed)
    (wb : b.WellFormed) : (unionMerged m).WellFormed := by
  have entry : (unionMerged m).entry = m.states.size := rfl
  have exit : (unionMerged m).exit = m.states.size + 1 := rfl
  refine wellFormed_iff.2 ⟨⟨?_, ?_⟩, ?_, ?_⟩
  · rw [size_unionMerged, entry]
    exact Nat.lt_add_of_pos_right Nat.two_pos
  · intro q label r edge
    rw [size_unionMerged]
    rcases (lay.edge_unionMerged wa wb).1 edge with inner | ⟨_, ⟨_, rfl | rfl⟩ | ⟨_, rfl⟩⟩
    · exact Nat.lt_add_right 2 (lay.edge_lt wa wb inner)
    · exact Nat.lt_add_right 2 (lay.first_lt wa.entry_lt)
    · exact Nat.lt_add_right 2 (lay.second_lt wb.entry_lt)
    · exact Nat.lt_succ_self _
  · rw [size_unionMerged, exit]
    exact Nat.lt_succ_self _
  · intro q
    rw [exit]
    exact lay.isFinal_unionMerged wa wb

theorem isolated_unionMerged (lay : Layout a b m da db) (wa : a.WellFormed) (wb : b.WellFormed) :
    (unionMerged m).Isolated where
  entry q label edge := by
    rcases (lay.edge_unionMerged wa wb).1 edge with inner | ⟨_, ⟨_, same | same⟩ | ⟨_, same⟩⟩
    · exact lt_irrefl _ (lay.edge_lt wa wb inner)
    · exact absurd same.symm (lay.first_lt wa.entry_lt).ne
    · exact absurd same.symm (lay.second_lt wb.entry_lt).ne
    · exact absurd same (Nat.lt_succ_self _).ne
  exit label q edge := by
    have exit : (unionMerged m).exit = m.states.size + 1 := rfl
    rw [exit] at edge
    rcases (lay.edge_unionMerged wa wb).1 edge with inner | ⟨_, ⟨same, _⟩ | ⟨same | same, _⟩⟩
    · obtain ⟨state, at_exit, _⟩ := inner
      have lt := (Array.getElem?_eq_some_iff.1 at_exit).1
      omega
    · omega
    · have lt := lay.first_lt wa.exit_lt
      omega
    · have lt := lay.second_lt wb.exit_lt
      omega

theorem path_unionMerged_exit (lay : Layout a b m da db) (wa : a.WellFormed) (wb : b.WellFormed)
    (path : (unionMerged m).Path (m.states.size + 1) word q) :
    word = [] ∧ q = m.states.size + 1 :=
  path.eq_of_no_edge_out (lay.isolated_unionMerged wa wb).exit

/-- The edges of the sum that leave the states of an operand `x`, which stands from `d` on. -/
def LeadsOut (x : Fragment) (m : Merged) (d : Nat) : Prop :=
  ∀ q < x.count, ∀ label z, (unionMerged m).Edge (q + d) label z →
    (∃ r, z = r + d ∧ x.Edge q label r) ∨ label = none ∧ q = x.exit ∧ z = m.states.size + 1

theorem leadsOut_first (lay : Layout a b m da db) (wa : a.WellFormed) (wb : b.WellFormed) :
    LeadsOut a m da := by
  intro q hq label z edge
  rcases (lay.edge_unionMerged wa wb).1 edge with inner | ⟨rfl, ⟨same, _⟩ | ⟨same | same, rfl⟩⟩
  · exact .inl ((lay.edge_first hq).1 inner)
  · exact absurd same (lay.first_lt hq).ne
  · exact .inr ⟨rfl, Nat.add_right_cancel same, rfl⟩
  · exact absurd same (lay.ne hq wb.exit_lt)

theorem leadsOut_second (lay : Layout a b m da db) (wa : a.WellFormed) (wb : b.WellFormed) :
    LeadsOut b m db := by
  intro q hq label z edge
  rcases (lay.edge_unionMerged wa wb).1 edge with inner | ⟨rfl, ⟨same, _⟩ | ⟨same | same, rfl⟩⟩
  · exact .inl ((lay.edge_second hq).1 inner)
  · exact absurd same (lay.second_lt hq).ne
  · exact absurd same.symm (lay.ne wa.exit_lt hq)
  · exact .inr ⟨rfl, Nat.add_right_cancel same, rfl⟩

/-- A path of the sum that starts in an operand stays there or ends at the fresh exit. -/
theorem path_unionMerged (lay : Layout a b m da db) (wa : a.WellFormed) (wb : b.WellFormed)
    {x : Fragment} {d : Nat} (wx : x.WellFormed) (out : LeadsOut x m d) (hq : q < x.count)
    (path : (unionMerged m).Path (q + d) word p) :
    (∃ r, p = r + d ∧ x.Path q word r) ∨ p = m.states.size + 1 ∧ x.Path q word x.exit := by
  rcases Path.escape wx.inRange out hq path with
    inner | ⟨u, v, r, z, rfl, front, ⟨rfl, rfl⟩, back⟩
  · exact .inl inner
  · obtain ⟨rfl, rfl⟩ := lay.path_unionMerged_exit wa wb back
    rw [List.append_nil]
    exact .inr ⟨rfl, front⟩

theorem path_unionMerged_iff (lay : Layout a b m da db) (wa : a.WellFormed) (wb : b.WellFormed) :
    (unionMerged m).Path m.states.size word (m.states.size + 1) ↔
      a.Path a.entry word a.exit ∨ b.Path b.entry word b.exit := by
  have wiring := lay.extends_unionMerged wa wb
  have bracket {q r : Nat} (edge : Bracket a b da db m.states.size q r) :=
    lay.bracket_unionMerged wa wb edge
  constructor
  · intro path
    rcases path.cases_head with ⟨_, same⟩ | ⟨label, p, rest, rfl, edge, path⟩
    · exact absurd same (Nat.lt_succ_self _).ne
    · rcases (lay.edge_unionMerged wa wb).1 edge with
        inner | ⟨rfl, ⟨_, rfl | rfl⟩ | ⟨same | same, _⟩⟩
      · obtain ⟨state, at_entry, _⟩ := inner
        exact absurd (Array.getElem?_eq_some_iff.1 at_entry).1 (lt_irrefl _)
      · rcases lay.path_unionMerged wa wb wa (lay.leadsOut_first wa wb) wa.entry_lt path with
          ⟨r, same, inner⟩ | ⟨_, inner⟩
        · have lt := lay.first_lt (inner.lt_count wa.inRange wa.entry_lt)
          omega
        · exact .inl inner
      · rcases lay.path_unionMerged wa wb wb (lay.leadsOut_second wa wb) wb.entry_lt path with
          ⟨r, same, inner⟩ | ⟨_, inner⟩
        · have lt := lay.second_lt (inner.lt_count wb.inRange wb.entry_lt)
          omega
        · exact .inr inner
      · exact absurd same.symm (lay.first_lt wa.exit_lt).ne
      · exact absurd same.symm (lay.second_lt wb.exit_lt).ne
  · rintro (path | path)
    · have inner := lay.map_first wiring path
      have front := Path.cons (bracket (.inl ⟨rfl, .inl rfl⟩)) inner
      simpa using front.snoc (bracket (.inr ⟨.inl rfl, rfl⟩))
    · have inner := lay.map_second wiring path
      have front := Path.cons (bracket (.inl ⟨rfl, .inr rfl⟩)) inner
      simpa using front.snoc (bracket (.inr ⟨.inr rfl, rfl⟩))

theorem path_concatMerged_iff (lay : Layout a b m da db) (wa : a.WellFormed)
    (wb : b.WellFormed) : (concatMerged m).Path (a.entry + da) word (b.exit + db) ↔
      ∃ u v, word = u ++ v ∧ a.Path a.entry u a.exit ∧ b.Path b.entry v b.exit := by
  constructor
  · intro path
    rcases lay.path_concatMerged_first wa wb wa.entry_lt path with
      ⟨r, same, inner⟩ | ⟨u, v, r, rfl, same, front, back⟩
    · have lt := inner.lt_count wa.inRange wa.entry_lt
      exact absurd same.symm (lay.ne lt wb.exit_lt)
    · obtain rfl : b.exit = r := Nat.add_right_cancel same
      exact ⟨u, v, rfl, front, back⟩
  · rintro ⟨u, v, rfl, front, back⟩
    have wiring := lay.extends_concatMerged wa
    have crossed := (lay.map_first wiring front).snoc (lay.bridge_concatMerged wa)
    simpa using crossed.trans (lay.map_second wiring back)

end Layout

/-! ## The combinators -/

theorem WellFormed.concat (wa : a.WellFormed) (wb : b.WellFormed) : (a.concat b).WellFormed := by
  obtain ⟨da, db, lay⟩ := merge_layout a b
  exact lay.wellFormed_concatMerged wa wb

theorem WellFormed.union (wa : a.WellFormed) (wb : b.WellFormed) : (a.union b).WellFormed := by
  obtain ⟨da, db, lay⟩ := merge_layout a b
  exact lay.wellFormed_unionMerged wa wb

theorem isolated_union (wa : a.WellFormed) (wb : b.WellFormed) : (a.union b).Isolated := by
  obtain ⟨da, db, lay⟩ := merge_layout a b
  exact lay.isolated_unionMerged wa wb

theorem language_concat (wa : a.WellFormed) (wb : b.WellFormed) :
    (a.concat b).language = a.language * b.language := by
  obtain ⟨da, db, lay⟩ := merge_layout a b
  have entry : (a.concat b).entry = a.entry + da := lay.first_entry
  have exit : (a.concat b).exit = b.exit + db := lay.second_exit
  ext word
  rw [(wa.concat wb).mem_language_iff_path, entry, exit, Language.mem_mul]
  refine (lay.path_concatMerged_iff wa wb).trans ?_
  simp only [wa.mem_language_iff_path, wb.mem_language_iff_path]
  constructor
  · rintro ⟨u, v, rfl, front, back⟩
    exact ⟨u, front, v, back, rfl⟩
  · rintro ⟨u, front, v, back, rfl⟩
    exact ⟨u, v, rfl, front, back⟩

theorem language_union (wa : a.WellFormed) (wb : b.WellFormed) :
    (a.union b).language = a.language + b.language := by
  obtain ⟨da, db, lay⟩ := merge_layout a b
  ext word
  rw [(wa.union wb).mem_language_iff_path, Language.mem_add, wa.mem_language_iff_path,
    wb.mem_language_iff_path]
  exact lay.path_unionMerged_iff wa wb

end Fragment

end FragmentAlgebra
