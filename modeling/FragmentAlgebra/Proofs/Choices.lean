import FragmentAlgebra.Proofs.Paths
import FragmentAlgebra.Walk.Basic

/-! # Choices of a walk

`Always choice post` says that `choice` ends in `post` whatever words the source hands out; it goes
through the binds of a choice one by one. In this sense

* `always_below`: `Random.below n` is an index below `n`. A carry from the second word cannot reach
  `n`, since at the last index the low half never asks for a second word;
* `always_pick`: one of the targets is picked;
* `always_chooseMove`: a move follows an edge of its state.
-/

namespace FragmentAlgebra

variable {σ α β : Type}

/-! ## Whatever the words are -/

/-- Whatever words the source hands out, the outcome has the property. -/
def Always (choice : StateM σ α) (post : α → Prop) : Prop :=
  ∀ source, post (choice.run source).1

namespace Always

variable {choice : StateM σ α} {rest : α → StateM σ β} {mid : α → Prop} {post : β → Prop}

theorem pure {a : α} {post : α → Prop} (h : post a) : Always (Pure.pure a : StateM σ α) post :=
  fun _ => h

theorem bind (first : Always choice mid) (second : ∀ a, mid a → Always (rest a) post) :
    Always (choice >>= rest) post :=
  fun source => second _ (first source) _

theorem bind_congr {rest' : α → StateM σ β} (first : Always choice mid)
    (same : ∀ a, mid a → rest a = rest' a) : choice >>= rest = choice >>= rest' :=
  funext fun source => congrFun (same _ (first source)) _

theorem bind_any (second : ∀ a, Always (rest a) post) : Always (choice >>= rest) post :=
  bind (fun _ => trivial) fun a (_ : True) => second a

theorem ite {c : Prop} [Decidable c] {x y : StateM σ β} (yes : c → Always x post)
    (no : ¬ c → Always y post) : Always (if c then x else y) post := by
  split
  · exact yes ‹_›
  · exact no ‹_›

end Always

theorem run_bind_fst {choice : StateM σ α} {rest : α → StateM σ β} {source : σ} {a : α}
    (first : (choice.run source).1 = a) :
    ((choice >>= rest).run source).1 = ((rest a).run (choice.run source).2).1 := by
  subst first
  rfl

variable [RandomSource σ]

/-! ## Indices -/

theorem index_lt {n first : Nat} (pos : 0 < n) (word : first < 2 ^ 32) :
    first * n / 2 ^ 32 < n := by
  have scaled : first * n < 2 ^ 32 * n := Nat.mul_lt_mul_of_pos_right word pos
  exact Nat.div_lt_of_lt_mul scaled

/-- A carry does not lead beyond the last index: `n - 1` times `2 ^ 32` leaves at most `2 ^ 32 - n` of
the greatest product, so there is no room for a carry behind the last index. -/
theorem index_succ_lt {n first : Nat} (word : first < 2 ^ 32)
    (room : ¬ first * n % 2 ^ 32 ≤ 2 ^ 32 - n) : first * n / 2 ^ 32 + 1 < n := by
  have bound : first ≤ 2 ^ 32 - 1 := by omega
  have scaled : first * n ≤ (2 ^ 32 - 1) * n := Nat.mul_le_mul_right n bound
  generalize first * n = x at *
  omega

theorem always_below {n : Nat} (pos : 0 < n) : Always (Random.below n : StateM σ Nat) (· < n) := by
  apply Always.bind_any
  intro first
  have word : first.toNat < 2 ^ 32 := UInt32.toNat_lt first
  have low := index_lt pos word
  apply Always.ite
  · intro _
    exact .pure low
  · intro room
    apply Always.bind_any
    intro second
    apply Always.pure
    split
    · exact index_succ_lt word room
    · exact low

/-! ## A coin that never comes up -/

theorem always_flip_false {p : Binary64} (uncertain : p ≠ .one)
    (none_below : p.threshold = 0) : Always (Random.flip p : StateM σ Bool) (· = false) := by
  rw [Random.flip, if_neg uncertain, none_below]
  apply Always.bind_any
  intro word
  exact .pure (by simp)

namespace Walk

variable {q : StateId} {state : State}

theorem always_pick {targets : List StateId} (full : targets ≠ []) :
    Always (pick targets : StateM σ StateId) (· ∈ targets) := by
  have pos : 0 < targets.length := List.length_pos_iff.2 full
  unfold pick
  refine .bind (always_below pos) ?_
  intro index lt
  have found : targets.getD index 0 = targets[index] := by simp [lt]
  apply Always.pure
  rw [found]
  exact List.getElem_mem lt

/-! ## Moves -/

/-- The move leads from `q`, where `state` stands, to one of the targets under its label. -/
inductive Follows (q : StateId) (state : State) : Move → Prop
  | consume {symbol : Symbol} {target : StateId} (mem : target ∈ state.targets symbol) :
      Follows q state (.consume q symbol target)
  | skip {target : StateId} (mem : target ∈ state.epsilon) : Follows q state (.skip q target)

theorem Follows.edge {move : Move} (follows : Follows q state move) {f : Fragment}
    (at_q : f.state? q = some state) : f.Edge q move.symbol? move.target := by
  cases follows with
  | consume mem => exact ⟨state, at_q, mem⟩
  | skip mem => exact ⟨state, at_q, mem⟩

theorem always_chooseSkip (p : Binary64) :
    Always (chooseSkip p q state : StateM σ (Option Move)) (∀ move ∈ ·, Follows q state move) := by
  have none_follows : ∀ move ∈ (none : Option Move), Follows q state move := by simp
  apply Always.ite
  · intro _
    exact .pure none_follows
  · intro full
    apply Always.bind_any
    intro taken
    apply Always.ite
    · intro _
      refine .bind (always_pick (by simpa using full)) ?_
      intro target mem
      apply Always.pure
      simpa using Follows.skip mem
    · intro _
      exact .pure none_follows

theorem always_chooseFrom (p : Binary64) {rows : List EdgeRow}
    (known : ∀ row ∈ rows, row ∈ state.edges.rows) :
    Always (chooseFrom p q state rows : StateM σ (Option Move))
      (∀ move ∈ ·, Follows q state move) := by
  induction rows with
  | nil => exact always_chooseSkip p
  | cons row rows ih =>
    obtain ⟨symbol, targets⟩ := row
    rw [List.forall_mem_cons] at known
    have full : targets ≠ [] := state.edges.ordered.2 _ known.1
    have same : state.targets symbol = targets := state.edges.ordered.rowTargets_of_mem known.1
    apply Always.bind_any
    intro taken
    apply Always.ite
    · intro _
      refine .bind (always_pick full) ?_
      intro target mem
      rw [← same] at mem
      apply Always.pure
      simpa using Follows.consume mem
    · intro _
      exact ih known.2

theorem always_chooseMove (p : Binary64) (q : StateId) (state : State) :
    Always (chooseMove p q state : StateM σ (Option Move)) (∀ move ∈ ·, Follows q state move) :=
  always_chooseFrom p fun _ mem => mem

/-! ## Coins that come up or not -/

theorem isSome_chooseMove {p : Binary64} {source : σ} (edges : state.hasEdges = true)
    (wins : ((Random.flip p : StateM σ Bool).run source).1 = true) :
    ((chooseMove p q state).run source).1.isSome = true := by
  unfold chooseMove
  cases rows : state.edges.rows with
  | nil =>
    have full : ¬ state.epsilon.isEmpty = true := by
      simpa [State.hasEdges, EdgeTable.isEmpty, rows] using edges
    rw [chooseFrom, chooseSkip, if_neg full, run_bind_fst wins, if_pos rfl]
    rfl
  | cons row rows =>
    obtain ⟨symbol, targets⟩ := row
    rw [chooseFrom, run_bind_fst wins, if_pos rfl]
    rfl

theorem always_chooseMove_none {p : Binary64}
    (loses : Always (Random.flip p : StateM σ Bool) (· = false)) (q : StateId) (state : State) :
    Always (chooseMove p q state : StateM σ (Option Move)) (· = none) := by
  unfold chooseMove
  induction state.edges.rows with
  | nil =>
    apply Always.ite
    · intro _
      exact .pure rfl
    · intro _
      refine loses.bind ?_
      rintro _ rfl
      exact .pure rfl
  | cons row rows ih =>
    refine loses.bind ?_
    rintro _ rfl
    exact ih

theorem always_chooseStop (p : Binary64) (state : State) :
    Always (chooseStop p state : StateM σ Bool) fun stop =>
      (stop = true → state.isFinal = true) ∧
        (¬ stop = true → state.isFinal = true → state.hasEdges = true) := by
  apply Always.ite
  · intro final
    apply Always.ite
    · intro edges source
      exact ⟨fun _ => final, fun _ _ => edges⟩
    · intro _
      apply Always.pure
      simp [final]
  · intro not_final
    apply Always.pure
    simp [not_final]

end Walk

end FragmentAlgebra
