import FragmentAlgebra.Proofs.Coins
import FragmentAlgebra.Proofs.Walks

/-! # Words that steer a walk

`Yields choice a` says that some words make a choice end in `a`, whatever follows them on the tape;
it goes through the binds of a choice one by one. In this sense

* `yields_flip`: an undecided coin falls either way;
* `yields_below`: every index is drawn;
* `yields_chooseMove`: every move that follows an edge is chosen, which is the converse of
  `always_chooseMove`;
* `emits_of_path`: every path to a final state is walked, and its word emitted.
-/

namespace FragmentAlgebra

variable {α β : Type}

/-! ## Reading from the front of a tape -/

namespace Tape

variable {tape : Tape} {word : UInt64} {rest : List UInt64}

/-- The words that are left before the tape starts again. -/
def ahead (tape : Tape) : List UInt64 := tape.words.toList.drop tape.taken

theorem ahead_ofList (words : List UInt64) : (ofList words).ahead = words := by
  simp [ahead, ofList]

theorem ahead_advance (front : tape.ahead = word :: rest) : tape.advance.ahead = rest := by
  have behind : tape.advance.ahead = tape.ahead.drop 1 := by simp [ahead, advance]
  rw [behind, front, List.drop_one, List.tail_cons]

theorem next_of_ahead (front : tape.ahead = word :: rest) : tape.next = word := by
  have at_taken : tape.words[tape.taken]? = some word := by
    have head : tape.ahead[0]? = some word := by rw [front]; rfl
    simpa [ahead] using head
  have inside := (Array.getElem?_eq_some_iff.1 at_taken).1
  simp [next, Nat.mod_eq_of_lt inside, at_taken]

end Tape

/-- Some words make the choice end in `a`, whatever follows them. -/
def Yields (choice : StateM Tape α) (a : α) : Prop :=
  ∃ words, ∀ tape rest, Tape.ahead tape = words ++ rest →
    (choice.run tape).1 = a ∧ (choice.run tape).2.ahead = rest

namespace Yields

variable {choice : StateM Tape α} {rest : α → StateM Tape β} {a : α} {b : β}

theorem pure (a : α) : Yields (Pure.pure a) a := ⟨[], fun _ _ front => ⟨rfl, front⟩⟩

theorem bind (first : Yields choice a) (second : Yields (rest a) b) :
    Yields (choice >>= rest) b := by
  obtain ⟨words, first⟩ := first
  obtain ⟨later, second⟩ := second
  refine ⟨words ++ later, fun tape tail front => ?_⟩
  rw [List.append_assoc] at front
  obtain ⟨value, behind⟩ := first tape _ front
  have run : (choice >>= rest).run tape = (rest (choice.run tape).1).run (choice.run tape).2 := rfl
  rw [run, value]
  exact second _ _ behind

theorem word (w : UInt64) : Yields RandomSource.word w :=
  ⟨[w], fun _ _ front => ⟨Tape.next_of_ahead front, Tape.ahead_advance front⟩⟩

theorem halfWord (w : UInt32) : Yields RandomSource.halfWord w := by
  refine ⟨[w.toUInt64], fun tape rest front => ⟨?_, Tape.ahead_advance front⟩⟩
  have next := congrArg UInt64.toUInt32 (Tape.next_of_ahead front)
  exact next.trans (by simp)

end Yields

/-! ## Coins and indices -/

theorem yields_flip_true {p : Binary64} (wins : p = .one ∨ 1 ≤ p.threshold) :
    Yields (Random.flip p) true := by
  unfold Random.flip
  split
  case isTrue certain => exact .pure true
  case isFalse uncertain =>
    have low : decide ((0 : UInt64).toNat < p.threshold) = true := by
      have pos := wins.resolve_left uncertain
      simp; omega
    exact (Yields.word 0).bind (low ▸ .pure _)

theorem yields_flip {p : Binary64} (h : p.Undecided) (b : Bool) : Yields (Random.flip p) b := by
  cases b with
  | true => exact yields_flip_true (.inr h.threshold_pos)
  | false =>
    rw [Random.flip, if_neg h.ne_one]
    have loses : decide ((-1 : UInt64).toNat < p.threshold) = false := by
      have lt := h.threshold_lt
      have greatest : (-1 : UInt64).toNat = 2 ^ 64 - 1 := rfl
      rw [greatest, decide_eq_false_iff_not]
      omega
    exact (Yields.word (-1)).bind (loses ▸ .pure _)

/-- The least word whose index is `k` leaves a low half below `n`. -/
theorem exists_first_word {n k : Nat} (lt : k < n) (short : n ≤ 2 ^ 32) :
    ∃ first < 2 ^ 32, first * n / 2 ^ 32 = k ∧ first * n % 2 ^ 32 < n := by
  have pos : 0 < n := Nat.zero_lt_of_lt lt
  let first := (k * 2 ^ 32 + (n - 1)) / n
  have upper : first * n ≤ k * 2 ^ 32 + (n - 1) := Nat.div_mul_le_self _ _
  have lower : k * 2 ^ 32 + (n - 1) < first * n + n := Nat.lt_div_mul_add pos
  have bound : first < 2 ^ 32 := by
    have scaled : first * n < 2 ^ 32 * n := by omega
    exact Nat.lt_of_mul_lt_mul_right scaled
  refine ⟨first, bound, ?_⟩
  generalize first * n = product at upper lower
  omega

/-- Every index is drawn on some words. If a second word is asked for, the word zero carries nothing
into the index. -/
theorem yields_below {n k : Nat} (lt : k < n) (short : n ≤ 2 ^ 32) :
    Yields (Random.below n) k := by
  obtain ⟨first, bound, index, low⟩ := exists_first_word lt short
  have value : (UInt32.ofNat first).toNat = first := UInt32.toNat_ofNat_of_lt' bound
  unfold Random.below
  refine (Yields.halfWord (UInt32.ofNat first)).bind ?_
  rw [value, index]
  dsimp only
  split
  · exact .pure k
  · refine (Yields.halfWord 0).bind ?_
    have no_carry : ¬ 2 ^ 32 ≤ first * n % 2 ^ 32 + (0 : UInt32).toNat * n / 2 ^ 32 := by
      simp
      omega
    rw [if_neg no_carry]
    exact .pure k

namespace Walk

variable {p : Binary64} {q : StateId} {state : State} {target : StateId}

theorem yields_pick {targets : List StateId} (mem : target ∈ targets)
    (short : targets.length < 2 ^ 32) : Yields (pick targets) target := by
  obtain ⟨index, lt, found⟩ := List.mem_iff_getElem.1 mem
  refine (yields_below lt short.le).bind ?_
  have picked : targets.getD index 0 = target := by simp [lt, found]
  rw [picked]
  exact .pure target

/-! ## Moves -/

/-- No list of targets is too long for a 32-bit word to index. -/
def Short (state : State) : Prop := ∀ label, (state.successors label).length < 2 ^ 32

theorem yields_chooseSkip (coin : p.Undecided) (short : Short state)
    (mem : target ∈ state.epsilon) : Yields (chooseSkip p q state) (some (.skip q target)) := by
  have full : ¬ state.epsilon.isEmpty = true := by
    intro empty
    simp [List.isEmpty_iff.1 empty] at mem
  rw [chooseSkip, if_neg full]
  refine (yields_flip coin true).bind ?_
  rw [if_pos rfl]
  exact (yields_pick mem (short none)).bind (.pure _)

/-- If the coins of all rows lose, the epsilon edges decide. -/
theorem yields_chooseFrom_of_skip (coin : p.Undecided) {move : Option Move}
    (skip : Yields (chooseSkip p q state) move) (rows : List EdgeRow) :
    Yields (chooseFrom p q state rows) move := by
  induction rows with
  | nil => exact skip
  | cons row rows ih =>
    refine (yields_flip coin false).bind ?_
    exact ih

/-- A row is taken if its own coin wins and those of the rows before it lose. -/
theorem yields_chooseFrom (coin : p.Undecided) {symbol : Symbol} {targets : List StateId}
    (mem : target ∈ targets) (short : targets.length < 2 ^ 32) {rows : List EdgeRow}
    (listed : (symbol, targets) ∈ rows) :
    Yields (chooseFrom p q state rows) (some (.consume q symbol target)) := by
  induction rows with
  | nil => cases listed
  | cons row rows ih =>
    rcases List.mem_cons.1 listed with rfl | listed
    · refine (yields_flip coin true).bind ?_
      exact (yields_pick mem short).bind (.pure _)
    · refine (yields_flip coin false).bind ?_
      exact ih listed

theorem yields_chooseMove (coin : p.Undecided) (short : Short state) {move : Move}
    (follows : Follows q state move) : Yields (chooseMove p q state) (some move) := by
  cases follows with
  | @consume symbol target mem =>
    obtain ⟨targets, listed, mem⟩ := mem_rows_of_mem_rowTargets mem
    have same : state.targets symbol = targets := state.edges.ordered.rowTargets_of_mem listed
    exact yields_chooseFrom coin mem (same ▸ short (some symbol)) listed
  | skip mem => exact yields_chooseFrom_of_skip coin (yields_chooseSkip coin short mem) _

theorem yields_chooseStop (coin : p.Undecided) (final : state.isFinal = true) :
    Yields (chooseStop p state) true := by
  rw [chooseStop, if_pos final]
  split
  · exact yields_flip coin true
  · exact .pure true

theorem yields_chooseStop_false (coin : p.Undecided) (edges : state.hasEdges = true) :
    Yields (chooseStop p state) false := by
  rw [chooseStop, if_pos edges]
  split
  · exact yields_flip coin false
  · exact .pure false

theorem exists_follows {label : Option Symbol} (mem : target ∈ state.successors label) :
    ∃ move, Follows q state move ∧ move.symbol? = label ∧ move.target = target := by
  cases label with
  | none => exact ⟨.skip q target, .skip mem, rfl, rfl⟩
  | some symbol => exact ⟨.consume q symbol target, .consume mem, rfl, rfl⟩

theorem Follows.hasEdges {move : Move} (follows : Follows q state move) :
    state.hasEdges = true := by
  cases follows with
  | @consume symbol target mem =>
    have listed : target ∈ state.successors (some symbol) := mem
    exact State.hasEdges_of_mem_successors listed
  | @skip target mem =>
    have listed : target ∈ state.successors none := mem
    exact State.hasEdges_of_mem_successors listed

/-! ## One round on chosen words -/

section Rounds

variable {σ : Type} [RandomSource σ] {config : WalkConfig} {f : Fragment} {walk : Walk σ}

theorem round_of_stop {source : σ} (running : walk.status = .running)
    (within : spent config walk.steps = none) (at_current : f.state? walk.current = some state)
    (stop : (chooseStop config.stopProbability state).run walk.source = (true, source)) :
    walk.round config f =
      { walk with steps := walk.steps + 1, source, status := .complete } := by
  rw [round_eq_act running within at_current]
  simp [act, stop]

theorem round_of_move {move : Move} {source later : σ} (running : walk.status = .running)
    (within : spent config walk.steps = none) (at_current : f.state? walk.current = some state)
    (edges : state.hasEdges = true)
    (going : (chooseStop config.stopProbability state).run walk.source = (false, source))
    (moved : (chooseMove config.branchProbability walk.current state).run source =
      (some move, later)) :
    walk.round config f =
      { walk with
        steps := walk.steps + 1
        source := later
        current := move.target
        moves := move :: walk.moves } := by
  rw [round_eq_act running within at_current]
  simp [act, going, edges, moved]

end Rounds

/-! ## Whole walks -/

/-- Some words lead every walk that stands at `q` to a stop, and make it emit `word` on the way,
whatever the budget is, if it allows for the rounds that this takes. -/
def Emits (config : WalkConfig) (f : Fragment) (q : StateId) (word : List Symbol) : Prop :=
  ∃ words rounds, ∀ (budget : Option Nat) (walk : Walk Tape) (rest : List UInt64),
    walk.status = .running → walk.current = q → walk.source.ahead = words ++ rest →
      (∀ n ∈ budget, walk.steps + rounds ≤ n) →
        (walk.run { config with maxSteps := budget } f rounds).status = .complete ∧
          (walk.run { config with maxSteps := budget } f rounds).word = walk.word ++ word

variable {config : WalkConfig} {f : Fragment} {word : List Symbol}

theorem emits_stop (coin : config.stopProbability.Undecided) (final : f.IsFinal q) :
    Emits config f q [] := by
  obtain ⟨state, at_q, flag⟩ := final
  obtain ⟨words, stops⟩ := yields_chooseStop coin flag
  refine ⟨words, 1, fun budget walk rest running current front room => ?_⟩
  subst current
  have within : spent { config with maxSteps := budget } walk.steps = none := spent_eq_none room
  obtain ⟨stop, _⟩ := stops walk.source rest front
  rw [run_succ running, run, round_of_stop running within at_q (Prod.ext stop rfl)]
  exact ⟨rfl, (List.append_nil _).symm⟩

theorem Emits.cons {label : Option Symbol} {r : StateId}
    (stop : config.stopProbability.Undecided) (branch : config.branchProbability.Undecided)
    (short : ∀ state ∈ f.states, Short state) (edge : f.Edge q label r)
    (rest : Emits config f r word) : Emits config f q (label.toList ++ word) := by
  obtain ⟨state, at_q, mem⟩ := edge
  obtain ⟨move, follows, rfl, rfl⟩ := exists_follows (q := q) mem
  have sampled := short state (Array.mem_of_getElem? at_q)
  obtain ⟨going, goes⟩ := yields_chooseStop_false stop follows.hasEdges
  obtain ⟨steering, moves⟩ := yields_chooseMove branch sampled follows
  obtain ⟨later, rounds, rest⟩ := rest
  refine ⟨going ++ (steering ++ later), rounds + 1,
    fun budget walk tail running current front room => ?_⟩
  subst current
  have room : ∀ n ∈ budget, walk.steps + 1 + rounds ≤ n := by
    intro n mem
    have enough := room n mem
    omega
  have within : spent { config with maxSteps := budget } walk.steps = none := by
    refine spent_eq_none fun n mem => ?_
    have enough := room n mem
    omega
  simp only [List.append_assoc] at front
  obtain ⟨stays, front⟩ := goes _ _ front
  obtain ⟨moved, front⟩ := moves _ _ front
  rw [run_succ running, round_of_move running within at_q follows.hasEdges
    (Prod.ext stays rfl) (Prod.ext moved rfl)]
  refine And.imp_right (fun emitted => emitted.trans ?_)
    (rest budget _ tail running rfl front room)
  rw [word_cons, List.append_assoc]
  rfl

theorem emits_of_path (stop : config.stopProbability.Undecided)
    (branch : config.branchProbability.Undecided) (short : ∀ state ∈ f.states, Short state)
    {r : StateId} (path : f.Path q word r) (final : f.IsFinal r) : Emits config f q word := by
  induction path using Fragment.Path.induct with
  | stay q => exact emits_stop stop final
  | cons edge _ ih => exact (ih final).cons stop branch short edge

end Walk

/-! ## Every accepted word is emitted -/

namespace Generator

/-- Every word that a fragment accepts is returned on some words, without a budget and under every
budget from some number of rounds on. -/
theorem exists_words_returning (config : WalkConfig) (f : Fragment)
    (short : ∀ state ∈ f.states, ∀ label, (state.successors label).length < 2 ^ 32)
    (stop : config.stopProbability.Undecided) (branch : config.branchProbability.Undecided)
    {word : List Symbol} (accepted : f.accepts word = true) :
    ∃ words rounds, ∀ budget : Option Nat, (∀ n ∈ budget, rounds ≤ n) →
      ∃ g after, ofSource { config with maxSteps := budget } (Tape.ofList words) = .ok g ∧
        g.Returns f (.ok word) after := by
  obtain ⟨r, path, final⟩ := Fragment.mem_language_iff_accepts.1 (Fragment.mem_language.2 accepted)
  obtain ⟨words, rounds, emits⟩ := Walk.emits_of_path stop branch short path final
  refine ⟨words, rounds, fun budget room => ?_⟩
  have front : (Tape.ofList words).ahead = words ++ [] := by simp [Tape.ahead_ofList]
  obtain ⟨complete, emitted⟩ :=
    emits budget (Walk.start f (.ofList words)) [] rfl rfl front (by simpa [Walk.start] using room)
  let g : Generator Tape := ⟨{ config with maxSteps := budget }, .ofList words⟩
  have valid : ofSource g.config g.source = .ok g := by
    have accepted : g.config.validate = .ok () := WalkConfig.validate_eq_ok stop branch
    rw [ofSource, accepted]
  have returns : g.Returns f (.ok (g.walk f rounds).word) _ := returns_of_complete complete
  exact ⟨g, _, valid, emitted ▸ returns⟩

theorem repeated_literal_is_returned :
    let f := (Fragment.literal 97).loop
    f.accepts [97, 97] = true ∧
      ∃ words rounds, ∀ budget : Option Nat, (∀ n ∈ budget, rounds ≤ n) →
        ∃ g after, ofSource { WalkConfig.default with maxSteps := budget } (Tape.ofList words) =
          .ok g ∧ g.Returns f (.ok [97, 97]) after := by
  intro f
  have short : ∀ state ∈ f.states, ∀ label, (state.successors label).length < 2 ^ 32 := by
    decide +kernel
  have around : f.Path 0 [97, 97] 1 :=
    .consume rfl (.head _) (.skip rfl (.head _) (.consume rfl (.head _) (.stay 1)))
  have accepted : f.accepts [97, 97] = true :=
    Fragment.mem_language_iff_accepts.2 ⟨1, around, _, rfl, rfl⟩
  have coin := Binary64.undecided_half
  exact ⟨accepted, exists_words_returning .default f short coin coin accepted⟩

end Generator

end FragmentAlgebra
