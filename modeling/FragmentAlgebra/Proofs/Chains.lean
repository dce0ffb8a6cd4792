import FragmentAlgebra.Proofs.Budgets
import FragmentAlgebra.Proofs.Words

/-! # Chains

A `Chain` is a path that has no alternative: from each of its states one edge leads on, and the last
state is final and has none. What a sequence of bytes makes is a chain, whichever of the arenas was
the larger at each merge, since a product hangs one edge in front of a chain (`chain_concat`).

A walk on a chain can only go on or wait. So the labels of its moves are always the first ones of
the chain (`OnChain`), and it completes in the round after the last of them. If the coin for the
branches is certain it never waits, and the number of rounds says how far it is
(`length_moves_walk`).
-/

namespace FragmentAlgebra

variable {σ : Type}

namespace Fragment

variable {a b f : Fragment} {q : StateId} {label : Option Symbol} {labels : List (Option Symbol)}

/-! ## Chains -/

/-- From `q` on the edges under `labels` follow one another, and there are no others. -/
inductive Chain (f : Fragment) : StateId → List (Option Symbol) → Prop
  | last {q : StateId} (final : f.IsFinal q) (no_edge : ∀ label r, ¬ f.Edge q label r) :
      Chain f q []
  | link {q r : StateId} {label : Option Symbol} {labels : List (Option Symbol)}
      (not_final : ¬ f.IsFinal q) (edge_iff : ∀ l s, f.Edge q l s ↔ l = label ∧ s = r)
      (rest : Chain f r labels) : Chain f q (label :: labels)

theorem Chain.lt_count (chain : f.Chain q labels) : q < f.count := by
  cases chain with
  | last final no_edge => exact final.lt_count
  | @link q r label labels not_final edge_iff rest =>
    exact ((edge_iff label r).2 ⟨rfl, rfl⟩).lt_count

theorem Layout.chain_second {m : Merged} {da db : Nat} (lay : Layout a b m da db)
    (wa : a.WellFormed) (wb : b.WellFormed) (chain : b.Chain q labels) :
    (concatMerged m).Chain (q + db) labels := by
  induction chain with
  | @last q final no_edge =>
    refine .last ((lay.isFinal_concatMerged wa wb).2 ?_) fun label r edge => ?_
    · rw [wb.isFinal_iff.1 final]
    · rcases (lay.edge_concatMerged wa).1 edge with edge | ⟨same, -, -⟩
      · obtain ⟨s, -, inner⟩ := (lay.edge_second final.lt_count).1 edge
        exact no_edge label s inner
      · exact lay.ne wa.exit_lt final.lt_count same.symm
  | @link q r label labels not_final edge_iff rest ih =>
    have inside : q < b.count := ((edge_iff label r).2 ⟨rfl, rfl⟩).lt_count
    refine .link (fun final => not_final ?_) (fun l s => ?_) ih
    · rw [lay.isFinal_concatMerged wa wb] at final
      exact wb.isFinal_iff.2 (Nat.add_right_cancel final)
    · rw [lay.edge_concatMerged wa, lay.edge_second inside]
      simp only [edge_iff]
      have apart := lay.ne wa.exit_lt inside
      grind

/-- A product of a single edge and a chain is a chain: the edge, the epsilon edge between the two
operands, and the chain. -/
theorem chain_concat (first : a.SingleEdge label) (wb : b.WellFormed)
    (chain : b.Chain b.entry labels) :
    (a.concat b).Chain (a.concat b).entry (label :: none :: labels) := by
  obtain ⟨da, db, lay⟩ := merge_layout a b
  have wa := first.wellFormed
  have entry : (a.concat b).entry = 0 + da := by
    rw [← first.entry]
    exact lay.first_entry
  have not_final (q : Nat) (lt : q < a.count) : ¬ (a.concat b).IsFinal (q + da) := by
    intro final
    exact lay.ne lt wb.exit_lt ((lay.isFinal_concatMerged wa wb).1 final)
  have edge_iff (q : Nat) (lt : q < a.count) (l : Option Symbol) (s : StateId) :
      (a.concat b).Edge (q + da) l s ↔
        (q = 0 ∧ l = label ∧ s = 1 + da) ∨ (q = 1 ∧ l = none ∧ s = b.entry + db) := by
    refine (lay.edge_concatMerged wa).trans ?_
    rw [lay.edge_first lt, first.exit]
    simp only [first.edge_iff]
    grind
  have inside : 0 < a.count ∧ 1 < a.count := by simp [first.count]
  have crossing : (a.concat b).Chain (1 + da) (none :: labels) := by
    apply Chain.link (not_final 1 inside.2) _ (lay.chain_second wa wb chain)
    intro l s
    rw [edge_iff 1 inside.2]
    simp
  rw [entry]
  apply Chain.link (not_final 0 inside.1) _ crossing
  intro l s
  rw [edge_iff 0 inside.1]
  simp

theorem SingleEdge.chain (h : f.SingleEdge label) : f.Chain f.entry [label] := by
  have last : f.Chain 1 [] := .last ((h.isFinal_iff 1).2 rfl) (by simp [h.edge_iff])
  rw [h.entry]
  exact .link (by simp [h.isFinal_iff]) (by simp [h.edge_iff]) last

/-! ## Sequences of bytes -/

/-- For each byte its edge and an epsilon edge behind it, and the epsilon edge of the end. -/
def byteLabels : List Symbol → List (Option Symbol)
  | [] => [none]
  | symbol :: bytes => some symbol :: none :: byteLabels bytes

theorem length_byteLabels (bytes : List Symbol) :
    (byteLabels bytes).length = 2 * bytes.length + 1 := by
  induction bytes with
  | nil => rfl
  | cons symbol bytes ih =>
    simp only [byteLabels, List.length_cons, ih]
    omega

theorem reduceOption_byteLabels (bytes : List Symbol) : (byteLabels bytes).reduceOption = bytes := by
  induction bytes with
  | nil => rfl
  | cons symbol bytes ih =>
    rw [byteLabels, List.reduceOption_cons_of_some, List.reduceOption_cons_of_none, ih]

/-- Every other edge of a chain of bytes reads one. -/
theorem length_reduceOption_take_byteLabels (bytes : List Symbol) (k : Nat) :
    ((byteLabels bytes).take k).reduceOption.length = min bytes.length ((k + 1) / 2) := by
  induction bytes generalizing k with
  | nil => match k with
    | 0 => rfl
    | k + 1 => simp [byteLabels, List.reduceOption]
  | cons symbol bytes ih =>
    match k with
    | 0 => simp
    | 1 => simp [byteLabels, List.reduceOption]
    | k + 2 =>
      simp only [byteLabels, List.take_succ_cons, List.reduceOption_cons_of_some,
        List.reduceOption_cons_of_none, List.length_cons, ih]
      omega

theorem chain_ofBytes (bytes : List Symbol) :
    (ofBytes bytes).Chain (ofBytes bytes).entry (byteLabels bytes) := by
  induction bytes with
  | nil => exact singleEdge_empty.chain
  | cons symbol bytes ih =>
    exact chain_concat (singleEdge_literal symbol) (wellFormed_ofBytes bytes) ih

theorem count_concat (a b : Fragment) : (a.concat b).count = a.count + b.count := by
  obtain ⟨da, db, lay⟩ := merge_layout a b
  exact size_leadOn.trans lay.size

theorem count_ofBytes (bytes : List Symbol) : (ofBytes bytes).count = 2 * bytes.length + 2 := by
  induction bytes with
  | nil => rfl
  | cons symbol bytes ih =>
    rw [ofBytes_cons, count_concat, ih, (singleEdge_literal symbol).count, List.length_cons]
    omega

end Fragment

namespace Walk

variable {config : WalkConfig} {f : Fragment} {walk next : Walk σ} {labels : List (Option Symbol)}

/-! ## Walks on chains -/

/-- The labels of the moves made so far, in order. -/
def trace (walk : Walk σ) : List (Option Symbol) := (walk.moves.map Move.symbol?).reverse

theorem word_eq_reduceOption (walk : Walk σ) : walk.word = walk.trace.reduceOption := by
  simp [word, Walk.trace, List.reduceOption, List.filterMap_map]

theorem length_trace (walk : Walk σ) : walk.trace.length = walk.moves.length := by
  simp [Walk.trace]

/-- The moves made so far are the first of a chain, whose rest lies ahead. -/
structure OnChain (f : Fragment) (labels : List (Option Symbol)) (walk : Walk σ) : Prop where
  ahead : ∃ rest, walk.trace ++ rest = labels ∧ f.Chain walk.current rest
  all : walk.status = .complete → walk.trace = labels ∧ walk.moves.length < walk.steps
  paced : walk.moves.length ≤ walk.steps
  going : ∀ q, walk.status ≠ .deadEnd q

theorem onChain_start (source : σ) (chain : f.Chain f.entry labels) :
    OnChain f labels (start f source) where
  ahead := ⟨labels, rfl, chain⟩
  all complete := by cases complete
  paced := Nat.zero_le _
  going q := by simp [start]

theorem OnChain.word_isPrefix (on : OnChain f labels walk) : walk.word <+: labels.reduceOption := by
  obtain ⟨rest, split, -⟩ := on.ahead
  rw [word_eq_reduceOption, ← split, List.reduceOption_append]
  exact List.prefix_append _ _

/-- A round leads along the chain. It cannot end the walk before the last state, which alone is
final. -/
theorem Step.onChain (running : walk.status = .running) (step : Step config f walk next)
    (on : OnChain f labels walk) : OnChain f labels next := by
  have paced := on.paced
  obtain ⟨rest, split, chain⟩ := on.ahead
  cases step with
  | exhaust exhausted => exact ⟨on.ahead, by simp, paced, by simp⟩
  | leave within outside =>
    obtain ⟨state, at_current⟩ := Fragment.state?_of_lt_count chain.lt_count
    rw [outside] at at_current
    cases at_current
  | stop source within at_current final =>
    cases chain with
    | last _ _ =>
      refine ⟨on.ahead, fun _ => ⟨?_, Nat.lt_succ_of_le paced⟩, Nat.le_succ_of_le paced, by simp⟩
      rw [← split, List.append_nil]
      rfl
    | link not_final _ _ => exact absurd ⟨_, at_current, final⟩ not_final
  | stick source within at_current not_final stuck =>
    cases chain with
    | last final _ =>
      obtain ⟨state, at_last, final⟩ := final
      obtain rfl := Option.some.inj (at_current.symm.trans at_last)
      rw [not_final] at final
      cases final
    | @link _ r label _ _ edge_iff _ =>
      obtain ⟨state, at_link, mem⟩ := (edge_iff label r).2 ⟨rfl, rfl⟩
      obtain rfl := Option.some.inj (at_current.symm.trans at_link)
      rw [State.hasEdges_of_mem_successors mem] at stuck
      cases stuck
  | @move state move source within at_current follows =>
    have edge := follows.edge at_current
    cases chain with
    | last _ no_edge => exact absurd edge (no_edge _ _)
    | @link _ r label rest _ edge_iff behind =>
      obtain ⟨read, target⟩ := (edge_iff _ _).1 edge
      refine ⟨⟨rest, ?_, ?_⟩, by simp [running], Nat.succ_le_succ paced, by simp [running]⟩
      · rw [← split, ← read]
        simp [Walk.trace]
      · rw [← target] at behind
        exact behind
  | wait source within at_current edges =>
    exact ⟨on.ahead, by simp [running], Nat.le_succ_of_le paced, by simp [running]⟩

variable [RandomSource σ]

/-! ## A certain coin -/

theorem Acts.length_moves {state : State} (certain : config.branchProbability = .one)
    (acts : Acts config state walk next) (after : next.status = .running) :
    next.moves.length = walk.moves.length + 1 := by
  cases acts with
  | stop stopped => cases after
  | stick going stuck => cases after
  | move going edges moved => rfl
  | @wait source later going edges waited =>
    have wins : ((Random.flip config.branchProbability : StateM σ Bool).run source).1 = true := by
      rw [certain, Random.flip, if_pos rfl]
      rfl
    have moves := isSome_chooseMove (q := walk.current) edges wins
    rw [waited] at moves
    cases moves

/-- If the coin for the branches is certain, no round is spent on waiting. -/
theorem Turn.length_moves (certain : config.branchProbability = .one)
    (turn : Turn config f walk next) (after : next.status = .running) :
    next.moves.length = walk.moves.length + 1 := by
  cases turn with
  | exhaust exhausted => cases after
  | leave within outside => cases after
  | act within at_current acts =>
    have moved := acts.length_moves certain after
    exact moved

end Walk

/-! ## Calls on a chain of bytes -/

namespace Generator

variable [RandomSource σ] {g after : Generator σ} {bytes : List Symbol} {k : Nat}

theorem onChain_walk (g : Generator σ) (bytes : List Symbol) (k : Nat) :
    Walk.OnChain (.ofBytes bytes) (Fragment.byteLabels bytes) (g.walk (.ofBytes bytes) k) :=
  Walk.run_induct Walk.Step.onChain (Walk.onChain_start g.source (Fragment.chain_ofBytes bytes)) k

theorem length_moves_walk {f : Fragment} (certain : g.config.branchProbability = .one)
    (running : (g.walk f k).status = .running) : (g.walk f k).moves.length = k := by
  have raised : (g.walk f k).moves.length = (Walk.start f g.source).moves.length + k :=
    Walk.run_raises (fun walk => walk.moves.length)
      (fun before after => (Walk.turn_round before).length_moves certain after) running
  exact raised.trans (Nat.zero_add k)

/-- Without a budget a walk is under way, with a part of the bytes read, or has read them all and
took a round for each edge and one to stop. -/
theorem walk_ofBytes (g : Generator σ) (bytes : List Symbol) (k : Nat) :
    let walk := (g.limit none).walk (.ofBytes bytes) k
    (walk.status = .running ∧ walk.word.length ≤ bytes.length) ∨
      (walk.result = some (.ok bytes) ∧ 2 * bytes.length + 2 ≤ k) := by
  intro walk
  have on : Walk.OnChain (.ofBytes bytes) (Fragment.byteLabels bytes) walk :=
    onChain_walk (g.limit none) bytes k
  have steps : walk.steps ≤ k := steps_walk_le (g.limit none) (.ofBytes bytes) k
  cases status : walk.status with
  | running =>
    left
    refine ⟨rfl, ?_⟩
    have read : walk.word <+: bytes := Fragment.reduceOption_byteLabels bytes ▸ on.word_isPrefix
    exact read.length_le
  | complete =>
    obtain ⟨all, paced⟩ := on.all status
    right
    constructor
    · rw [Walk.result, status, Walk.word_eq_reduceOption, all, Fragment.reduceOption_byteLabels]
    · rw [← Walk.length_trace, all, Fragment.length_byteLabels] at paced
      omega
  | budgetExceeded limit =>
    have exceeded : walk.result = some (.error (.budgetExceeded limit walk.word.length)) := by
      rw [Walk.result, status]
    exact absurd exceeded (walk_ne_budgetExceeded g _ k limit _)
  | deadEnd q => exact absurd status (on.going q)

/-- If the coin for the branches is certain, the rounds say how much has been read. -/
theorem walk_ofBytes_of_certain (certain : g.config.branchProbability = .one) (bytes : List Symbol)
    (k : Nat) :
    let walk := (g.limit none).walk (.ofBytes bytes) k
    (k < 2 * bytes.length + 2 ∧ walk.result = none ∧
        walk.word.length = min bytes.length ((k + 1) / 2)) ∨
      (walk.result = some (.ok bytes) ∧ 2 * bytes.length + 2 ≤ k) := by
  intro walk
  rcases walk_ofBytes g bytes k with ⟨running, -⟩ | complete
  · left
    have on : Walk.OnChain (.ofBytes bytes) (Fragment.byteLabels bytes) walk :=
      onChain_walk (g.limit none) bytes k
    have length : walk.trace.length = k :=
      walk.length_trace.trans (length_moves_walk (g := g.limit none) certain running)
    obtain ⟨rest, split, -⟩ := on.ahead
    have first : walk.trace = (Fragment.byteLabels bytes).take k := by
      rw [← split, ← length, List.take_left]
    refine ⟨?_, Walk.result_eq_none_iff.2 running, ?_⟩
    · have within := congrArg List.length split
      rw [List.length_append, length, Fragment.length_byteLabels] at within
      omega
    · rw [Walk.word_eq_reduceOption, first, Fragment.length_reduceOption_take_byteLabels]
  · exact .inr complete

theorem Returns.of_ofBytes {budget : Option Nat} {outcome : Except GenerateError (List Symbol)}
    (returns : (g.limit budget).Returns (.ofBytes bytes) outcome after) :
    (outcome = .ok bytes ∧ ∀ k ∈ budget, 2 * bytes.length + 2 ≤ k) ∨
      ∃ k produced, budget = some k ∧ outcome = .error (.budgetExceeded k produced) ∧
        produced ≤ bytes.length := by
  cases budget with
  | none =>
    obtain ⟨rounds, result, -⟩ := returns
    left
    rcases walk_ofBytes g bytes rounds with ⟨running, -⟩ | ⟨complete, -⟩
    · rw [Walk.result_eq_none_iff.2 running] at result
      cases result
    · rw [complete] at result
      exact ⟨(Option.some.inj result).symm, by simp⟩
  | some k =>
    obtain ⟨given, -⟩ := returns_limit_iff.1 returns
    rcases walk_ofBytes g bytes k with ⟨running, short⟩ | ⟨complete, enough⟩
    · rw [Walk.result_eq_none_iff.2 running] at given
      exact .inr ⟨k, _, rfl, given, short⟩
    · rw [complete] at given
      exact .inl ⟨given, by simpa using enough⟩

/-- What is returned at once under the least budget that is enough is returned under every larger
one. -/
theorem returns_ofBytes {budget : Option Nat} (certain : g.config.branchProbability = .one)
    (enough : ∀ k ∈ budget, 2 * bytes.length + 2 ≤ k) :
    ∃ after, (g.limit budget).Returns (.ofBytes bytes) (.ok bytes) after := by
  have least : ((g.limit none).walk (.ofBytes bytes) (2 * bytes.length + 2)).result =
      some (.ok bytes) := by
    rcases walk_ofBytes_of_certain certain bytes (2 * bytes.length + 2) with ⟨short, -⟩ | complete
    · exact absurd short (lt_irrefl _)
    · exact complete.1
  have returns : (g.limit (some (2 * bytes.length + 2))).Returns (.ofBytes bytes) (.ok bytes) _ :=
    returns_limit_iff.2 ⟨by rw [least, Option.getD_some], rfl⟩
  exact ⟨_, returns.of_larger enough (by simp)⟩

theorem exceeds_ofBytes (certain : g.config.branchProbability = .one)
    (short : k < 2 * bytes.length + 2) :
    ∃ after, (g.limit (some k)).Returns (.ofBytes bytes)
      (.error (.budgetExceeded k (min bytes.length ((k + 1) / 2)))) after := by
  rcases walk_ofBytes_of_certain certain bytes k with ⟨-, running, length⟩ | ⟨-, enough⟩
  · exact ⟨_, returns_limit_iff.2 ⟨by rw [running, length, Option.getD_none], rfl⟩⟩
  · omega

end Generator

/-- What a sequence of `n` bytes makes is a chain of `2 n + 2` states that accepts the sequence and
nothing else. A call on it returns the sequence, and that only if its budget allows for as many
rounds as there are states, or it exceeds its budget. If the coin for the branches is certain, the
budget alone decides: with enough rounds the sequence is returned, and with fewer every other round
has read one byte. -/
theorem Fragment.ofBytes_is_chain (bytes : List Symbol) :
    (ofBytes bytes).Chain (ofBytes bytes).entry (byteLabels bytes) ∧
    (∀ word, (ofBytes bytes).accepts word = true ↔ word = bytes) ∧
    (ofBytes bytes).count = 2 * bytes.length + 2 ∧
    ∀ (σ : Type) [RandomSource σ] (g : Generator σ),
      (∀ outcome after, g.Returns (ofBytes bytes) outcome after →
        (outcome = .ok bytes ∧ ∀ k ∈ g.config.maxSteps, 2 * bytes.length + 2 ≤ k) ∨
          ∃ k produced, g.config.maxSteps = some k ∧
            outcome = .error (.budgetExceeded k produced) ∧ produced ≤ bytes.length) ∧
      (g.config.branchProbability = .one →
        ((∀ k ∈ g.config.maxSteps, 2 * bytes.length + 2 ≤ k) →
          ∃ after, g.Returns (ofBytes bytes) (.ok bytes) after) ∧
        ∀ k ∈ g.config.maxSteps, k < 2 * bytes.length + 2 →
          ∃ after, g.Returns (ofBytes bytes)
            (.error (.budgetExceeded k (min bytes.length ((k + 1) / 2)))) after) := by
  refine ⟨chain_ofBytes bytes, ?_, count_ofBytes bytes, ?_⟩
  · intro word
    rw [← mem_language, mem_language_ofBytes]
  · intro σ _ g
    have own : g.limit g.config.maxSteps = g := rfl
    refine ⟨fun outcome after returns => Generator.Returns.of_ofBytes (g := g) returns,
      fun certain => ⟨Generator.returns_ofBytes (g := g) certain, ?_⟩⟩
    intro k budget short
    rw [← own, Option.mem_def.1 budget]
    exact Generator.exceeds_ofBytes certain short

end FragmentAlgebra
