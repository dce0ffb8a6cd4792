import FragmentAlgebra.Checked
import FragmentAlgebra.Proofs.Coins
import FragmentAlgebra.Proofs.Obtainable
import FragmentAlgebra.Proofs.Walks

/-! # No check of a query fails

A choice `Passes` if none of its checks fails, whatever words the source hands out, and it chooses
as the plain choice does; this goes through the binds of a choice one by one. Coins pass because a
configuration is validated when a generator is made, picks because no list with a symbol is empty
and no index reaches the length of its list. A walk is `Along` its fragment and a search has only
pending entries `Inside` it, so every state they look up is there.

Together: on an obtainable fragment with short lists, whatever calls a generator has made before, a
checked query is the plain query (`checked_queries_eq_ok`).
-/

namespace FragmentAlgebra

open Std (HashSet)

namespace Checked

variable {σ α β : Type}

/-! ## Choices that pass -/

/-- No check fails, and the choice is the plain one. -/
def Passes (checked : Choice σ α) (choice : StateM σ α) : Prop :=
  ∀ source, checked.run.run source = (.ok (choice.run source).1, (choice.run source).2)

namespace Passes

variable {checked : Choice σ α} {choice : StateM σ α} {next : α → Choice σ β}
  {plain : α → StateM σ β} {mid : α → Prop}

theorem pure (a : α) : Passes (Pure.pure a : Choice σ α) (Pure.pure a) := fun _ => rfl

theorem lift (choice : StateM σ α) : Passes (liftM choice) choice := fun _ => rfl

theorem bind (first : Passes checked choice) (always : Always choice mid)
    (second : ∀ a, mid a → Passes (next a) (plain a)) :
    Passes (checked >>= next) (choice >>= plain) := by
  intro source
  have passed : (checked >>= next).run.run source =
      (next (choice.run source).1).run.run (choice.run source).2 := by
    rw [ExceptT.run_bind, StateT.run_bind, first source]
    rfl
  rw [passed]
  exact second _ (always source) _

theorem bind_any (first : Passes checked choice) (second : ∀ a, Passes (next a) (plain a)) :
    Passes (checked >>= next) (choice >>= plain) :=
  first.bind (fun _ => trivial) fun a (_ : True) => second a

theorem ite {c : Prop} [Decidable c] {x y : Choice σ α} {u v : StateM σ α} (yes : c → Passes x u)
    (no : ¬ c → Passes y v) : Passes (if c then x else y) (if c then u else v) := by
  split
  · exact yes ‹_›
  · exact no ‹_›

theorem attempt_eq_ok (passes : Passes checked choice) (source : σ) :
    attempt checked source = .ok (choice.run source) := by
  rw [attempt, passes source]
  rfl

end Passes

theorem lookUp_eq_ok {f : Fragment} {q : StateId} {state : State}
    (at_q : f.state? q = some state) : lookUp f q = .ok state := by
  rw [lookUp, at_q]

/-! ## Coins and picks -/

/-- What is no number compares with nothing, and the infinities lie outside. -/
theorem isChance_of_le {p : Binary64} (low : Binary64.zero.le p = true)
    (high : p.le .one = true) : p.IsChance := by
  have zero_finite : Binary64.zero.isFinite = true := by decide
  have one_finite : Binary64.one.isFinite = true := by decide
  simp only [Binary64.le, Bool.and_eq_true, Bool.not_eq_true'] at low high
  obtain ⟨⟨zero_number, number⟩, not_below⟩ := low
  obtain ⟨⟨-, one_number⟩, not_above⟩ := high
  have finite : p.isFinite = true := by
    by_contra infinite
    simp_all [Binary64.lt]
  simp_all [Binary64.lt, Binary64.IsChance]

section Choices

variable [RandomSource σ] {p : Binary64} {q : StateId} {state : State}

theorem passes_flip (chance : p.IsChance) :
    Passes (flip p : Choice σ Bool) (Random.flip p) := by
  rw [flip, if_pos chance]
  exact .lift _

theorem passes_below {n : Nat} (pos : 0 < n) (short : n < 2 ^ 32) :
    Passes (below n : Choice σ Nat) (Random.below n) := by
  rw [below, if_pos ⟨pos, short⟩]
  exact .lift _

theorem passes_pick {targets : List StateId} (full : targets ≠ [])
    (short : targets.length < 2 ^ 32) :
    Passes (pick targets : Choice σ StateId) (Walk.pick targets) := by
  have pos : 0 < targets.length := List.length_pos_iff.2 full
  refine (passes_below pos short).bind (always_below pos) fun index lt => ?_
  have found : targets[index]? = some targets[index] := List.getElem?_eq_getElem lt
  have plain : targets.getD index 0 = targets[index] := by simp [lt]
  rw [found, plain]
  exact .pure _

theorem passes_chooseSkip (chance : p.IsChance)
    (short : state.epsilon.length < 2 ^ 32) :
    Passes (chooseSkip p q state : Choice σ (Option Move)) (Walk.chooseSkip p q state) := by
  refine .ite (fun _ => .pure none) fun full => ?_
  refine (passes_flip chance).bind_any fun taken => .ite (fun _ => ?_) fun _ => .pure none
  exact (passes_pick (by simpa using full) short).bind_any fun target => .pure _

theorem passes_chooseFrom (chance : p.IsChance)
    (short : state.epsilon.length < 2 ^ 32) {rows : List EdgeRow}
    (known : ∀ row ∈ rows, row ∈ state.edges.rows)
    (short_rows : ∀ row ∈ rows, row.2.length < 2 ^ 32) :
    Passes (chooseFrom p q state (rows.map (·.1)) : Choice σ (Option Move))
      (Walk.chooseFrom p q state rows) := by
  induction rows with
  | nil => exact passes_chooseSkip chance short
  | cons row rows ih =>
    obtain ⟨symbol, targets⟩ := row
    rw [List.forall_mem_cons] at known short_rows
    have full : targets ≠ [] := state.edges.ordered.2 _ known.1
    have same : state.targets symbol = targets := state.edges.ordered.rowTargets_of_mem known.1
    rw [List.map_cons, chooseFrom, same]
    refine (passes_flip chance).bind_any fun taken => .ite (fun _ => ?_) fun _ => ?_
    · exact (passes_pick full short_rows.1).bind_any fun target => .pure _
    · exact ih known.2 short_rows.2

theorem passes_chooseMove (chance : p.IsChance)
    (short : state.epsilon.length < 2 ^ 32)
    (short_rows : ∀ row ∈ state.edges.rows, row.2.length < 2 ^ 32) (q : StateId) :
    Passes (chooseMove p q state : Choice σ (Option Move)) (Walk.chooseMove p q state) :=
  passes_chooseFrom chance short (fun _ mem => mem) short_rows

theorem passes_chooseStop (chance : p.IsChance) (state : State) :
    Passes (chooseStop p state : Choice σ Bool) (Walk.chooseStop p state) := by
  refine .ite (fun _ => .ite (fun _ => passes_flip chance) fun _ => .pure true) fun _ => ?_
  exact .pure false

end Choices

/-! ## Walks -/

section Walks

variable [RandomSource σ] {config : WalkConfig} {f : Fragment} {walk : Walk σ}

theorem isChance_of_validate (valid : config.validate = .ok ()) :
    config.stopProbability.IsChance ∧ config.branchProbability.IsChance := by
  obtain ⟨stop, branch_pos, branch_le⟩ := WalkConfig.bounds_of_validate valid
  rw [WalkConfig.isProbability, Bool.and_eq_true] at stop
  exact ⟨isChance_of_le stop.1 stop.2, isChance_of_le (Binary64.le_of_lt branch_pos) branch_le⟩

/-- What a walk does at a state passes every check; both sides branch on the same choices. -/
theorem act_eq_ok (valid : config.validate = .ok ()) (short : f.ShortLists) {q : StateId}
    {state : State} (at_q : f.state? q = some state) (walk : Walk σ) :
    act config state walk = .ok (walk.act config state) := by
  obtain ⟨stop_chance, branch_chance⟩ := isChance_of_validate valid
  obtain ⟨short_epsilon, short_rows⟩ := short state (Array.mem_of_getElem? at_q)
  have stops := (passes_chooseStop stop_chance state).attempt_eq_ok walk.source
  have moves (source : σ) :=
    (passes_chooseMove branch_chance short_epsilon short_rows walk.current).attempt_eq_ok source
  rw [act, Walk.act, stops]
  simp only [bind, Except.bind, moves]
  obtain ⟨stop, source⟩ := (Walk.chooseStop config.stopProbability state).run walk.source
  cases stop with
  | true => rfl
  | false =>
    cases state.hasEdges with
    | false => rfl
    | true =>
      dsimp only
      obtain ⟨move, source⟩ :=
        (Walk.chooseMove config.branchProbability walk.current state).run source
      cases move <;> rfl

theorem round_eq_ok (valid : config.validate = .ok ()) (short : f.ShortLists)
    (inside : walk.current < f.count) :
    round config f walk = .ok (walk.round config f) := by
  obtain ⟨state, at_current⟩ := Fragment.state?_of_lt_count inside
  rw [round, Walk.round]
  cases walk.status with
  | running =>
    cases Walk.spent config walk.steps with
    | some maxSteps => rfl
    | none =>
      simp only [lookUp_eq_ok at_current, bind, Except.bind, at_current]
      exact act_eq_ok valid short at_current _
  | complete => rfl
  | budgetExceeded maxSteps => rfl
  | deadEnd q => rfl

theorem run_eq_ok (valid : config.validate = .ok ()) (short : f.ShortLists) (wf : f.WellFormed)
    (along : Walk.Along f walk) (rounds : Nat) :
    run config f rounds walk = .ok (walk.run config f rounds) := by
  induction rounds generalizing walk with
  | zero => rfl
  | succ rounds ih =>
    by_cases running : walk.status = .running
    · have inside : walk.current < f.count := along.path.lt_count wf.inRange wf.entry_lt
      have next : Walk.Along f (walk.round config f) :=
        (Walk.step_round running).along running along
      rw [Walk.run_succ running, run, running]
      simp only [round_eq_ok valid short inside]
      exact ih next
    · rw [Walk.run_of_ended running, run]
      split
      case h_1 still => exact absurd still running
      case h_2 => rfl

end Walks

/-! ## Searches -/

section Queries

variable {f : Fragment} {input : Array Symbol}

theorem mapM_eq_ok {ε : Type} {g : α → Except ε β} {h : α → β} {items : List α}
    (each : ∀ a ∈ items, g a = .ok (h a)) : items.mapM g = .ok (items.map h) := by
  induction items with
  | nil => rfl
  | cons a items ih =>
    rw [List.forall_mem_cons] at each
    rw [List.mapM_cons, each.1, ih each.2]
    rfl

theorem isFinal_eq_ok {q : StateId} (inside : q < f.count) : isFinal f q = .ok (f.isFinal q) := by
  obtain ⟨state, at_q⟩ := Fragment.state?_of_lt_count inside
  rw [isFinal, lookUp_eq_ok at_q, Fragment.isFinal, at_q]
  rfl

theorem targets_eq_ok {q : StateId} (inside : q < f.count) (symbol : Symbol) :
    targets f q symbol = .ok (f.targets q symbol) := by
  obtain ⟨state, at_q⟩ := Fragment.state?_of_lt_count inside
  rw [targets, lookUp_eq_ok at_q, Fragment.targets, at_q]
  rfl

theorem closureFrom_eq_ok (range : f.InRange) {visited : HashSet StateId}
    {seen stack : List StateId} (inside : ∀ q ∈ stack, q < f.count) :
    closureFrom f visited seen stack = .ok (f.closureFrom visited seen stack) := by
  fun_induction Fragment.closureFrom f visited seen stack with
  | case1 visited seen => rw [closureFrom]
  | case2 visited seen q stack old ih =>
    rw [List.forall_mem_cons] at inside
    rw [closureFrom, if_pos old, ih inside.2]
  | case3 visited seen q stack new out ih =>
    rw [List.forall_mem_cons] at inside
    obtain ⟨state, at_q⟩ := Fragment.state?_of_lt_count inside.1
    simp [at_q] at out
  | case4 visited seen q stack new state at_q visited' ih =>
    rw [List.forall_mem_cons] at inside
    have targets : ∀ r ∈ state.epsilon.filter (· ∉ visited'), r < f.count := by
      intro r mem
      have edge : f.Edge q none r := ⟨state, at_q, (List.mem_filter.1 mem).1⟩
      exact (Fragment.inRange_iff.1 range).2 q none r edge
    rw [closureFrom, if_neg new]
    split
    case h_1 out => simp [at_q] at out
    case h_2 found =>
      obtain rfl := Option.some.inj (at_q.symm.trans found)
      exact ih (List.forall_mem_append.2 ⟨targets, inside.2⟩)

theorem expand_eq_ok (range : f.InRange) (settled : HashSet Search.Entry) {entry : Search.Entry}
    (inside : entry.1 < f.count) :
    expand f input settled entry = .ok (Search.expand f input settled entry) := by
  have stretch : closureFrom f ∅ [] [entry.1] = .ok (f.closure entry.1) :=
    closureFrom_eq_ok range (by simpa using inside)
  have stretch_inside : ∀ q ∈ f.closure entry.1, q < f.count :=
    fun q mem => (Fragment.mem_closure.1 mem).1
  have flags := mapM_eq_ok fun q mem => isFinal_eq_ok (stretch_inside q mem)
  have lists (symbol : Symbol) :=
    mapM_eq_ok fun q mem => targets_eq_ok (stretch_inside q mem) symbol
  rw [expand, Search.expand, stretch]
  simp only [bind, Except.bind]
  cases input[entry.2]? with
  | none => simp [flags, List.any_map]
  | some symbol => simp [lists symbol, List.flatMap_map]

theorem searchFrom_eq_ok (range : f.InRange) {settled : HashSet Search.Entry}
    {pending : List Search.Entry} (inside : ∀ entry ∈ pending, Search.Inside f input entry) :
    searchFrom f input settled pending = .ok (Search.run f input settled pending) := by
  induction settled, pending using Search.run_induct f input with
  | done settled => rw [searchFrom, Search.run_nil]
  | old settled entry pending old ih =>
    rw [List.forall_mem_cons] at inside
    rw [searchFrom, if_pos old, ih inside.2, Search.run_of_settled old]
  | outside settled entry pending new outside ih =>
    rw [List.forall_mem_cons] at inside
    exact absurd inside.1 outside
  | accepted settled entry pending new bounds expanded =>
    have expansion : expand f input (settled.insert entry) entry = .ok .accepted := by
      rw [expand_eq_ok range (settled.insert entry) bounds.1, expanded]
    rw [searchFrom, if_neg new, dif_pos bounds, Search.run_of_accepted new bounds expanded]
    simp only [expansion]
  | queued settled entry pending next new bounds expanded ih =>
    have expansion : expand f input (settled.insert entry) entry = .ok (.queued next) := by
      rw [expand_eq_ok range (settled.insert entry) bounds.1, expanded]
    rw [List.forall_mem_cons] at inside
    have next_inside : ∀ e ∈ next, Search.Inside f input e := by
      intro e mem
      have leads := ((Search.mem_of_expand_eq_queued expanded e).1 mem).1
      exact leads.inside range
    rw [searchFrom, if_neg new, dif_pos bounds, Search.run_of_queued new bounds expanded]
    simp only [expansion]
    exact ih (List.forall_mem_append.2 ⟨next_inside, inside.2⟩)

theorem search_eq_ok (wf : f.WellFormed) (input : List Symbol) :
    search f input = .ok (f.search input) := by
  refine searchFrom_eq_ok wf.inRange ?_
  have start : Search.Inside f input.toArray (f.entry, 0) := ⟨wf.entry_lt, Nat.zero_le _⟩
  simpa using start

/-! ## Captures -/

theorem capture_eq_ok (id : SnapshotId) (createdAt : Instant) (f : Fragment) :
    capture id createdAt f = .ok (.capture id createdAt f) := by
  have each : ∀ q ∈ List.range f.count, lookUp f q = .ok (f.states.getD q .blank) := by
    intro q mem
    obtain ⟨state, at_q⟩ := Fragment.state?_of_lt_count (List.mem_range.1 mem)
    have same : f.states[q]? = some state := at_q
    rw [lookUp_eq_ok at_q, Array.getD_eq_getD_getElem?, same]
    rfl
  have all : (List.range f.count).map (fun q => f.states.getD q .blank) = f.states.toList := by
    refine List.ext_getElem (by simp [Fragment.count]) fun q _ lt => ?_
    have inside : q < f.states.size := by simpa using lt
    simp [inside]
  rw [capture, mapM_eq_ok each, all]
  rfl

end Queries

end Checked

/-! ## Every query -/

namespace Generator

variable {σ : Type} [RandomSource σ] {g current : Generator σ} {f : Fragment}
  {calls : List (Fragment × Except GenerateError (List Symbol))}

theorem Session.config_eq (session : Session g calls current) : current.config = g.config := by
  induction session with
  | done g => rfl
  | call returns later ih =>
    obtain ⟨rounds, -, rfl⟩ := returns
    exact ih

/-- No query breaks off: a generator that was made from a valid configuration, whatever it was
called on before and whatever its source hands out, walks an obtainable fragment, and the fragment
is searched and captured, as if nothing were checked. -/
theorem checked_queries_eq_ok {config : WalkConfig} {source : σ}
    (made : ofSource config source = .ok g) (session : Session g calls current)
    (obtainable : f.Obtainable) (short : f.ShortLists) :
    (∀ rounds, Checked.walk current f rounds = .ok (current.walk f rounds)) ∧
      (∀ input, Checked.search f input = .ok (f.search input)) ∧
        ∀ id createdAt, Checked.capture id createdAt f = .ok (.capture id createdAt f) := by
  have wf := obtainable.wellFormed
  have valid : current.config.validate = .ok () := by
    rw [session.config_eq]
    unfold ofSource at made
    split at made
    case h_1 valid =>
      obtain rfl := Except.ok.inj made
      exact valid
    case h_2 => cases made
  refine ⟨fun rounds => ?_, fun input => Checked.search_eq_ok wf input,
    fun id createdAt => Checked.capture_eq_ok id createdAt f⟩
  exact Checked.run_eq_ok valid short wf (Walk.along_start f current.source) rounds

/-- The stop is certain, the coin is fair, and a call on another fragment came before. -/
theorem checked_queries_of_repeated_union :
    let config : WalkConfig := ⟨some 9, .one, .half, none⟩
    let g : Generator Tape := ⟨config, .ofList [0]⟩
    let f := ((Fragment.literal 97).union (.literal 98)).loop
    let calls : List (Fragment × Except GenerateError (List Symbol)) := [(.literal 99, .ok [99])]
    ∃ current, ofSource config (Tape.ofList [0]) = .ok g ∧ Session g calls current ∧
      f.Obtainable ∧ f.ShortLists ∧
        Checked.walk current f 9 = .ok (current.walk f 9) ∧
          Checked.search f [97, 98] = .ok (f.search [97, 98]) := by
  intro config g f calls
  have stop : WalkConfig.isProbability .one = true := by decide +kernel
  have branch : (Binary64.zero.lt .half && Binary64.half.le .one) = true := by decide +kernel
  have valid : config.validate = .ok () := by simp [WalkConfig.validate, config, stop, branch]
  have made : ofSource config (Tape.ofList [0]) = .ok g := by rw [ofSource, valid]
  have complete : (g.walk (.literal 99) 2).status = .complete := by decide +kernel
  have word : (g.walk (.literal 99) 2).word = [99] := by decide +kernel
  have session : Session g calls _ := .call (word ▸ returns_of_complete complete) (.done _)
  have obtainable : f.Obtainable := .loop (.union (.literal 97) (.literal 98))
  have short : f.ShortLists := by decide +kernel
  obtain ⟨walks, searches, -⟩ := checked_queries_eq_ok made session obtainable short
  exact ⟨_, made, session, obtainable, short, walks 9, searches [97, 98]⟩

end Generator

end FragmentAlgebra
