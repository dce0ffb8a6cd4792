import FragmentAlgebra.Proofs.Words

/-! # Loops

`loop` joins the entry and the exit of a fragment by epsilon edges in both directions and adds no
state. A path of the loop therefore falls into segments, each a path of the fragment between two of
its ends, and `language_loop` is the star of the segments, not of the words: `segments` also holds
what is read from the entry back to the entry and from the exit back to the exit.

A loop is the star of its body's language exactly if every segment is a product of words
(`language_loop_eq_iff_segments_le`). This is so if no edge enters the entry and none leaves the
exit (`language_loop_of_isolated`), and if the body is a loop itself (`language_loop_loop`).

Properties that the leaves have and the combinators keep are `Hereditary`. One of them is that
whatever leads from the exit back to the entry is a word (`hereditary_wayBack`).
-/

namespace FragmentAlgebra

open scoped Computability

namespace Fragment

variable {a b : Fragment} {p q r : Nat} {label : Option Symbol} {u v word : List Symbol}

/-! ## Ends and segments -/

/-- The entry or the exit. -/
def IsEnd (a : Fragment) (q : StateId) : Prop := q = a.entry ∨ q = a.exit

/-- The words read along the paths between two ends. -/
def segments (a : Fragment) : Language Symbol :=
  {word | ∃ p q, a.IsEnd p ∧ a.IsEnd q ∧ a.Path p word q}

theorem WellFormed.language_le_segments (h : a.WellFormed) : a.language ≤ a.segments := by
  intro word mem
  exact ⟨a.entry, a.exit, .inl rfl, .inr rfl, h.mem_language_iff_path.1 mem⟩

/-! ## The edges of a loop -/

theorem edge_loop (h : a.WellFormed) : a.loop.Edge q label r ↔
    a.Edge q label r ∨ label = none ∧ (q = a.exit ∧ r = a.entry ∨ q = a.entry ∧ r = a.exit) := by
  have wiring : a.loop.Edge q label r ↔ EdgeIn a.loop.states q label r := Iff.rfl
  have inner : EdgeIn a.states q label r ↔ a.Edge q label r := Iff.rfl
  have entry_lt : a.entry < (link a.states a.exit a.entry).size := by
    rw [size_link]
    exact h.entry_lt
  rw [wiring, loop, edgeIn_link entry_lt, edgeIn_link h.exit_lt, inner]
  constructor
  · rintro ((edge | ⟨out, none_read, into⟩) | ⟨out, none_read, into⟩)
    · exact .inl edge
    · exact .inr ⟨none_read, .inl ⟨out, into⟩⟩
    · exact .inr ⟨none_read, .inr ⟨out, into⟩⟩
  · rintro (edge | ⟨none_read, ⟨out, into⟩ | ⟨out, into⟩⟩)
    · exact .inl (.inl edge)
    · exact .inl (.inr ⟨out, none_read, into⟩)
    · exact .inr ⟨out, none_read, into⟩

theorem isFinal_loop : a.loop.IsFinal q ↔ a.IsFinal q :=
  finalIn_link.trans finalIn_link

theorem count_loop : a.loop.count = a.count := size_link.trans size_link

theorem WellFormed.loop (h : a.WellFormed) : a.loop.WellFormed := by
  refine wellFormed_iff.2 ⟨⟨?_, ?_⟩, ?_, ?_⟩
  · rw [count_loop]
    exact h.entry_lt
  · intro q label r edge
    rw [count_loop]
    rcases (edge_loop h).1 edge with inner | ⟨_, ⟨_, rfl⟩ | ⟨_, rfl⟩⟩
    · exact h.edge_lt inner
    · exact h.entry_lt
    · exact h.exit_lt
  · rw [count_loop]
    exact h.exit_lt
  · intro q
    rw [isFinal_loop]
    exact h.isFinal_iff

theorem path_loop_ends (h : a.WellFormed) (hp : a.IsEnd p) (hq : a.IsEnd q) :
    a.loop.Path p [] q := by
  have back : a.loop.Edge a.exit none a.entry := (edge_loop h).2 (.inr ⟨rfl, .inl ⟨rfl, rfl⟩⟩)
  have bypass : a.loop.Edge a.entry none a.exit := (edge_loop h).2 (.inr ⟨rfl, .inr ⟨rfl, rfl⟩⟩)
  rcases hp with rfl | rfl <;> rcases hq with rfl | rfl
  · exact .stay _
  · exact .single bypass
  · exact .single back
  · exact .stay _

/-! ## The language of a loop -/

theorem mem_kstar_of_mem {l : Language Symbol} (h : word ∈ l) : word ∈ l∗ := by
  have le : l ≤ l∗ := le_kstar
  exact le h

theorem append_mem_kstar {l : Language Symbol} (hu : u ∈ l) (hv : v ∈ l∗) : u ++ v ∈ l∗ := by
  have le : l * l∗ ≤ l∗ := mul_kstar_le_kstar
  exact le (Language.append_mem_mul hu hv)

/-- A path of the loop to an end first runs in the fragment to an end, then through segments: a new
edge joins two ends, so what is read behind it is a segment of its own. -/
theorem path_loop_split (h : a.WellFormed) (hr : a.IsEnd r) (path : a.loop.Path q word r) :
    ∃ u v p, word = u ++ v ∧ a.IsEnd p ∧ a.Path q u p ∧ v ∈ a.segments∗ := by
  induction path using Path.induct with
  | stay q => exact ⟨[], [], q, rfl, hr, .stay q, Language.nil_mem_kstar _⟩
  | @cons q m r label word edge rest ih =>
    obtain ⟨u, v, p, rfl, hp, front, back⟩ := ih hr
    rcases (edge_loop h).1 edge with inner | ⟨rfl, ends⟩
    · exact ⟨label.toList ++ u, v, p, by simp, hp, .cons inner front, back⟩
    · have hq : a.IsEnd q := ends.elim (fun e => .inr e.1) fun e => .inl e.1
      have hm : a.IsEnd m := ends.elim (fun e => .inl e.2) fun e => .inr e.2
      have segment : u ∈ a.segments := ⟨m, p, hm, hp, front⟩
      exact ⟨[], u ++ v, q, rfl, hq, .stay q, append_mem_kstar segment back⟩

theorem path_loop_iff (h : a.WellFormed) (hp : a.IsEnd p) (hq : a.IsEnd q) :
    a.loop.Path p word q ↔ word ∈ a.segments∗ := by
  constructor
  · intro path
    obtain ⟨u, v, m, rfl, hm, front, back⟩ := path_loop_split h hq path
    exact append_mem_kstar ⟨p, m, hp, hm, front⟩ back
  · rw [Language.mem_kstar]
    rintro ⟨pieces, rfl, all⟩
    induction pieces generalizing p with
    | nil => exact path_loop_ends h hp hq
    | cons piece pieces ih =>
      obtain ⟨s, t, hs, ht, path⟩ := all piece List.mem_cons_self
      have inner : a.loop.Path s piece t :=
        path.map id fun _ _ _ edge => (edge_loop h).2 (.inl edge)
      have tail := ih ht fun y hy => all y (List.mem_cons_of_mem _ hy)
      exact (path_loop_ends h hp hs).trans (inner.trans tail)

theorem language_loop (h : a.WellFormed) : a.loop.language = a.segments∗ := by
  ext word
  rw [h.loop.mem_language_iff_path]
  exact path_loop_iff h (.inl rfl) (.inr rfl)

theorem segments_loop (h : a.WellFormed) : a.loop.segments = a.segments∗ := by
  ext word
  constructor
  · rintro ⟨p, q, hp, hq, path⟩
    exact (path_loop_iff h hp hq).1 path
  · intro mem
    exact ⟨a.entry, a.exit, .inl rfl, .inr rfl, (path_loop_iff h (.inl rfl) (.inr rfl)).2 mem⟩

theorem kstar_language_le_loop (h : a.WellFormed) : a.language∗ ≤ a.loop.language := by
  rw [language_loop h]
  exact kstar_mono h.language_le_segments

theorem language_loop_eq_iff_segments_le (h : a.WellFormed) :
    a.loop.language = a.language∗ ↔ a.segments ≤ a.language∗ := by
  constructor
  · intro same
    rw [← same, language_loop h]
    exact le_kstar
  · intro le
    refine le_antisymm ?_ (kstar_language_le_loop h)
    rw [language_loop h, ← kstar_idem a.language]
    exact kstar_mono le

/-! ## Loops that are stars -/

theorem Isolated.segments_le (alone : a.Isolated) (h : a.WellFormed) :
    a.segments ≤ a.language∗ := by
  rintro word ⟨p, q, rfl | rfl, rfl | rfl, path⟩
  · obtain ⟨rfl, _⟩ := path.eq_of_no_edge_in alone.entry
    exact Language.nil_mem_kstar _
  · exact mem_kstar_of_mem (h.mem_language_iff_path.2 path)
  · obtain ⟨rfl, _⟩ := path.eq_of_no_edge_in alone.entry
    exact Language.nil_mem_kstar _
  · obtain ⟨rfl, _⟩ := path.eq_of_no_edge_out alone.exit
    exact Language.nil_mem_kstar _

theorem language_loop_of_isolated (alone : a.Isolated) (h : a.WellFormed) :
    a.loop.language = a.language∗ :=
  (language_loop_eq_iff_segments_le h).2 (alone.segments_le h)

/-- The loop of a loop is its star, whatever the loop itself accepts. -/
theorem language_loop_loop (h : a.WellFormed) : a.loop.loop.language = a.loop.language∗ := by
  rw [language_loop h.loop, segments_loop h, language_loop h]

theorem language_loop_loop_eq_loop (h : a.WellFormed) : a.loop.loop.language = a.loop.language := by
  rw [language_loop h.loop, segments_loop h, kstar_idem, language_loop h]

/-! ## Hereditary properties -/

/-- The leaves have the property and the combinators keep it. -/
structure Hereditary (P : Fragment → Prop) : Prop where
  literal (symbol : Symbol) : P (.literal symbol)
  empty : P .empty
  concat {a b : Fragment} (first : P a) (second : P b) : P (a.concat b)
  union {a b : Fragment} (first : P a) (second : P b) : P (a.union b)
  loop {a : Fragment} (body : P a) : P a.loop

theorem hereditary_wellFormed : Hereditary WellFormed where
  literal := wellFormed_literal
  empty := wellFormed_empty
  concat := .concat
  union := .union
  loop := .loop

theorem Hereditary.ofBytes {P : Fragment → Prop} (h : Hereditary P) (bytes : List Symbol) :
    P (.ofBytes bytes) := by
  induction bytes with
  | nil => exact h.empty
  | cons symbol bytes ih => exact h.concat (h.literal symbol) ih

/-! ## The way back from the exit -/

theorem Isolated.no_way_back (alone : a.Isolated) (apart : a.exit ≠ a.entry) :
    ¬ a.Path a.exit word a.entry :=
  fun path => apart (path.eq_of_no_edge_in alone.entry).2

theorem SingleEdge.no_way_back (h : a.SingleEdge label) : ¬ a.Path a.exit word a.entry := by
  refine h.isolated.no_way_back ?_
  rw [h.entry, h.exit]
  exact Nat.one_ne_zero

theorem no_way_back_union (wa : a.WellFormed) (wb : b.WellFormed) :
    ¬ (a.union b).Path (a.union b).exit word (a.union b).entry :=
  (isolated_union wa wb).no_way_back (Nat.lt_succ_self _).ne'

theorem no_way_back_concat (wa : a.WellFormed) (wb : b.WellFormed) :
    ¬ (a.concat b).Path (a.concat b).exit word (a.concat b).entry := by
  obtain ⟨da, db, lay⟩ := merge_layout a b
  have entry : (a.concat b).entry = a.entry + da := lay.first_entry
  have exit : (a.concat b).exit = b.exit + db := lay.second_exit
  rw [entry, exit]
  intro path
  obtain ⟨r, same, inner⟩ := lay.path_concatMerged_second wa wb wb.exit_lt path
  have lt := inner.lt_count wb.inRange wb.exit_lt
  exact lay.ne wa.entry_lt lt same

theorem path_concat_entry (wa : a.WellFormed) (path : a.Path a.entry word a.entry) :
    (a.concat b).Path (a.concat b).entry word (a.concat b).entry := by
  obtain ⟨da, db, lay⟩ := merge_layout a b
  have entry : (a.concat b).entry = a.entry + da := lay.first_entry
  rw [entry]
  exact lay.map_first (fun q label r edge => (lay.edge_concatMerged wa).2 (.inl edge)) path

/-- What leads from the exit back to the entry is a word of the fragment. Only a loop has such a way
at all, and there it runs between two of its ends. -/
theorem hereditary_wayBack :
    Hereditary fun a => a.WellFormed ∧ ∀ word, a.Path a.exit word a.entry → word ∈ a.language where
  literal symbol :=
    ⟨wellFormed_literal symbol, fun _ path => absurd path (singleEdge_literal symbol).no_way_back⟩
  empty := ⟨wellFormed_empty, fun _ path => absurd path singleEdge_empty.no_way_back⟩
  concat first second :=
    ⟨first.1.concat second.1, fun _ path => absurd path (no_way_back_concat first.1 second.1)⟩
  union first second :=
    ⟨first.1.union second.1, fun _ path => absurd path (no_way_back_union first.1 second.1)⟩
  loop body := by
    refine ⟨body.1.loop, fun word path => ?_⟩
    have bypass := path_loop_ends body.1 (.inl rfl) (.inr rfl)
    have around := bypass.trans (path.trans bypass)
    rw [List.nil_append, List.append_nil] at around
    exact body.1.loop.mem_language_iff_path.2 around

theorem segments_le_iff (h : a.WellFormed)
    (wayBack : ∀ word, a.Path a.exit word a.entry → word ∈ a.language) :
    a.segments ≤ a.language∗ ↔
      ∀ word, a.Path a.entry word a.entry ∨ a.Path a.exit word a.exit → word ∈ a.language∗ := by
  constructor
  · rintro le word (path | path)
    · exact le ⟨a.entry, a.entry, .inl rfl, .inl rfl, path⟩
    · exact le ⟨a.exit, a.exit, .inr rfl, .inr rfl, path⟩
  · rintro cycles word ⟨p, q, rfl | rfl, rfl | rfl, path⟩
    · exact cycles word (.inl path)
    · exact mem_kstar_of_mem (h.mem_language_iff_path.2 path)
    · exact mem_kstar_of_mem (wayBack word path)
    · exact cycles word (.inr path)

end Fragment

end FragmentAlgebra
