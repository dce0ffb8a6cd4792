/-! # Symbols, state ids and edge tables

* `Symbol`: a byte; `StateId`: the position of a state in its arena, written `q4`.
* `EdgeTable`: for each symbol the ordered list of targets reached by consuming it. Only symbols
  with a target have a row and the rows ascend, so two tables with the same targets for every
  symbol are the same table.
* `insert` appends one target to one row; `rename` gives every target another name.

A table is known by `targets`: `targets_insert` and `targets_rename` say what the operations do to
it, `mem_symbols` which symbols have a row, and `ext_targets` that it tells tables apart.
-/

namespace FragmentAlgebra

/-- The alphabet is the byte range. -/
abbrev Symbol := UInt8

/-- A state is named by its position in the arena that holds it. -/
abbrev StateId := Nat

/-- The name of a state in messages. -/
def StateId.label (q : StateId) : String := "q" ++ toString (q : Nat)

/-! ## Rows -/

/-- One row of an edge table: a symbol and its targets, in insertion order. -/
abbrev EdgeRow := Symbol × List StateId

/-- Symbols strictly ascend and no row is empty. -/
def RowsOrdered (rows : List EdgeRow) : Prop :=
  rows.Pairwise (fun a b => a.1 < b.1) ∧ ∀ row ∈ rows, row.2 ≠ []

/-- Append `target` to the row of `symbol`, opening the row in its place if there is none. -/
def insertRow (symbol : Symbol) (target : StateId) : List EdgeRow → List EdgeRow
  | [] => [(symbol, [target])]
  | (s, ts) :: rest =>
    if symbol < s then (symbol, [target]) :: (s, ts) :: rest
    else if symbol = s then (s, ts ++ [target]) :: rest
    else (s, ts) :: insertRow symbol target rest

/-- Give every target another name. -/
def renameRows (φ : StateId → StateId) (rows : List EdgeRow) : List EdgeRow :=
  rows.map fun row => (row.1, row.2.map φ)

/-- The targets in the row of `symbol`. -/
def rowTargets (symbol : Symbol) : List EdgeRow → List StateId
  | [] => []
  | (s, ts) :: rest => if symbol = s then ts else rowTargets symbol rest

theorem rowsOrdered_nil : RowsOrdered [] := by simp [RowsOrdered]

theorem RowsOrdered.tail {row : EdgeRow} {rows : List EdgeRow} (h : RowsOrdered (row :: rows)) :
    RowsOrdered rows :=
  ⟨(List.pairwise_cons.1 h.1).2, fun r hr => h.2 r (List.mem_cons_of_mem _ hr)⟩

theorem fst_of_mem_insertRow {symbol : Symbol} {target : StateId} {rows : List EdgeRow}
    {row : EdgeRow} (h : row ∈ insertRow symbol target rows) :
    row.1 = symbol ∨ ∃ old ∈ rows, row.1 = old.1 := by
  induction rows with
  | nil => simp_all [insertRow]
  | cons head rest ih =>
    obtain ⟨s, ts⟩ := head
    simp only [insertRow] at h
    split at h
    · rcases List.mem_cons.1 h with rfl | h
      · exact .inl rfl
      · exact .inr ⟨row, h, rfl⟩
    · split at h
      · rcases List.mem_cons.1 h with rfl | h
        · exact .inr ⟨(s, ts), List.mem_cons_self, rfl⟩
        · exact .inr ⟨row, List.mem_cons_of_mem _ h, rfl⟩
      · rcases List.mem_cons.1 h with rfl | h
        · exact .inr ⟨(s, ts), List.mem_cons_self, rfl⟩
        · rcases ih h with hs | ⟨old, ho, he⟩
          · exact .inl hs
          · exact .inr ⟨old, List.mem_cons_of_mem _ ho, he⟩

theorem RowsOrdered.insertRow {rows : List EdgeRow} (h : RowsOrdered rows) (symbol : Symbol)
    (target : StateId) : RowsOrdered (insertRow symbol target rows) := by
  induction rows with
  | nil => simp [RowsOrdered, FragmentAlgebra.insertRow]
  | cons head rest ih =>
    obtain ⟨s, ts⟩ := head
    have tail := ih h.tail
    have below := (List.pairwise_cons.1 h.1).1
    simp only [FragmentAlgebra.insertRow]
    split
    case isTrue lt =>
      refine ⟨List.pairwise_cons.2 ⟨?_, h.1⟩, ?_⟩
      · intro row hr
        rcases List.mem_cons.1 hr with rfl | hr
        · exact lt
        · exact UInt8.lt_trans lt (below row hr)
      · intro row hr
        rcases List.mem_cons.1 hr with rfl | hr
        · simp
        · exact h.2 row hr
    case isFalse nlt =>
      split
      case isTrue eq =>
        refine ⟨List.pairwise_cons.2 ⟨below, h.tail.1⟩, ?_⟩
        intro row hr
        rcases List.mem_cons.1 hr with rfl | hr
        · simp
        · exact h.2 row (List.mem_cons_of_mem _ hr)
      case isFalse neq =>
        have gt : s < symbol := UInt8.lt_of_le_of_ne (UInt8.not_lt.1 nlt) (Ne.symm neq)
        refine ⟨List.pairwise_cons.2 ⟨?_, tail.1⟩, ?_⟩
        · intro row hr
          rcases fst_of_mem_insertRow hr with hs | ⟨old, ho, he⟩
          · exact hs ▸ gt
          · exact he ▸ below old ho
        · intro row hr
          rcases List.mem_cons.1 hr with rfl | hr
          · exact h.2 _ List.mem_cons_self
          · exact tail.2 row hr

theorem RowsOrdered.renameRows {rows : List EdgeRow} (h : RowsOrdered rows)
    (φ : StateId → StateId) : RowsOrdered (renameRows φ rows) := by
  refine ⟨List.pairwise_map.2 (h.1.imp (fun lt => lt)), ?_⟩
  intro row hr
  obtain ⟨old, ho, rfl⟩ := List.mem_map.1 hr
  simpa using h.2 old ho

/-! ## The targets of each symbol -/

theorem rowTargets_eq_nil {symbol : Symbol} {rows : List EdgeRow}
    (absent : ∀ row ∈ rows, row.1 ≠ symbol) : rowTargets symbol rows = [] := by
  induction rows with
  | nil => rfl
  | cons head rest ih =>
    obtain ⟨s, ts⟩ := head
    have other : symbol ≠ s := fun eq => absent (s, ts) List.mem_cons_self eq.symm
    rw [rowTargets, if_neg other, ih fun row hr => absent row (List.mem_cons_of_mem _ hr)]

theorem RowsOrdered.ne_head {symbol : Symbol} {targets : List StateId} {rows : List EdgeRow}
    (h : RowsOrdered ((symbol, targets) :: rows)) : ∀ row ∈ rows, row.1 ≠ symbol := by
  intro row hr eq
  have lt := (List.pairwise_cons.1 h.1).1 row hr
  exact UInt8.lt_irrefl _ (eq ▸ lt)

theorem rowTargets_insertRow {rows : List EdgeRow} (h : RowsOrdered rows) (symbol c : Symbol)
    (target : StateId) : rowTargets c (insertRow symbol target rows) =
      if c = symbol then rowTargets c rows ++ [target] else rowTargets c rows := by
  induction rows with
  | nil => by_cases eq : c = symbol <;> simp [insertRow, rowTargets, eq]
  | cons head rest ih =>
    obtain ⟨s, ts⟩ := head
    have tail := ih h.tail
    rw [insertRow]
    split
    case isTrue lt =>
      by_cases eq : c = symbol
      · subst eq
        have absent : ∀ row ∈ (s, ts) :: rest, row.1 ≠ c := by
          intro row hr eq
          rcases List.mem_cons.1 hr with rfl | hr
          · exact UInt8.lt_irrefl _ (eq ▸ lt)
          · have below := (List.pairwise_cons.1 h.1).1 row hr
            exact UInt8.lt_irrefl _ (UInt8.lt_trans (eq ▸ lt) (eq ▸ below))
        rw [rowTargets_eq_nil absent]
        simp [rowTargets]
      · simp [rowTargets, eq]
    case isFalse nlt =>
      split
      case isTrue eq =>
        subst eq
        by_cases hc : c = symbol <;> simp [rowTargets, hc]
      case isFalse ne =>
        by_cases hc : c = s
        · subst hc
          simp [rowTargets, Ne.symm ne]
        · simp only [rowTargets, if_neg hc, tail]

theorem rowTargets_renameRows (rows : List EdgeRow) (c : Symbol) (φ : StateId → StateId) :
    rowTargets c (renameRows φ rows) = (rowTargets c rows).map φ := by
  induction rows with
  | nil => rfl
  | cons head rest ih =>
    obtain ⟨s, ts⟩ := head
    by_cases hc : c = s
    · simp [renameRows, rowTargets, hc]
    · simpa [renameRows, rowTargets, hc] using ih

theorem rowTargets_ne_nil {rows : List EdgeRow} (h : RowsOrdered rows) {c : Symbol} :
    rowTargets c rows ≠ [] ↔ c ∈ rows.map (·.1) := by
  induction rows with
  | nil => simp [rowTargets]
  | cons head rest ih =>
    obtain ⟨s, ts⟩ := head
    have full : ts ≠ [] := h.2 (s, ts) List.mem_cons_self
    by_cases hc : c = s
    · simp [rowTargets, hc, full]
    · rw [rowTargets, if_neg hc, ih h.tail, List.map_cons, List.mem_cons, or_iff_right hc]

theorem eq_of_rowTargets_eq {rows others : List EdgeRow} (h : RowsOrdered rows)
    (g : RowsOrdered others) (same : ∀ c, rowTargets c rows = rowTargets c others) :
    rows = others := by
  induction rows generalizing others with
  | nil =>
    cases others with
    | nil => rfl
    | cons head rest =>
      have full := (rowTargets_ne_nil g (c := head.1)).2 (by simp)
      exact absurd (same head.1).symm full
  | cons head rest ih =>
    obtain ⟨s, ts⟩ := head
    cases others with
    | nil =>
      have full := (rowTargets_ne_nil h (c := s)).2 (by simp)
      exact absurd (same s) full
    | cons head' rest' =>
      obtain ⟨s', ts'⟩ := head'
      have first : s = s' := by
        have mem : s ∈ ((s', ts') :: rest').map (·.1) :=
          (rowTargets_ne_nil g).1 (same s ▸ (rowTargets_ne_nil h).2 (by simp))
        have mem' : s' ∈ ((s, ts) :: rest).map (·.1) :=
          (rowTargets_ne_nil h).1 ((same s').symm ▸ (rowTargets_ne_nil g).2 (by simp))
        rcases List.mem_cons.1 mem with eq | mem
        · exact eq
        rcases List.mem_cons.1 mem' with eq | mem'
        · exact eq.symm
        obtain ⟨row, hr, eq⟩ := List.mem_map.1 mem
        obtain ⟨row', hr', eq'⟩ := List.mem_map.1 mem'
        have lt := (List.pairwise_cons.1 g.1).1 row hr
        have lt' := (List.pairwise_cons.1 h.1).1 row' hr'
        rw [eq] at lt
        rw [eq'] at lt'
        exact absurd (UInt8.lt_trans lt lt') (UInt8.lt_irrefl _)
      subst first
      have targets : ts = ts' := by simpa [rowTargets] using same s
      have tails : rest = rest' := ih h.tail g.tail fun c => by
        by_cases hc : c = s
        · subst hc
          rw [rowTargets_eq_nil h.ne_head, rowTargets_eq_nil g.ne_head]
        · simpa [rowTargets, hc] using same c
      rw [targets, tails]

/-! ## Tables -/

/-- The targets of a state, symbol by symbol. -/
structure EdgeTable where
  /-- The symbols that have targets, ascending, each with its targets in insertion order. -/
  rows : List EdgeRow
  ordered : RowsOrdered rows
deriving DecidableEq

namespace EdgeTable

def empty : EdgeTable := ⟨[], rowsOrdered_nil⟩

def insert (table : EdgeTable) (symbol : Symbol) (target : StateId) : EdgeTable :=
  ⟨insertRow symbol target table.rows, table.ordered.insertRow symbol target⟩

def rename (table : EdgeTable) (φ : StateId → StateId) : EdgeTable :=
  ⟨renameRows φ table.rows, table.ordered.renameRows φ⟩

/-- The targets reached by consuming `symbol`, in insertion order. -/
def targets (table : EdgeTable) (symbol : Symbol) : List StateId := rowTargets symbol table.rows

def symbols (table : EdgeTable) : List Symbol := table.rows.map (·.1)

def isEmpty (table : EdgeTable) : Bool := table.rows.isEmpty

@[simp] theorem targets_empty (c : Symbol) : empty.targets c = [] := rfl

theorem targets_insert (table : EdgeTable) (symbol c : Symbol) (target : StateId) :
    (table.insert symbol target).targets c =
      if c = symbol then table.targets c ++ [target] else table.targets c :=
  rowTargets_insertRow table.ordered symbol c target

theorem targets_rename (table : EdgeTable) (c : Symbol) (φ : StateId → StateId) :
    (table.rename φ).targets c = (table.targets c).map φ :=
  rowTargets_renameRows table.rows c φ

theorem mem_symbols {table : EdgeTable} {c : Symbol} : c ∈ table.symbols ↔ table.targets c ≠ [] :=
  (rowTargets_ne_nil table.ordered).symm

theorem ext_targets {table other : EdgeTable} (same : ∀ c, table.targets c = other.targets c) :
    table = other := by
  obtain ⟨rows, ordered⟩ := table
  obtain ⟨others, ordered'⟩ := other
  obtain rfl : rows = others := eq_of_rowTargets_eq ordered ordered' same
  rfl

end EdgeTable

end FragmentAlgebra
