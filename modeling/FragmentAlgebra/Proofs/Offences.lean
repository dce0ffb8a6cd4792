import FragmentAlgebra.Proofs.Descriptions

/-! # The first offence of a description

`Accepted` is the grammar of the values that describe a fragment. `Offends` gives the rules for what
is wrong with a single value, whatever stands inside it, and `nodes` lists the values of a tree,
each before those inside it and from left to right. A value is either accepted, and then none of its
nodes offends, or refused with the error of the first node that does (`accepted_or_first_offence`).

`Explains` says this of the result of any reading step. It passes through the steps one by one, as
the reader takes them, so that `explains_ofJson` has one case for each form of a value.

A list of operands is read as the n-ary combinators read theirs: one after the other, up to the
first that fails (`ofJson_concat`, `ofJson_union`).
-/

namespace FragmentAlgebra

namespace Description

/-! ## The grammar -/

/-- The value describes a fragment. -/
inductive Accepted : Json → Prop
  | text (value : String) : Accepted (.string value)
  | symbol (n : Nat) (small : n ≤ 255) : Accepted (.object [("symbol", .nat n)])
  | empty : Accepted (.object [("empty", .null)])
  | concat (items : List Json) (all : ∀ item ∈ items, Accepted item) :
      Accepted (.object [("concat", .array items)])
  | union (items : List Json) (some_item : items ≠ []) (all : ∀ item ∈ items, Accepted item) :
      Accepted (.object [("union", .array items)])
  | loop (value : Json) (inner : Accepted value) : Accepted (.object [("repeat", value)])

theorem WrittenAll.ne_nil {items : List Json} {first : Description} {rest : List Description}
    (all : WrittenAll items (first :: rest)) : items ≠ [] := by
  cases all
  exact List.cons_ne_nil _ _

mutual

theorem Written.accepted {value : Json} {d : Description} : Written value d → Accepted value
  | .text value => .text value
  | .symbol n byte => .symbol n (Nat.le_of_lt_succ byte)
  | .empty => .empty
  | .concat all => .concat _ all.accepted
  | .union all => .union _ all.ne_nil all.accepted
  | .loop inner => .loop _ inner.accepted

theorem WrittenAll.accepted {items : List Json} {parts : List Description} :
    WrittenAll items parts → ∀ item ∈ items, Accepted item
  | .nil => List.forall_mem_nil _
  | .cons head tail => List.forall_mem_cons.2 ⟨head.accepted, tail.accepted⟩

end

theorem exists_writtenAll {items : List Json} (each : ∀ item ∈ items, ∃ d, Written item d) :
    ∃ parts, WrittenAll items parts := by
  induction items with
  | nil => exact ⟨[], .nil⟩
  | cons item items ih =>
    obtain ⟨head, tail⟩ := List.forall_mem_cons.1 each
    obtain ⟨part, written⟩ := head
    obtain ⟨parts, all⟩ := ih tail
    exact ⟨part :: parts, .cons written all⟩

theorem Accepted.exists_written {value : Json} (accepted : Accepted value) :
    ∃ d, Written value d := by
  induction accepted with
  | text value => exact ⟨_, .text value⟩
  | symbol n small => exact ⟨_, .symbol n (Nat.lt_succ_of_le small)⟩
  | empty => exact ⟨_, .empty⟩
  | concat items _ each =>
    obtain ⟨parts, all⟩ := exists_writtenAll each
    exact ⟨_, .concat all⟩
  | union items some_item _ each =>
    obtain ⟨parts, all⟩ := exists_writtenAll each
    cases all with
    | nil => exact absurd rfl some_item
    | cons head tail => exact ⟨_, .union (.cons head tail)⟩
  | loop value _ inner =>
    obtain ⟨body, written⟩ := inner
    exact ⟨_, .loop written⟩

theorem accepted_iff {value : Json} : Accepted value ↔ ∃ d, ofJson value = .ok d := by
  simp only [ofJson_eq_ok_iff]
  constructor
  · exact Accepted.exists_written
  · rintro ⟨d, written⟩
    exact written.accepted

/-! ## Offences -/

/-- What is wrong with a value, apart from the values inside it. -/
inductive Offends : Json → BuildError → Prop
  | bare (value : Json) (no_text : ∀ text, value ≠ .string text)
      (no_object : ∀ members, value ≠ .object members) :
      Offends value (.invalidOperand (.bare value.kind))
  | keyCount (members : List (String × Json)) (count : members.length ≠ 1) :
      Offends (.object members) (.invalidOperand (.keyCount members.length))
  | unknownKey (key : String) (body : Json)
      (unknown : key ∉ ["symbol", "empty", "repeat", "concat", "union"]) :
      Offends (.object [(key, body)]) (.invalidOperand (.unknownKey key))
  | symbolBody (body : Json) (no_number : ∀ n, body ≠ .nat n) :
      Offends (.object [("symbol", body)]) (.invalidOperand (.symbolBody body.kind))
  | symbolOutOfRange (n : Nat) (large : 255 < n) :
      Offends (.object [("symbol", .nat n)]) (.symbolOutOfRange n)
  | emptyBody (body : Json) (no_null : body ≠ .null) :
      Offends (.object [("empty", body)]) (.invalidOperand (.emptyBody body.kind))
  | listBody (key : String) (body : Json) (combines : key ∈ ["concat", "union"])
      (no_list : ∀ items, body ≠ .array items) :
      Offends (.object [(key, body)]) (.invalidOperand (.listBody key body.kind))
  | noOperands : Offends (.object [("union", .array [])]) .noOperands

/-- The node is as it should be, apart from the values inside it. -/
def Clean (node : Json) : Prop := ∀ e, ¬ Offends node e

theorem Offends.ofJson_eq_error {value : Json} {e : BuildError} (offends : Offends value e) :
    ofJson value = .error e := by
  cases offends with
  | bare value no_text no_object =>
    exact ofJson.eq_11 value no_text (fun _ _ => no_object _) no_object
  | keyCount members count =>
    refine ofJson.eq_10 members fun key body single => count ?_
    rw [single, List.length_singleton]
  | unknownKey key body unknown =>
    simp only [List.mem_cons, List.not_mem_nil, or_false, not_or] at unknown
    obtain ⟨symbol, empty, loop, concat, union⟩ := unknown
    exact ofJson.eq_9 key body symbol empty loop concat union (fun _ same _ => concat same)
      fun _ same _ => union same
  | symbolBody body no_number =>
    rw [ofJson, symbolOfJson]
    exact no_number
  | symbolOutOfRange n large => exact if_neg (Nat.not_lt.2 large)
  | emptyBody body no_null =>
    rw [ofJson, emptyOfJson]
    exact no_null
  | listBody key body combines no_list =>
    simp only [List.mem_cons, List.not_mem_nil, or_false] at combines
    obtain rfl | rfl := combines
    · exact ofJson.eq_7 body no_list
    · exact ofJson.eq_8 body no_list
  | noOperands => rfl

theorem Offends.unique {value : Json} {e e' : BuildError} (h : Offends value e)
    (h' : Offends value e') : e = e' :=
  Except.error.inj (h.ofJson_eq_error.symm.trans h'.ofJson_eq_error)

/-- What the rules ask of an object with one key. They are inverted for a value that equals the
object, since two keys are not told apart where they are indices of the rules. -/
theorem Offends.of_member {key : String} {body : Json} {e : BuildError}
    (offends : Offends (.object [(key, body)]) e) :
    key ∉ ["symbol", "empty", "repeat", "concat", "union"] ∨
    (key = "symbol" ∧ ∀ n, body = .nat n → 255 < n) ∨
    (key = "empty" ∧ body ≠ .null) ∨
    (key ∈ ["concat", "union"] ∧ ∀ items, body ≠ .array items) ∨
    (key = "union" ∧ body = .array []) := by
  generalize same : Json.object [(key, body)] = value at offends
  cases offends <;> grind [Json.nat]

theorem clean_text (value : String) : Clean (.string value) := by
  intro e offends
  cases offends with
  | bare _ no_text _ => exact no_text value rfl

theorem clean_symbol {n : Nat} (small : n ≤ 255) : Clean (.object [("symbol", .nat n)]) := by
  intro e offends
  grind [offends.of_member]

theorem clean_empty : Clean (.object [("empty", .null)]) := by
  intro e offends
  grind [offends.of_member]

theorem clean_loop (body : Json) : Clean (.object [("repeat", body)]) := by
  intro e offends
  grind [offends.of_member]

theorem clean_concat (items : List Json) : Clean (.object [("concat", .array items)]) := by
  intro e offends
  grind [offends.of_member]

theorem clean_union {items : List Json} (some_item : items ≠ []) :
    Clean (.object [("union", .array items)]) := by
  intro e offends
  grind [offends.of_member]

/-! ## The nodes of a tree -/

mutual

/-- The value and the operands in it, each before those inside it and from left to right. -/
def nodes : Json → List Json
  | .object [("repeat", body)] => .object [("repeat", body)] :: nodes body
  | .object [("concat", .array items)] => .object [("concat", .array items)] :: nodesOfAll items
  | .object [("union", .array items)] => .object [("union", .array items)] :: nodesOfAll items
  | value => [value]

/-- The nodes of several values, one value after the other. -/
def nodesOfAll : List Json → List Json
  | [] => []
  | item :: items => nodes item ++ nodesOfAll items

end

theorem exists_nodes_eq_cons (value : Json) : ∃ inner, nodes value = value :: inner := by
  fun_cases nodes value with
  | case1 body => exact ⟨_, rfl⟩
  | case2 items => exact ⟨_, rfl⟩
  | case3 items => exact ⟨_, rfl⟩
  | case4 value => exact ⟨[], rfl⟩

/-! ## First offences -/

section FirstOffence

variable {node : Json} {front back : List Json} {e e' : BuildError}

/-- The error of the first node that offends. -/
def FirstOffence (visited : List Json) (e : BuildError) : Prop :=
  ∃ front node back, visited = front ++ node :: back ∧ (∀ earlier ∈ front, Clean earlier) ∧
    Offends node e

theorem firstOffence_cons :
    FirstOffence (node :: back) e ↔ Offends node e ∨ Clean node ∧ FirstOffence back e := by
  constructor
  · rintro ⟨_ | ⟨head, front⟩, offender, rest, split, clean, offends⟩
    · obtain ⟨rfl, rfl⟩ := List.cons.inj split
      exact .inl offends
    · obtain ⟨rfl, rfl⟩ := List.cons.inj split
      obtain ⟨head, tail⟩ := List.forall_mem_cons.1 clean
      exact .inr ⟨head, front, offender, rest, rfl, tail, offends⟩
  · rintro (offends | ⟨clean, front, offender, rest, rfl, earlier, offends⟩)
    · exact ⟨[], node, back, rfl, List.forall_mem_nil _, offends⟩
    · exact ⟨node :: front, offender, rest, rfl, List.forall_mem_cons.2 ⟨clean, earlier⟩, offends⟩

theorem FirstOffence.append_right (first : FirstOffence front e) (back : List Json) :
    FirstOffence (front ++ back) e := by
  obtain ⟨earlier, offender, later, rfl, clean, offends⟩ := first
  exact ⟨earlier, offender, later ++ back, by simp, clean, offends⟩

theorem FirstOffence.append_left (clean : ∀ node ∈ front, Clean node)
    (first : FirstOffence back e) : FirstOffence (front ++ back) e := by
  obtain ⟨earlier, offender, later, rfl, clean', offends⟩ := first
  exact ⟨front ++ earlier, offender, later, by simp, List.forall_mem_append.2 ⟨clean, clean'⟩,
    offends⟩

theorem FirstOffence.not_clean (first : FirstOffence front e) :
    ¬ ∀ node ∈ front, Clean node := by
  obtain ⟨earlier, offender, later, rfl, _, offends⟩ := first
  intro clean
  exact clean offender (by simp) e offends

theorem FirstOffence.unique (first : FirstOffence front e) (first' : FirstOffence front e') :
    e = e' := by
  induction front with
  | nil =>
    obtain ⟨front, offender, rest, split, _⟩ := first
    simp at split
  | cons node front ih =>
    obtain offends | ⟨clean, later⟩ := firstOffence_cons.1 first <;>
      obtain offends' | ⟨clean', later'⟩ := firstOffence_cons.1 first'
    · exact offends.unique offends'
    · exact absurd offends (clean' e)
    · exact absurd offends' (clean e')
    · exact ih later later'

end FirstOffence

/-! ## What reading says of the nodes -/

section Explains

variable {α β : Type} {front back : List Json} {node : Json} {result : Except BuildError α}

/-- The nodes read so far are clean, or the error is the one of the first that is not. -/
def Explains (visited : List Json) : Except BuildError α → Prop
  | .ok _ => ∀ node ∈ visited, Clean node
  | .error e => FirstOffence visited e

theorem Explains.of_offends {e : BuildError} (offends : Offends node e) (back : List Json) :
    Explains (node :: back) (.error e : Except BuildError α) :=
  firstOffence_cons.2 (.inl offends)

theorem Explains.cons (clean : Clean node) (h : Explains back result) :
    Explains (node :: back) result := by
  cases result with
  | ok a => exact List.forall_mem_cons.2 ⟨clean, h⟩
  | error e => exact firstOffence_cons.2 (.inr ⟨clean, h⟩)

/-- Reading goes on with later nodes only after a success. -/
theorem Explains.bind {next : α → Except BuildError β} (h : Explains front result)
    (h' : ∀ a, result = .ok a → Explains back (next a)) :
    Explains (front ++ back) (result >>= next) := by
  cases result with
  | error e => exact h.append_right back
  | ok a =>
    have later := h' a rfl
    change Explains (front ++ back) (next a)
    cases following : next a with
    | ok b =>
      rw [following] at later
      exact List.forall_mem_append.2 ⟨h, later⟩
    | error e =>
      rw [following] at later
      exact later.append_left h

theorem Explains.map (f : α → β) (h : Explains front result) : Explains front (result.map f) := by
  cases result with
  | ok a => exact h
  | error e => exact h

end Explains

theorem Offends.explains {value : Json} {e : BuildError} (offends : Offends value e) :
    Explains (nodes value) (ofJson value) := by
  obtain ⟨inner, list⟩ := exists_nodes_eq_cons value
  rw [list, offends.ofJson_eq_error]
  exact .of_offends offends inner

theorem explains_symbolOfJson (body : Json) :
    Explains (nodes (.object [("symbol", body)])) (symbolOfJson body) := by
  by_cases number : ∃ n, body = .nat n
  · obtain ⟨n, rfl⟩ := number
    by_cases small : n ≤ 255
    · rw [Json.nat, symbolOfJson_of_lt (Nat.lt_succ_of_le small)]
      exact List.forall_mem_singleton.2 (clean_symbol small)
    · exact (Offends.symbolOutOfRange n (Nat.lt_of_not_le small)).explains
  · exact (Offends.symbolBody body fun n same => number ⟨n, same⟩).explains

theorem explains_emptyOfJson (body : Json) :
    Explains (nodes (.object [("empty", body)])) (emptyOfJson body) := by
  by_cases null : body = .null
  · rw [null]
    exact List.forall_mem_singleton.2 clean_empty
  · exact (Offends.emptyBody body null).explains

theorem explains_unionOfParts {items : List Json} {parts : List Description}
    (some_item : items ≠ []) (read : ofJsonList items = .ok parts) :
    Explains [] (unionOfParts parts) := by
  have all : WrittenAll items parts := written_of_ofJson.2 items parts read
  cases all with
  | nil => exact absurd rfl some_item
  | cons head tail => exact List.forall_mem_nil _

theorem explains_ofJson :
    (∀ value, Explains (nodes value) (ofJson value)) ∧
      ∀ items, Explains (nodesOfAll items) (ofJsonList items) := by
  apply ofJson.mutual_induct
  case case1 =>
    intro value
    exact List.forall_mem_singleton.2 (clean_text value)
  case case2 =>
    intro body
    exact explains_symbolOfJson body
  case case3 =>
    intro body
    exact explains_emptyOfJson body
  case case4 =>
    intro body ih
    rw [nodes, ofJson]
    exact .cons (clean_loop body) (ih.map loop)
  case case5 =>
    intro items ih
    rw [nodes, ofJson]
    exact .cons (clean_concat items) (ih.map concat)
  case case6 =>
    intro items ih
    by_cases none_given : items = []
    · rw [none_given]
      exact Offends.noOperands.explains
    · have whole := ih.bind fun parts read => explains_unionOfParts none_given read
      rw [List.append_nil] at whole
      rw [nodes, ofJson]
      exact .cons (clean_union none_given) whole
  case case7 =>
    intro body no_list
    exact (Offends.listBody "concat" body (by simp) no_list).explains
  case case8 =>
    intro body no_list
    exact (Offends.listBody "union" body (by simp) no_list).explains
  case case9 =>
    intro body key symbol empty loop concat union _ _
    refine (Offends.unknownKey key body ?_).explains
    simp only [List.mem_cons, List.not_mem_nil, or_false, not_or]
    exact ⟨symbol, empty, loop, concat, union⟩
  case case10 =>
    intro members several
    refine (Offends.keyCount members fun single => ?_).explains
    obtain ⟨⟨key, body⟩, rfl⟩ := List.length_eq_one_iff.1 single
    exact several key body rfl
  case case11 =>
    intro value no_text _ no_object
    exact (Offends.bare value no_text no_object).explains
  case case12 => exact List.forall_mem_nil _
  case case13 =>
    intro item items head tail
    rw [nodesOfAll, ofJsonList]
    exact head.bind fun first _ => tail.map (first :: ·)

/-! ## Fragments -/

/-- A value gives a fragment exactly if it is accepted. The error of any other value is the one of
its first node that offends, whatever comes after that node or stands around it. -/
theorem accepted_or_first_offence (value : Json) :
    ((∃ f, Fragment.ofJson value = .ok f) ↔ Accepted value) ∧
    ∀ e, Fragment.ofJson value = .error e ↔ FirstOffence (nodes value) e := by
  have explained : Explains (nodes value) (ofJson value) := explains_ofJson.1 value
  rw [accepted_iff, Fragment.ofJson]
  cases read : ofJson value with
  | ok d =>
    rw [read] at explained
    refine ⟨⟨fun _ => ⟨d, rfl⟩, fun _ => ⟨d.build, rfl⟩⟩, fun e => ⟨nofun, fun first => ?_⟩⟩
    exact absurd explained first.not_clean
  | error e =>
    rw [read] at explained
    refine ⟨⟨nofun, nofun⟩, fun e' => ⟨?_, fun first => ?_⟩⟩
    · rintro ⟨⟩
      exact explained
    · rw [explained.unique first]
      rfl

-- The bare array stands inside the second operand, before the union of nothing.
example : Fragment.ofJson (.object [("concat", .array
    [.string "a", .object [("repeat", .array [])], .object [("union", .array [])]])]) =
      .error (.invalidOperand (.bare .array)) := rfl

/-! ## Operands one after the other -/

theorem allOperands_ofJson (items : List Json) :
    allOperands (items.map Operand.ofJson) = (ofJsonList items).map (·.map toOperand) := by
  induction items with
  | nil => rfl
  | cons item items ih =>
    rw [List.map_cons, Operand.ofJson, ofJsonList]
    cases ofJson item with
    | error e => rfl
    | ok first =>
      rw [Except.map, allOperands, ih]
      cases ofJsonList items with
      | error e => rfl
      | ok rest => rfl

theorem ofJson_concat (items : List Json) :
    Fragment.ofJson (.object [("concat", .array items)]) =
      concatAll (items.map Operand.ofJson) := by
  rw [Fragment.ofJson, ofJson, concatAll, allOperands_ofJson]
  cases ofJsonList items with
  | error e => rfl
  | ok parts => exact congrArg Except.ok (concatOperands_toOperand parts).symm

theorem ofJson_union (items : List Json) :
    Fragment.ofJson (.object [("union", .array items)]) = unionAll (items.map Operand.ofJson) := by
  rw [Fragment.ofJson, ofJson, unionAll, allOperands_ofJson]
  cases ofJsonList items with
  | error e => rfl
  | ok parts =>
    cases parts with
    | nil => rfl
    | cons first rest => exact (unionOperands_toOperand first rest).symm

end Description

end FragmentAlgebra
