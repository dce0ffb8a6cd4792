import FragmentAlgebra.Description

/-! # The grammar of descriptions

`Description.Written` lists the six forms in which a description is written in JSON, one rule for
each form, without saying how a value is read. Reading gives a description exactly if the value is
written in one of these forms (`ofJson_eq_ok_iff`).
-/

namespace FragmentAlgebra

namespace Description

mutual

/-- The value is a written form of the description. -/
inductive Written : Json → Description → Prop
  | text (value : String) : Written (.string value) (.text value)
  | symbol (n : Nat) (byte : n < 256) :
      Written (.object [("symbol", .number (.unsigned n))]) (.symbol (UInt8.ofNat n))
  | empty : Written (.object [("empty", .null)]) .empty
  | concat {items : List Json} {parts : List Description} (all : WrittenAll items parts) :
      Written (.object [("concat", .array items)]) (.concat parts)
  | union {items : List Json} {first : Description} {rest : List Description}
      (all : WrittenAll items (first :: rest)) :
      Written (.object [("union", .array items)]) (.union first rest)
  | loop {value : Json} {body : Description} (inner : Written value body) :
      Written (.object [("repeat", value)]) (.loop body)

/-- The values are written forms of the descriptions, one for one. -/
inductive WrittenAll : List Json → List Description → Prop
  | nil : WrittenAll [] []
  | cons {item : Json} {items : List Json} {part : Description} {parts : List Description}
      (head : Written item part) (tail : WrittenAll items parts) :
      WrittenAll (item :: items) (part :: parts)

end

/-! ## Results of reading -/

theorem map_eq_ok {α β : Type} {f : α → β} {x : Except BuildError α} {b : β} :
    x.map f = .ok b ↔ ∃ a, x = .ok a ∧ f a = b := by
  cases x with
  | error e => simp [Except.map]
  | ok a => simp [Except.map]

theorem bind_eq_ok {α β : Type} {f : α → Except BuildError β} {x : Except BuildError α} {b : β} :
    x >>= f = .ok b ↔ ∃ a, x = .ok a ∧ f a = .ok b := by
  cases x with
  | error e => simp [bind, Except.bind]
  | ok a => simp [bind, Except.bind]

theorem symbolOfJson_of_lt {n : Nat} (byte : n < 256) :
    symbolOfJson (.number (.unsigned n)) = .ok (.symbol (UInt8.ofNat n)) := if_pos byte

theorem number_of_symbolOfJson {body : Json} {d : Description} (h : symbolOfJson body = .ok d) :
    ∃ n, n < 256 ∧ body = .number (.unsigned n) ∧ d = .symbol (UInt8.ofNat n) := by
  unfold symbolOfJson at h
  split at h
  case h_1 n =>
    split at h
    case isTrue byte => exact ⟨n, byte, rfl, (Except.ok.inj h).symm⟩
    case isFalse => cases h
  case h_2 => cases h

theorem null_of_emptyOfJson {body : Json} {d : Description} (h : emptyOfJson body = .ok d) :
    body = .null ∧ d = .empty := by
  unfold emptyOfJson at h
  split at h
  case h_1 => exact ⟨rfl, (Except.ok.inj h).symm⟩
  case h_2 => cases h

theorem cons_of_unionOfParts {parts : List Description} {d : Description}
    (h : unionOfParts parts = .ok d) :
    ∃ first rest, parts = first :: rest ∧ d = .union first rest := by
  cases parts with
  | nil => cases h
  | cons first rest => exact ⟨first, rest, rfl, (Except.ok.inj h).symm⟩

/-! ## Reading gives what is written -/

theorem written_of_ofJson :
    (∀ value d, ofJson value = .ok d → Written value d) ∧
      ∀ items parts, ofJsonList items = .ok parts → WrittenAll items parts := by
  apply ofJson.mutual_induct
  case case1 =>
    intro value d h
    obtain rfl := Except.ok.inj h
    exact .text value
  case case2 =>
    intro body d h
    obtain ⟨n, byte, rfl, rfl⟩ := number_of_symbolOfJson h
    exact .symbol n byte
  case case3 =>
    intro body d h
    obtain ⟨rfl, rfl⟩ := null_of_emptyOfJson h
    exact .empty
  case case4 =>
    intro body ih d h
    obtain ⟨inner, read, rfl⟩ := map_eq_ok.1 h
    exact .loop (ih inner read)
  case case5 =>
    intro items ih d h
    obtain ⟨parts, read, rfl⟩ := map_eq_ok.1 h
    exact .concat (ih parts read)
  case case6 =>
    intro items ih d h
    obtain ⟨parts, read, h⟩ := bind_eq_ok.1 h
    obtain ⟨first, rest, rfl, rfl⟩ := cons_of_unionOfParts h
    exact .union (ih _ read)
  case case7 =>
    intro body _ d h
    simp [ofJson] at h
  case case8 =>
    intro body _ d h
    simp [ofJson] at h
  case case9 =>
    intro body key _ _ _ _ _ _ _ d h
    simp [ofJson] at h
  case case10 =>
    intro members _ d h
    simp [ofJson] at h
  case case11 =>
    intro value _ _ _ d h
    simp [ofJson] at h
  case case12 =>
    intro parts h
    obtain rfl := Except.ok.inj h
    exact .nil
  case case13 =>
    intro item items head tail parts h
    obtain ⟨part, read, h⟩ := bind_eq_ok.1 h
    obtain ⟨rest, reads, h⟩ := bind_eq_ok.1 h
    obtain rfl := Except.ok.inj h
    exact .cons (head part read) (tail rest reads)

/-! ## What is written is read -/

mutual

theorem Written.ofJson_eq_ok {value : Json} {d : Description} :
    Written value d → ofJson value = .ok d
  | .text value => rfl
  | .symbol n byte => symbolOfJson_of_lt byte
  | .empty => rfl
  | .concat all => map_eq_ok.2 ⟨_, all.ofJsonList_eq_ok, rfl⟩
  | .union all => bind_eq_ok.2 ⟨_, all.ofJsonList_eq_ok, rfl⟩
  | .loop inner => map_eq_ok.2 ⟨_, inner.ofJson_eq_ok, rfl⟩

theorem WrittenAll.ofJsonList_eq_ok {items : List Json} {parts : List Description} :
    WrittenAll items parts → ofJsonList items = .ok parts
  | .nil => rfl
  | .cons head tail =>
    bind_eq_ok.2 ⟨_, head.ofJson_eq_ok, bind_eq_ok.2 ⟨_, tail.ofJsonList_eq_ok, rfl⟩⟩

end

theorem ofJson_eq_ok_iff {value : Json} {d : Description} :
    ofJson value = .ok d ↔ Written value d :=
  ⟨written_of_ofJson.1 value d, fun written => written.ofJson_eq_ok⟩

end Description

end FragmentAlgebra
