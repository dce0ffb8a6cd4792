import FragmentAlgebra.Proofs.Obtainable

/-! # Ingredients

What may be passed to the combinators of many operands is an `Ingredient`. It is coerced to an
operand, or it fails; `Spells` gives it its words without an operand being made.

The combinators go through their ingredients once, from the left, and stop at the first one that
fails (`concatAll_cons`, `unionAll_cons`). If none fails, the language of the result is the product
or the sum of the languages of all ingredients (`language_concatAll`, `language_unionAll`), so a
word of a product falls into one word of each ingredient (`mem_prod_iff`).
-/

namespace FragmentAlgebra

/-- What may be passed to a combinator of many operands. -/
inductive Ingredient
  | fragment (value : Fragment) (obtainable : value.Obtainable)
  | symbol (value : Symbol)
  | character (value : Char)
  | text (value : String)
  | sequence (value : List Symbol)
  | json (value : Json)
  /-- What another combinator gave, an error. -/
  | failure (cause : BuildError)
  /-- What another combinator gave, no error. -/
  | success (value : Ingredient)

namespace Ingredient

/-! ## Coercion -/

/-- The operand that an ingredient is turned into, or why it is none. -/
def coerce : Ingredient → Except BuildError Operand
  | .fragment value _ => .ok (.fragment value)
  | .symbol value => .ok (.symbol value)
  | .character value => Operand.ofChar value
  | .text value => .ok (.ofString value)
  | .sequence value => .ok (.sequence value)
  | .json value => Operand.ofJson value
  | .failure cause => .error cause
  | .success value => value.coerce

/-- The ingredient has the word. A character counts as the text that it makes up. -/
def Spells : Ingredient → List Symbol → Prop
  | .fragment value _, word => value.accepts word = true
  | .symbol value, word => word = [value]
  | .character value, word => word = (String.singleton value).toUTF8.toList
  | .text value, word => word = value.toUTF8.toList
  | .sequence value, word => word = value
  | .json value, word => ∃ f, Fragment.ofJson value = .ok f ∧ f.accepts word = true
  | .failure _, _ => False
  | .success value, word => value.Spells word

/-- The words that an ingredient spells. -/
def language (x : Ingredient) : Language Symbol := {word | x.Spells word}

variable {x : Ingredient} {operand : Operand} {operands : List Operand} {given : List Ingredient}

theorem toList_toByteArray_one (b : UInt8) : [b].toByteArray.toList = [b] := by
  have one : [b].toByteArray = ⟨#[b]⟩ := rfl
  rw [one, ByteArray.toList, ByteArray.toList.loop, ByteArray.toList.loop]
  rfl

theorem utf8_of_ascii {c : Char} (ascii : c.toNat < 128) :
    (String.singleton c).toUTF8.toList = [UInt8.ofNat c.toNat] := by
  have one_byte : String.utf8EncodeChar c = [UInt8.ofNat c.toNat] :=
    if_pos (Nat.le_of_lt_succ ascii)
  rw [String.toUTF8_eq_toByteArray, String.toByteArray_singleton, List.utf8Encode_singleton,
    one_byte, toList_toByteArray_one]

/-- An operand is a well-formed fragment with the words of what it was coerced from. -/
theorem language_of_coerce (coerced : x.coerce = .ok operand) :
    operand.toFragment.WellFormed ∧ operand.toFragment.language = x.language := by
  induction x with
  | fragment value obtainable =>
    obtain rfl := Except.ok.inj coerced
    refine ⟨obtainable.wellFormed, ?_⟩
    ext word
    exact Fragment.mem_language
  | symbol value =>
    obtain rfl := Except.ok.inj coerced
    refine ⟨Fragment.wellFormed_literal value, ?_⟩
    ext word
    exact Fragment.mem_language_literal
  | character value =>
    unfold coerce Operand.ofChar at coerced
    split at coerced
    case isTrue ascii =>
      obtain rfl := Except.ok.inj coerced
      refine ⟨Fragment.wellFormed_literal _, ?_⟩
      ext word
      refine Fragment.mem_language_literal.trans ?_
      rw [← utf8_of_ascii ascii]
      exact Iff.rfl
    case isFalse => cases coerced
  | text value =>
    obtain rfl := Except.ok.inj coerced
    refine ⟨Fragment.wellFormed_ofBytes _, ?_⟩
    ext word
    exact Fragment.mem_language_ofBytes
  | sequence value =>
    obtain rfl := Except.ok.inj coerced
    refine ⟨Fragment.wellFormed_ofBytes value, ?_⟩
    ext word
    exact Fragment.mem_language_ofBytes
  | json value =>
    rw [coerce] at coerced
    obtain ⟨d, parsed, rfl⟩ := Description.map_eq_ok.1 coerced
    have read : Fragment.ofJson value = .ok d.build := Description.map_eq_ok.2 ⟨d, parsed, rfl⟩
    rw [Description.toFragment_toOperand]
    refine ⟨d.wellFormed_build, ?_⟩
    ext word
    refine Fragment.mem_language.trans ⟨fun accepted => ⟨_, read, accepted⟩, ?_⟩
    rintro ⟨f, same, accepted⟩
    obtain rfl := Except.ok.inj (read.symm.trans same)
    exact accepted
  | failure cause => cases coerced
  | success value ih => exact ih coerced

theorem languages_of_coerced (coerced : given.map coerce = operands.map .ok) :
    (∀ operand ∈ operands, operand.toFragment.WellFormed) ∧
      operands.map (·.toFragment.language) = given.map language := by
  induction given generalizing operands with
  | nil =>
    cases operands with
    | nil => simp
    | cons operand operands => cases coerced
  | cons x given ih =>
    cases operands with
    | nil => cases coerced
    | cons operand operands =>
      rw [List.map_cons, List.map_cons, List.cons.injEq] at coerced
      obtain ⟨wf, same⟩ := language_of_coerce coerced.1
      obtain ⟨all, rest⟩ := ih coerced.2
      rw [List.forall_mem_cons, List.map_cons, List.map_cons, same, rest]
      exact ⟨⟨wf, all⟩, rfl⟩

end Ingredient

/-! ## Combining from the left -/

section

variable {results : List (Except BuildError Operand)} {operands : List Operand} {e : BuildError}

theorem foldl_allOperands (join : Fragment → Fragment → Fragment) (acc : Fragment)
    (results : List (Except BuildError Operand)) :
    (allOperands results).map (·.foldl (fun acc next => join acc next.toFragment) acc) =
      results.foldlM (fun acc next => next.map fun operand => join acc operand.toFragment) acc := by
  induction results generalizing acc with
  | nil => rfl
  | cons result results ih =>
    cases result with
    | error e => rfl
    | ok operand =>
      have next := ih (join acc operand.toFragment)
      rw [allOperands, List.foldlM_cons]
      refine Eq.trans ?_ next
      cases allOperands results <;> rfl

/-- One operand after the other is coerced and combined with those before it. -/
theorem concatAll_cons (result : Except BuildError Operand) :
    concatAll (result :: results) = result >>= fun first => results.foldlM
      (fun acc next => next.map fun operand => acc.concat operand.toFragment) first.toFragment := by
  cases result with
  | error e => rfl
  | ok first =>
    refine Eq.trans ?_ (foldl_allOperands Fragment.concat first.toFragment results)
    rw [concatAll, allOperands]
    cases allOperands results <;> rfl

theorem unionAll_cons (result : Except BuildError Operand) :
    unionAll (result :: results) = result >>= fun first => results.foldlM
      (fun acc next => next.map fun operand => acc.union operand.toFragment) first.toFragment := by
  cases result with
  | error e => rfl
  | ok first =>
    refine Eq.trans ?_ (foldl_allOperands Fragment.union first.toFragment results)
    rw [unionAll, allOperands]
    cases allOperands results <;> rfl

/-- The first result that is an error is what all of them give. -/
theorem allOperands_first_error {front back : List (Except BuildError Operand)}
    (fine : ∀ result ∈ front, ∃ operand, result = .ok operand) :
    allOperands (front ++ .error e :: back) = .error e := by
  induction front with
  | nil => rfl
  | cons result front ih =>
    rw [List.forall_mem_cons] at fine
    obtain ⟨⟨operand, rfl⟩, fine⟩ := fine
    rw [List.cons_append, allOperands, ih fine]
    rfl

theorem allOperands_isOk_iff : (∃ operands, allOperands results = .ok operands) ↔
    ∀ result ∈ results, ∃ operand, result = .ok operand := by
  simp only [allOperands_eq_ok_iff]
  constructor
  · rintro ⟨operands, rfl⟩ result mem
    obtain ⟨operand, -, rfl⟩ := List.mem_map.1 mem
    exact ⟨operand, rfl⟩
  · intro fine
    induction results with
    | nil => exact ⟨[], rfl⟩
    | cons result results ih =>
      rw [List.forall_mem_cons] at fine
      obtain ⟨⟨operand, rfl⟩, fine⟩ := fine
      obtain ⟨operands, rfl⟩ := ih fine
      exact ⟨operand :: operands, rfl⟩

end

/-! ## Products and sums of many languages -/

namespace Fragment

variable {operands : List Operand} {f : Fragment}

/-- A fold of fragments has the language that the same fold makes of their languages. -/
theorem language_foldl {join : Fragment → Fragment → Fragment}
    {op : Language Symbol → Language Symbol → Language Symbol}
    {total : List (Language Symbol) → Language Symbol}
    (keeps : ∀ {a b : Fragment}, a.WellFormed → b.WellFormed →
      (join a b).WellFormed ∧ (join a b).language = op a.language b.language)
    (total_nil : ∀ l, op l (total []) = l)
    (total_cons : ∀ l m rest, op l (total (m :: rest)) = op (op l m) (total rest))
    {acc : Fragment} (wf : acc.WellFormed)
    (all : ∀ operand ∈ operands, operand.toFragment.WellFormed) :
    (operands.foldl (fun acc next => join acc next.toFragment) acc).language =
      op acc.language (total (operands.map (·.toFragment.language))) := by
  induction operands generalizing acc with
  | nil => rw [List.foldl_nil, List.map_nil, total_nil]
  | cons operand operands ih =>
    rw [List.forall_mem_cons] at all
    obtain ⟨joined, same⟩ := keeps wf all.1
    rw [List.foldl_cons, ih joined all.2, same, List.map_cons, total_cons]

theorem language_concatOperands (all : ∀ operand ∈ operands, operand.toFragment.WellFormed) :
    (concatOperands operands).language = (operands.map (·.toFragment.language)).prod := by
  cases operands with
  | nil =>
    ext word
    rw [List.map_nil, List.prod_nil, Language.mem_one]
    exact mem_language_empty
  | cons first rest =>
    rw [List.forall_mem_cons] at all
    rw [List.map_cons, List.prod_cons]
    refine language_foldl ?_ ?_ ?_ all.1 all.2
    · intro a b wa wb
      exact ⟨wa.concat wb, language_concat wa wb⟩
    · intro l
      rw [List.prod_nil, mul_one]
    · intro l m rest
      rw [List.prod_cons, mul_assoc]

theorem language_unionOperands (all : ∀ operand ∈ operands, operand.toFragment.WellFormed)
    (summed : unionOperands operands = .ok f) :
    f.language = (operands.map (·.toFragment.language)).sum := by
  cases operands with
  | nil => cases summed
  | cons first rest =>
    rw [List.forall_mem_cons] at all
    obtain rfl := Except.ok.inj summed
    rw [List.map_cons, List.sum_cons]
    refine language_foldl ?_ ?_ ?_ all.1 all.2
    · intro a b wa wb
      exact ⟨wa.union wb, language_union wa wb⟩
    · intro l
      rw [List.sum_nil, add_zero]
    · intro l m rest
      rw [List.sum_cons, add_assoc]

end Fragment

namespace Ingredient

variable {given : List Ingredient} {f : Fragment} {word : List Symbol}

theorem mem_prod_iff : word ∈ (given.map language).prod ↔
    ∃ words : List (List Symbol), word = words.flatten ∧ List.Forall₂ Spells given words := by
  induction given generalizing word with
  | nil => simp
  | cons x given ih =>
    rw [List.map_cons, List.prod_cons, Language.mem_mul]
    constructor
    · rintro ⟨front, spelled, back, rest, rfl⟩
      obtain ⟨words, rfl, all⟩ := ih.1 rest
      exact ⟨front :: words, rfl, .cons spelled all⟩
    · rintro ⟨words, rfl, all⟩
      cases all with
      | @cons _ front _ words spelled all =>
        exact ⟨front, spelled, words.flatten, ih.2 ⟨words, rfl, all⟩, rfl⟩

theorem mem_sum_iff : word ∈ (given.map language).sum ↔ ∃ x ∈ given, x.Spells word := by
  induction given with
  | nil => simp
  | cons x given ih =>
    rw [List.map_cons, List.sum_cons, Language.mem_add, ih, List.exists_mem_cons_iff]
    exact Iff.rfl

theorem language_concatAll (combined : concatAll (given.map coerce) = .ok f) :
    f.language = (given.map language).prod := by
  obtain ⟨operands, listed, rfl⟩ := Description.map_eq_ok.1 combined
  obtain ⟨all, same⟩ := languages_of_coerced (allOperands_eq_ok_iff.1 listed)
  rw [Fragment.language_concatOperands all, same]

theorem language_unionAll (combined : unionAll (given.map coerce) = .ok f) :
    f.language = (given.map language).sum := by
  obtain ⟨operands, listed, summed⟩ := Description.bind_eq_ok.1 combined
  obtain ⟨all, same⟩ := languages_of_coerced (allOperands_eq_ok_iff.1 listed)
  rw [Fragment.language_unionOperands all summed, same]

/-! ## Success and failure -/

theorem allOperands_coerce_isOk_iff :
    (∃ operands, allOperands (given.map coerce) = .ok operands) ↔
      ∀ x ∈ given, ∃ operand, x.coerce = .ok operand := by
  rw [allOperands_isOk_iff, List.forall_mem_map]

theorem concatAll_isOk_iff : (∃ f, concatAll (given.map coerce) = .ok f) ↔
    ∀ x ∈ given, ∃ operand, x.coerce = .ok operand := by
  rw [← allOperands_coerce_isOk_iff]
  constructor
  · rintro ⟨f, combined⟩
    obtain ⟨operands, listed, -⟩ := Description.map_eq_ok.1 combined
    exact ⟨operands, listed⟩
  · rintro ⟨operands, listed⟩
    exact ⟨concatOperands operands, Description.map_eq_ok.2 ⟨operands, listed, rfl⟩⟩

theorem unionAll_isOk_iff : (∃ f, unionAll (given.map coerce) = .ok f) ↔
    given ≠ [] ∧ ∀ x ∈ given, ∃ operand, x.coerce = .ok operand := by
  rw [← allOperands_coerce_isOk_iff]
  cases given with
  | nil =>
    constructor
    · rintro ⟨f, combined⟩
      cases combined
    · rintro ⟨full, -⟩
      exact absurd rfl full
  | cons x given =>
    constructor
    · rintro ⟨f, combined⟩
      obtain ⟨operands, listed, -⟩ := Description.bind_eq_ok.1 combined
      exact ⟨List.cons_ne_nil x given, operands, listed⟩
    · rintro ⟨-, operands, listed⟩
      have one_for_each := allOperands_eq_ok_iff.1 listed
      cases operands with
      | nil => cases one_for_each
      | cons first rest => exact ⟨_, Description.bind_eq_ok.2 ⟨first :: rest, listed, rfl⟩⟩

theorem combine_first_error {front back : List Ingredient} {x : Ingredient} {e : BuildError}
    (fine : ∀ y ∈ front, ∃ operand, y.coerce = .ok operand) (failed : x.coerce = .error e) :
    concatAll ((front ++ x :: back).map coerce) = .error e ∧
      unionAll ((front ++ x :: back).map coerce) = .error e := by
  have first : allOperands ((front ++ x :: back).map coerce) = .error e := by
    rw [List.map_append, List.map_cons, failed]
    exact allOperands_first_error (List.forall_mem_map.2 fine)
  rw [concatAll, unionAll, first]
  exact ⟨rfl, rfl⟩

/-- The combinators of many operands are products and sums. A product is made exactly if every
ingredient can be coerced, and accepts what falls into one word of each, in order, and so the empty
word alone if there are none. A sum is made exactly if there is an ingredient and each can be
coerced, and accepts what some ingredient spells. Otherwise the first ingredient that cannot be
coerced gives the error of both, whatever comes behind it. -/
theorem product_and_sum_of_all (given : List Ingredient) :
    ((∃ f, concatAll (given.map coerce) = .ok f) ↔
        ∀ x ∈ given, ∃ operand, x.coerce = .ok operand) ∧
      (∀ f, concatAll (given.map coerce) = .ok f → ∀ word, f.accepts word = true ↔
        ∃ words : List (List Symbol), word = words.flatten ∧ List.Forall₂ Spells given words) ∧
      ((∃ f, unionAll (given.map coerce) = .ok f) ↔
        given ≠ [] ∧ ∀ x ∈ given, ∃ operand, x.coerce = .ok operand) ∧
      (∀ f, unionAll (given.map coerce) = .ok f → ∀ word, f.accepts word = true ↔
        ∃ x ∈ given, x.Spells word) ∧
      (∀ front x back e, given = front ++ x :: back →
        (∀ y ∈ front, ∃ operand, y.coerce = .ok operand) → x.coerce = .error e →
          concatAll (given.map coerce) = .error e ∧ unionAll (given.map coerce) = .error e) ∧
      (given = [] → unionAll (given.map coerce) = .error .noOperands) := by
  refine ⟨concatAll_isOk_iff, ?_, unionAll_isOk_iff, ?_, ?_, ?_⟩
  · intro f combined word
    rw [← mem_prod_iff, ← language_concatAll combined, Fragment.mem_language]
  · intro f combined word
    rw [← mem_sum_iff, ← language_unionAll combined, Fragment.mem_language]
  · rintro front x back e rfl fine failed
    exact combine_first_error fine failed
  · rintro rfl
    rfl

/-- Two ingredients fail here, and the character comes first. -/
example : unionAll ([text "x", character 'é', json .null].map coerce) =
    .error (.symbolOutOfRange 233) := rfl

end Ingredient

end FragmentAlgebra
