import FragmentAlgebra.Description.Language
import FragmentAlgebra.Proofs.Grammar
import FragmentAlgebra.Proofs.Loops

/-! # Descriptions and the languages of their fragments

The words of a description make a language, built from products, sums and stars
(`language_concat`, `language_union`, `language_loop`). The fragment of a description has all of
these words. It has no others if every loop closes over an isolated fragment (`LoopsIsolated`): the
operand of a loop counts without the loops directly inside it and without the products and sums of
one part around it (`core`), since those leave the language of a further loop a star.

`Realizes` carries both halves through the combinators; `realizes_build` is the induction over the
tree and `accepts_of_ofJson` what it says about a value that is read.
-/

namespace FragmentAlgebra

open scoped Computability

namespace Description

open Fragment

/-! ## Products, sums and stars of words -/

/-- The words that a description denotes. -/
def language (d : Description) : Language Symbol := {word | d.Denotes word}

/-- A word of each part, one behind the other. -/
def productLanguage (parts : List Description) : Language Symbol :=
  {word | DenotesProduct parts word}

/-- The words of any one of the parts. -/
def sumLanguage (parts : List Description) : Language Symbol :=
  {word | DenotesSum parts word}

theorem productLanguage_nil : productLanguage [] = 1 := by
  ext word
  rw [Language.mem_one]
  exact Iff.rfl

theorem productLanguage_cons (part : Description) (parts : List Description) :
    productLanguage (part :: parts) = part.language * productLanguage parts := by
  ext word
  rw [Language.mem_mul]
  constructor
  · rintro ⟨front, back, rfl, head, tail⟩
    exact ⟨front, head, back, tail, rfl⟩
  · rintro ⟨front, head, back, tail, rfl⟩
    exact ⟨front, back, rfl, head, tail⟩

theorem sumLanguage_nil : sumLanguage [] = 0 := rfl

theorem sumLanguage_cons (part : Description) (parts : List Description) :
    sumLanguage (part :: parts) = part.language + sumLanguage parts := rfl

theorem language_concat (parts : List Description) :
    (concat parts).language = productLanguage parts := rfl

theorem language_union (first : Description) (rest : List Description) :
    (union first rest).language = first.language + sumLanguage rest := rfl

theorem language_loop (body : Description) : (loop body).language = body.language∗ := by
  ext word
  rw [Language.mem_kstar]
  exact Iff.rfl

/-! ## Trees and folds -/

/-- Induction over the tree of a description. The recursor asks for a second motive, that of the lists
of parts, which is the first one for every part. -/
theorem induct {motive : Description → Prop}
    (text : ∀ value, motive (.text value)) (symbol : ∀ value, motive (.symbol value))
    (empty : motive .empty)
    (concat : ∀ parts, (∀ part ∈ parts, motive part) → motive (.concat parts))
    (union : ∀ first rest, motive first → (∀ part ∈ rest, motive part) → motive (.union first rest))
    (loop : ∀ body, motive body → motive (.loop body)) (d : Description) : motive d := by
  apply @Description.rec motive fun parts => ∀ part ∈ parts, motive part
  · exact text
  · exact symbol
  · exact empty
  · exact concat
  · exact union
  · exact loop
  · simp
  · intro head tail head_ok tail_ok
    simp only [List.mem_cons, forall_eq_or_imp]
    exact ⟨head_ok, tail_ok⟩

theorem concatOnto_eq_foldl (acc : Fragment) (parts : List Description) :
    concatOnto acc parts = parts.foldl (fun acc part => acc.concat part.build) acc := by
  induction parts generalizing acc with
  | nil => rw [concatOnto, List.foldl_nil]
  | cons part parts ih => rw [concatOnto, List.foldl_cons, ih]

theorem unionOnto_eq_foldl (acc : Fragment) (parts : List Description) :
    unionOnto acc parts = parts.foldl (fun acc part => acc.union part.build) acc := by
  induction parts generalizing acc with
  | nil => rw [unionOnto, List.foldl_nil]
  | cons part parts ih => rw [unionOnto, List.foldl_cons, ih]

theorem toFragment_toOperand (d : Description) : d.toOperand.toFragment = d.build := by
  cases d with
  | text value =>
    rw [build]
    rfl
  | symbol value =>
    rw [build]
    rfl
  | _ => rfl

theorem concatOperands_toOperand (parts : List Description) :
    concatOperands (parts.map toOperand) = (concat parts).build := by
  cases parts with
  | nil => rw [build, List.map_nil, concatOperands]
  | cons first rest =>
    rw [build, concatOnto_eq_foldl, List.map_cons, concatOperands, List.foldl_map]
    simp only [toFragment_toOperand]

theorem unionOperands_toOperand (first : Description) (rest : List Description) :
    unionOperands ((first :: rest).map toOperand) = .ok (union first rest).build := by
  rw [build, unionOnto_eq_foldl, List.map_cons, unionOperands, List.foldl_map]
  simp only [toFragment_toOperand]

theorem hereditary_build {P : Fragment → Prop} (h : Hereditary P) (d : Description) :
    P d.build := by
  induction d using induct with
  | text value =>
    rw [build]
    exact h.ofBytes _
  | symbol value =>
    rw [build]
    exact h.literal value
  | empty =>
    rw [build]
    exact h.empty
  | concat parts ih =>
    cases parts with
    | nil =>
      rw [build]
      exact h.empty
    | cons first rest =>
      rw [List.forall_mem_cons] at ih
      rw [build, concatOnto_eq_foldl]
      exact rest.foldlRecOn _ ih.1 fun acc made part mem => h.concat made (ih.2 part mem)
  | union first rest head tail =>
    rw [build, unionOnto_eq_foldl]
    exact rest.foldlRecOn _ head fun acc made part mem => h.union made (tail part mem)
  | loop body ih =>
    rw [build]
    exact h.loop ih

theorem wellFormed_build (d : Description) : d.build.WellFormed :=
  hereditary_build hereditary_wellFormed d

/-! ## Loops over isolated fragments -/

/-- The description without the loops and the products and sums of one part around it. -/
def core : Description → Description
  | .loop body => body.core
  | .concat [part] => part.core
  | .union part [] => part.core
  | d => d

mutual

/-- Every loop closes over an isolated fragment. -/
def LoopsIsolated : Description → Prop
  | .concat parts => AllLoopsIsolated parts
  | .union first rest => first.LoopsIsolated ∧ AllLoopsIsolated rest
  | .loop body => body.core.build.Isolated ∧ body.LoopsIsolated
  | _ => True

/-- No part has a loop around a body that is not isolated. -/
def AllLoopsIsolated : List Description → Prop
  | [] => True
  | part :: parts => part.LoopsIsolated ∧ AllLoopsIsolated parts

end

theorem build_concat_one (part : Description) : (concat [part]).build = part.build := by
  rw [build, concatOnto]

theorem build_union_one (part : Description) : (union part []).build = part.build := by
  rw [build, unionOnto]

theorem build_loop (body : Description) : (loop body).build = body.build.loop := by
  rw [build]

/-- The loop of a description is a star if its core is isolated. Stripped loops do not matter: whatever
they close over, looping it once more gives a star. -/
theorem language_loop_build (d : Description) (alone : d.core.build.Isolated) :
    d.build.loop.language = d.build.language∗ := by
  induction d using core.induct with
  | case1 body ih =>
    rw [build_loop]
    exact language_loop_loop (wellFormed_build body)
  | case2 part ih =>
    rw [core] at alone
    rw [build_concat_one]
    exact ih alone
  | case3 part ih =>
    rw [core] at alone
    rw [build_union_one]
    exact ih alone
  | case4 d not_loop not_concat not_union =>
    have same : d.core = d := by
      rw [core]
      · exact not_loop
      · exact not_concat
      · exact not_union
    rw [same] at alone
    exact language_loop_of_isolated alone (wellFormed_build d)

/-! ## What the combinators realize -/

/-- The fragment has the words of `l`, and no others if `exact` holds. -/
structure Realizes (f : Fragment) (l : Language Symbol) (exact : Prop) : Prop where
  wellFormed : f.WellFormed
  lower : l ≤ f.language
  upper : exact → f.language ≤ l

namespace Realizes

variable {a b : Fragment} {l m : Language Symbol} {p q : Prop}

theorem of_eq (h : a.WellFormed) (same : a.language = l) (p : Prop) : Realizes a l p :=
  ⟨h, same.ge, fun _ => same.le⟩

theorem concat (ra : Realizes a l p) (rb : Realizes b m q) :
    Realizes (a.concat b) (l * m) (p ∧ q) where
  wellFormed := ra.wellFormed.concat rb.wellFormed
  lower := by
    rw [Fragment.language_concat ra.wellFormed rb.wellFormed]
    exact mul_le_mul' ra.lower rb.lower
  upper both := by
    rw [Fragment.language_concat ra.wellFormed rb.wellFormed]
    exact mul_le_mul' (ra.upper both.1) (rb.upper both.2)

theorem union (ra : Realizes a l p) (rb : Realizes b m q) :
    Realizes (a.union b) (l + m) (p ∧ q) where
  wellFormed := ra.wellFormed.union rb.wellFormed
  lower := by
    rw [Fragment.language_union ra.wellFormed rb.wellFormed]
    exact add_le_add ra.lower rb.lower
  upper both := by
    rw [Fragment.language_union ra.wellFormed rb.wellFormed]
    exact add_le_add (ra.upper both.1) (rb.upper both.2)

theorem loop (ra : Realizes a l p) (star : q → a.loop.language = a.language∗) :
    Realizes a.loop l∗ (q ∧ p) where
  wellFormed := ra.wellFormed.loop
  lower := (kstar_mono ra.lower).trans (kstar_language_le_loop ra.wellFormed)
  upper both := by
    rw [star both.1]
    exact kstar_mono (ra.upper both.2)

end Realizes

theorem realizes_foldl {join : Fragment → Fragment → Fragment}
    {op : Language Symbol → Language Symbol → Language Symbol}
    {total : List Description → Language Symbol}
    (keeps : ∀ {a b l m p q}, Realizes a l p → Realizes b m q →
      Realizes (join a b) (op l m) (p ∧ q))
    (total_nil : ∀ l, op l (total []) = l)
    (total_cons : ∀ l part parts,
      op l (total (part :: parts)) = op (op l part.language) (total parts))
    {acc : Fragment} {l : Language Symbol} {p : Prop} (start : Realizes acc l p)
    {parts : List Description}
    (all : ∀ part ∈ parts, Realizes part.build part.language part.LoopsIsolated) :
    Realizes (parts.foldl (fun acc part => join acc part.build) acc) (op l (total parts))
      (p ∧ AllLoopsIsolated parts) := by
  induction parts generalizing acc l p with
  | nil =>
    rw [total_nil, AllLoopsIsolated, and_true]
    exact start
  | cons part parts ih =>
    rw [List.forall_mem_cons] at all
    rw [List.foldl_cons, total_cons, AllLoopsIsolated, ← and_assoc]
    exact ih (keeps start all.1) all.2

theorem realizes_build (d : Description) : Realizes d.build d.language d.LoopsIsolated := by
  induction d using induct with
  | text value =>
    have same : (ofBytes value.toUTF8.toList).language = (text value).language := by
      ext word
      exact mem_language_ofBytes
    rw [build]
    exact .of_eq (wellFormed_ofBytes _) same _
  | symbol value =>
    have same : (literal value).language = (symbol value).language := by
      ext word
      exact mem_language_literal
    rw [build]
    exact .of_eq (wellFormed_literal value) same _
  | empty =>
    have same : Fragment.empty.language = empty.language := by
      ext word
      exact mem_language_empty
    rw [build]
    exact .of_eq wellFormed_empty same _
  | concat parts ih =>
    cases parts with
    | nil =>
      have same : Fragment.empty.language = productLanguage [] := by
        ext word
        exact mem_language_empty
      rw [build, language_concat]
      exact .of_eq wellFormed_empty same _
    | cons first rest =>
      rw [List.forall_mem_cons] at ih
      rw [build, concatOnto_eq_foldl, language_concat, productLanguage_cons, LoopsIsolated,
        AllLoopsIsolated]
      refine realizes_foldl Realizes.concat ?_ ?_ ih.1 ih.2
      · intro l
        rw [productLanguage_nil, mul_one]
      · intro l part parts
        rw [productLanguage_cons, mul_assoc]
  | union first rest head tail =>
    rw [build, unionOnto_eq_foldl, language_union, LoopsIsolated]
    refine realizes_foldl Realizes.union ?_ ?_ head tail
    · intro l
      rw [sumLanguage_nil, add_zero]
    · intro l part parts
      rw [sumLanguage_cons, add_assoc]
  | loop body ih =>
    rw [build_loop, language_loop, LoopsIsolated]
    exact ih.loop (language_loop_build body)

end Description

/-! ## Reading, building and matching -/

/-- A value from which a fragment is built is a written form of some description, and whichever it
is, the fragment accepts its words, and nothing else if its loops close over isolated fragments. -/
theorem Fragment.accepts_of_ofJson {value : Json} {f : Fragment} (read : ofJson value = .ok f) :
    (∃ d, Description.Written value d) ∧ ∀ d, Description.Written value d →
      (∀ word, d.Denotes word → f.accepts word = true) ∧
        (d.LoopsIsolated → ∀ word, f.accepts word = true ↔ d.Denotes word) := by
  obtain ⟨parsed, parsing, rfl⟩ := Description.map_eq_ok.1 read
  refine ⟨⟨parsed, Description.ofJson_eq_ok_iff.1 parsing⟩, ?_⟩
  intro d written
  have same : parsed = d :=
    Except.ok.inj (parsing.symm.trans (Description.ofJson_eq_ok_iff.2 written))
  rw [same]
  have realizes := d.realizes_build
  constructor
  · intro word mem
    exact mem_language.1 (realizes.lower mem)
  · intro isolated word
    constructor
    · intro accepted
      exact realizes.upper isolated (mem_language.2 accepted)
    · intro mem
      exact mem_language.1 (realizes.lower mem)

theorem Fragment.accepts_of_repeated_union :
    let value : Json := .object [("repeat", .object [("union", .array [.string "a", .string "b"])])]
    let d : Description := .loop (.union (.text "a") [.text "b"])
    ofJson value = .ok d.build ∧ d.LoopsIsolated ∧
      ∀ word, d.build.accepts word = true ↔ d.Denotes word := by
  intro value d
  have written : Description.Written value d :=
    .loop (.union (.cons (.text "a") (.cons (.text "b") .nil)))
  have read : ofJson value = .ok d.build :=
    Description.map_eq_ok.2 ⟨d, Description.ofJson_eq_ok_iff.2 written, rfl⟩
  have alone : (Description.union (.text "a") [.text "b"]).build.Isolated := by
    rw [Description.build, Description.unionOnto, Description.unionOnto]
    exact isolated_union (Description.wellFormed_build _) (Description.wellFormed_build _)
  have isolated : d.LoopsIsolated := by
    simp only [d, Description.LoopsIsolated, Description.AllLoopsIsolated, Description.core]
    exact ⟨alone, trivial, trivial, trivial⟩
  exact ⟨read, isolated, ((accepts_of_ofJson read).2 d written).2 isolated⟩

end FragmentAlgebra
