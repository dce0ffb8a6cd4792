import FragmentAlgebra.Fragment.Combinators

/-! # Constructions

A `Construction` is a tree of combinator calls over given fragments. `build` evaluates it with any
way of joining two arenas, so that one construction can be built with `merge` and with
`mergeInOrder` and the results compared.
-/

namespace FragmentAlgebra

/-- A tree of combinator calls. -/
inductive Construction
  | leaf (fragment : Fragment)
  | concat (first second : Construction)
  | union (a b : Construction)
  | loop (body : Construction)

namespace Construction

/-- Evaluate a construction; `join` merges the arenas of two operands. -/
def build (join : Fragment → Fragment → Merged) : Construction → Fragment
  | .leaf fragment => fragment
  | .concat first second => Fragment.concatMerged (join (first.build join) (second.build join))
  | .union a b => Fragment.unionMerged (join (a.build join) (b.build join))
  | .loop body => (body.build join).loop

/-- One literal for each byte, closed by an empty fragment. -/
def word (bytes : List Symbol) : Construction :=
  bytes.foldr (fun symbol rest => concat (leaf (.literal symbol)) rest) (leaf .empty)

/-- The fragments that a construction is made of, from left to right. -/
def leaves : Construction → List Fragment
  | .leaf fragment => [fragment]
  | .concat first second => first.leaves ++ second.leaves
  | .union a b => a.leaves ++ b.leaves
  | .loop body => body.leaves

/-! ## Building with `merge` is calling the combinators -/

theorem build_concat (first second : Construction) :
    (concat first second).build Fragment.merge =
      (first.build Fragment.merge).concat (second.build Fragment.merge) := rfl

theorem build_union (a b : Construction) :
    (union a b).build Fragment.merge =
      (a.build Fragment.merge).union (b.build Fragment.merge) := rfl

theorem build_loop (body : Construction) :
    (loop body).build Fragment.merge = (body.build Fragment.merge).loop := rfl

theorem build_word (bytes : List Symbol) :
    (word bytes).build Fragment.merge = Fragment.ofBytes bytes := by
  induction bytes with
  | nil => rfl
  | cons symbol bytes ih =>
    have head : (word (symbol :: bytes)).build Fragment.merge =
        (Fragment.literal symbol).concat ((word bytes).build Fragment.merge) := rfl
    rw [head, ih, Fragment.ofBytes, Fragment.ofBytes, List.foldr_cons]

end Construction

end FragmentAlgebra
