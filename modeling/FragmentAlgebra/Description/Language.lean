import FragmentAlgebra.Description

/-! # The language of a description

`Description.Denotes` gives every description its words: products, sums and repetitions of the words
of its parts, without a fragment being built.
-/

namespace FragmentAlgebra

namespace Description

mutual

/-- `word` belongs to the description. -/
def Denotes : Description → List Symbol → Prop
  | .text value, word => word = value.toUTF8.toList
  | .symbol value, word => word = [value]
  | .empty, word => word = []
  | .concat parts, word => DenotesProduct parts word
  | .union first rest, word => first.Denotes word ∨ DenotesSum rest word
  | .loop body, word => ∃ pieces : List (List Symbol), word = pieces.flatten ∧
      ∀ piece ∈ pieces, body.Denotes piece

/-- `word` is made of one word of each part, in order. -/
def DenotesProduct : List Description → List Symbol → Prop
  | [], word => word = []
  | part :: parts, word => ∃ front back, word = front ++ back ∧ part.Denotes front ∧
      DenotesProduct parts back

/-- `word` belongs to some part. -/
def DenotesSum : List Description → List Symbol → Prop
  | [], _ => False
  | part :: parts, word => part.Denotes word ∨ DenotesSum parts word

end

end Description

end FragmentAlgebra
