import FragmentAlgebra.BuildError
import FragmentAlgebra.Fragment.Combinators

/-! # Operands and n-ary combinators

An `Operand` is a fragment, a symbol or a sequence of symbols. `concatAll` and `unionAll` combine
operands from left to right; the first operand that failed decides the error of the whole.
-/

namespace FragmentAlgebra

/-- One operand of an n-ary combinator. -/
inductive Operand
  | fragment (value : Fragment)
  | symbol (value : Symbol)
  | sequence (value : List Symbol)
deriving DecidableEq

namespace Operand

/-- The fragment that an operand stands for. -/
def toFragment : Operand → Fragment
  | .fragment value => value
  | .symbol value => .literal value
  | .sequence value => .ofBytes value

/-- A character is a symbol if it is in the alphabet. -/
def ofChar (c : Char) : Except BuildError Operand :=
  if c.toNat < 128 then .ok (.symbol (UInt8.ofNat c.toNat))
  else .error (.symbolOutOfRange c.toNat)

/-- A text is the sequence of the bytes of its UTF-8. -/
def ofString (text : String) : Operand := .sequence text.toUTF8.toList

end Operand

/-! ## Combining many operands -/

/-- The operands, if none of them failed; otherwise the error of the first that did. -/
def allOperands : List (Except BuildError Operand) → Except BuildError (List Operand)
  | [] => .ok []
  | .error e :: _ => .error e
  | .ok operand :: rest => (allOperands rest).map (operand :: ·)

/-- The product of operands; of none, the empty fragment. -/
def concatOperands : List Operand → Fragment
  | [] => .empty
  | first :: rest => rest.foldl (fun acc next => acc.concat next.toFragment) first.toFragment

/-- The sum of operands; there is none for no operands. -/
def unionOperands : List Operand → Except BuildError Fragment
  | [] => .error .noOperands
  | first :: rest =>
    .ok (rest.foldl (fun acc next => acc.union next.toFragment) first.toFragment)

/-- The product of all operands, or the first error among them. -/
def concatAll (operands : List (Except BuildError Operand)) : Except BuildError Fragment :=
  (allOperands operands).map concatOperands

/-- The sum of all operands, of which there must be one, or the first error among them. -/
def unionAll (operands : List (Except BuildError Operand)) : Except BuildError Fragment :=
  allOperands operands >>= unionOperands

end FragmentAlgebra
