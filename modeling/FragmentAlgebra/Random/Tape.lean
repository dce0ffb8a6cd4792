import FragmentAlgebra.Random.Source

/-! # Tapes

A `Tape` is a fixed list of words, read from the start again after the last one, with a count of the
words taken. A 32-bit word is the low half of a whole word.
-/

namespace FragmentAlgebra

/-- Words in a fixed order, and the number of them taken. -/
structure Tape where
  words : Array UInt64
  taken : Nat
deriving DecidableEq

namespace Tape

def ofList (words : List UInt64) : Tape := ⟨words.toArray, 0⟩

/-- The next word; zero if the tape is empty. -/
def next (tape : Tape) : UInt64 := tape.words.getD (tape.taken % tape.words.size) 0

def advance (tape : Tape) : Tape := { tape with taken := tape.taken + 1 }

instance : RandomSource Tape where
  word tape := (tape.next, tape.advance)
  halfWord tape := (tape.next.toUInt32, tape.advance)

end Tape

end FragmentAlgebra
