import FragmentAlgebra.Binary64.Basic

/-! # Random choices

A `RandomSource` hands out 64-bit and 32-bit words and passes to its next state. From the words are
made

* `flip p`: a coin that comes up when a word is below `floor (p * 2 ^ 64)`; a certain coin takes no
  word;
* `below n`: an index below `n`, by multiplying a 32-bit word up. A second word is drawn when it
  could still carry into the index.
-/

namespace FragmentAlgebra

/-- A state that hands out words. -/
class RandomSource (σ : Type) where
  word : StateM σ UInt64
  halfWord : StateM σ UInt32

/-- The number of 64-bit words on which a coin with probability `p` comes up. -/
def Binary64.threshold (p : Binary64) : Nat :=
  p.mantissa * 2 ^ (p.exponent + 64).toNat / 2 ^ (-(p.exponent + 64)).toNat

namespace Random

variable {σ : Type} [RandomSource σ]

/-- A coin that comes up with probability `p`. -/
def flip (p : Binary64) : StateM σ Bool :=
  if p = .one then pure true
  else do
    let word ← RandomSource.word
    pure (word.toNat < p.threshold)

/-- An index below `n`, for `n` up to `2 ^ 32`. -/
def below (n : Nat) : StateM σ Nat := do
  let first ← RandomSource.halfWord
  let index := first.toNat * n / 2 ^ 32
  let low := first.toNat * n % 2 ^ 32
  if low ≤ 2 ^ 32 - n then pure index
  else
    let second ← RandomSource.halfWord
    let carry := second.toNat * n / 2 ^ 32
    pure (if 2 ^ 32 ≤ low + carry then index + 1 else index)

end Random

end FragmentAlgebra
