import FragmentAlgebra.Binary64.Basic

/-! # Rounding, and reading decimals

* `roundNearest`: the integer nearest to a quotient; a `TieRule` decides between two that are
  equally near.
* `Binary64.ofDecimal`: the double nearest to `digits * 10 ^ exponent`, the even one of two that are
  equally near. The value is kept as an exact quotient and rounded once.
-/

namespace FragmentAlgebra

/-- Which of two equally near integers is taken. -/
inductive TieRule
  | even
  | greater
deriving DecidableEq

/-- True if `floor + 1` is taken when `floor` is as near. -/
def TieRule.leavesFloor : TieRule → Nat → Bool
  | .even, floor => floor % 2 == 1
  | .greater, _ => true

/-- The integer nearest to `num / den`. -/
def roundNearest (ties : TieRule) (num den : Nat) : Nat :=
  let floor := num / den
  let twice := 2 * (num % den)
  if den < twice || (twice == den && ties.leavesFloor floor) then floor + 1 else floor

def decimalLength (n : Nat) : Nat := (Nat.toDigits 10 n).length

namespace Binary64

/-- The magnitude of `mantissa * 2 ^ (shift - 1074)`. A mantissa of `2 ^ 53` carries into the
exponent, and what is too large becomes infinite. -/
def assemble (mantissa shift : Nat) : Nat := min infiniteMagnitude (shift * 2 ^ 52 + mantissa)

def magnitudeOfQuotient (num den : Nat) : Nat :=
  let scaledNum := num * 2 ^ 1074
  let top := scaledNum.log2 - den.log2
  let shift := top - 53
  let shift := if 2 ^ 53 ≤ scaledNum / (den * 2 ^ shift) then shift + 1 else shift
  assemble (roundNearest .even scaledNum (den * 2 ^ shift)) shift

/-- The double nearest to `digits * 10 ^ exponent`, with the given sign. Beyond `10 ^ 400` and below
`10 ^ -400` the answer needs no division. -/
def ofDecimal (negative : Bool) (digits : Nat) (exponent : Int) : Binary64 :=
  let leading := exponent + decimalLength digits
  ofMagnitude negative <|
    if digits = 0 || leading < -400 then 0
    else if 400 < leading then infiniteMagnitude
    else magnitudeOfQuotient (digits * 10 ^ exponent.toNat) (10 ^ (-exponent).toNat)

/-- The double nearest to an integer. -/
def ofInt (n : Int) : Binary64 := ofDecimal (n < 0) n.natAbs 0

end Binary64

end FragmentAlgebra
