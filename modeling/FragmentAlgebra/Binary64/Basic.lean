import FragmentAlgebra.Powers

/-! # Double-precision numbers

A `Binary64` is the 64-bit word of an IEEE 754 double. Its parts are read off the word: the sign,
and for a finite number the exact value `mantissa * 2 ^ exponent`. Orders and roundings are
computed on these integers, so every statement about a double is one about integers.
-/

namespace FragmentAlgebra

/-- A double, given by its 64-bit word. -/
structure Binary64 where
  bits : UInt64
deriving DecidableEq

namespace Binary64

/-! ## Parts of the word -/

/-- The bits without the sign. -/
def magnitude (x : Binary64) : Nat := x.bits.toNat % 2 ^ 63

/-- The sign bit, which zero and NaN have as well. -/
def negative (x : Binary64) : Bool := 2 ^ 63 ≤ x.bits.toNat

/-- The magnitude of the infinities: above every finite number, below every NaN. -/
def infiniteMagnitude : Nat := 0x7FF * 2 ^ 52

/-- Neither infinite nor NaN. -/
def isFinite (x : Binary64) : Bool := x.magnitude < infiniteMagnitude

def isNaN (x : Binary64) : Bool := infiniteMagnitude < x.magnitude

/-- The integer part of the exact value: below `2 ^ 53`, and at least `2 ^ 52` above the least
exponent. -/
def mantissa (x : Binary64) : Nat :=
  if x.magnitude < 2 ^ 52 then x.magnitude else 2 ^ 52 + x.magnitude % 2 ^ 52

/-- The binary exponent of the exact value, at least `-1074`. -/
def exponent (x : Binary64) : Int := (max (x.magnitude / 2 ^ 52) 1 : Nat) - 1075

/-- The exact value of a finite number in units of `2 ^ -1074`. -/
def scaled (x : Binary64) : Int :=
  let size : Int := x.mantissa * 2 ^ (x.exponent + 1074).toNat
  if x.negative then -size else size

/-! ## Special numbers -/

/-- The double with a sign and the other bits. -/
def ofMagnitude (negative : Bool) (magnitude : Nat) : Binary64 :=
  ⟨UInt64.ofNat (if negative then 2 ^ 63 + magnitude else magnitude)⟩

def zero : Binary64 := ofMagnitude false 0

def one : Binary64 := ofMagnitude false (1023 * 2 ^ 52)

def half : Binary64 := ofMagnitude false (1022 * 2 ^ 52)

def nan : Binary64 := ofMagnitude false (infiniteMagnitude + 2 ^ 51)

/-- The infinite double of either sign. -/
def infinity (negative : Bool) : Binary64 := ofMagnitude negative infiniteMagnitude

/-! ## Order -/

/-- `x < y` as numbers; false when one of them is no number. -/
def lt (x y : Binary64) : Bool :=
  if x.isNaN || y.isNaN then false
  else if x.isFinite && y.isFinite then x.scaled < y.scaled
  else if x.isFinite then !y.negative
  else x.negative && (y.isFinite || !y.negative)

/-- `x ≤ y` as numbers; false when one of them is no number. -/
def le (x y : Binary64) : Bool := !x.isNaN && !y.isNaN && !y.lt x

end Binary64

end FragmentAlgebra
