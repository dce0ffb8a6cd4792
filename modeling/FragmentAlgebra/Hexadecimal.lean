/-! # Hexadecimal digits

Digits are read in either case and written in lower case; a byte takes two of them.
-/

namespace FragmentAlgebra

namespace Hexadecimal

/-- The value of a digit, in either case. -/
def digit? (c : Char) : Option Nat :=
  if '0' ≤ c && c ≤ '9' then some (c.toNat - '0'.toNat)
  else if 'a' ≤ c && c ≤ 'f' then some (c.toNat - 'a'.toNat + 10)
  else if 'A' ≤ c && c ≤ 'F' then some (c.toNat - 'A'.toNat + 10)
  else none

/-- The two digits of a byte, in lower case. -/
def byteChars (b : UInt8) : List Char :=
  [Nat.digitChar (b.toNat / 16), Nat.digitChar (b.toNat % 16)]

/-- The bytes that an even number of digits spell. -/
def bytes? : List Char → Option (List UInt8)
  | [] => some []
  | [_] => none
  | high :: low :: s => do
    let high ← digit? high
    let low ← digit? low
    let rest ← bytes? s
    some (UInt8.ofNat (16 * high + low) :: rest)

theorem digit?_digitChar {n : Nat} (h : n < 16) : digit? (Nat.digitChar n) = some n := by
  have all : ∀ m : Fin 16, digit? (Nat.digitChar m) = some m.val := by decide
  exact all ⟨n, h⟩

theorem bytes?_byteChars_append (b : UInt8) (s : List Char) :
    bytes? (byteChars b ++ s) = (bytes? s).map (b :: ·) := by
  have high := digit?_digitChar (show b.toNat / 16 < 16 by have := b.toNat_lt; omega)
  have low := digit?_digitChar (Nat.mod_lt b.toNat (by decide : 0 < 16))
  have whole : UInt8.ofNat (16 * (b.toNat / 16) + b.toNat % 16) = b := by
    rw [Nat.div_add_mod, UInt8.ofNat_toNat]
  cases h : bytes? s <;>
    simp only [byteChars, List.cons_append, List.nil_append, bytes?, high, low, whole, h, bind,
      Option.bind, Option.map]

theorem bytes?_flatMap_byteChars (bytes : List UInt8) :
    bytes? (bytes.flatMap byteChars) = some bytes := by
  induction bytes with
  | nil => rfl
  | cons b rest ih => rw [List.flatMap_cons, bytes?_byteChars_append, ih]; rfl

end Hexadecimal

end FragmentAlgebra
