import FragmentAlgebra.Binary64.Rounding

/-! # Writing decimals

`Binary64.shortest` gives the fewest decimal digits that read back as a finite number, the nearest
of several such choices. The reals that round to a number form an interval around it, closed when
the mantissa is even; each decimal grid is tested at the two neighbours of the number. Both can be
equally near, as for `2 ^ -25` with seventeen digits; then a `TieRule` decides.

`DecimalLayout` says how ties go and how digits are set out, and `Binary64.render` writes a finite
number.
-/

namespace FragmentAlgebra

/-! ## Digits -/

/-- A positive decimal `0.d₁d₂…dₙ * 10 ^ (exponent + 1)`: its digits as one number, and the decimal
exponent of the leading digit. -/
structure Decimal where
  digits : Nat
  exponent : Int
deriving DecidableEq

/-- The greatest `k` with `10 ^ k ≤ num / den`, for a positive quotient. -/
def decimalExponent (num den : Nat) : Int :=
  let guess : Int := decimalLength num - decimalLength den
  if num * 10 ^ (-guess).toNat < den * 10 ^ guess.toNat then guess - 1 else guess

namespace Binary64

/-- Twice the distances from a finite positive number to the ends of its rounding interval, and the
number itself, as numerators over one denominator. -/
structure Interval where
  value : Nat
  below : Nat
  above : Nat
  den : Nat
  /-- The ends of the interval belong to it. -/
  closed : Bool
deriving DecidableEq

/-- The rounding interval of a finite positive number. The neighbour below a power of two is nearer
than the one above. -/
def interval (x : Binary64) : Interval :=
  let m := x.mantissa
  let up := 2 ^ x.exponent.toNat
  let den := 4 * 2 ^ (-x.exponent).toNat
  let narrow := m == 2 ^ 52 && -1074 < x.exponent
  { value := 4 * m * up
    below := (if narrow then 1 else 2) * up
    above := 2 * up
    den
    closed := m % 2 == 0 }

/-- True if `n * 10 ^ k` rounds to the number of the interval; `num` and `den` stand for
`10 ^ k`. -/
def Interval.holds (i : Interval) (n num den : Nat) : Bool :=
  let candidate := n * num * i.den
  let low := (i.value - i.below) * den
  let high := (i.value + i.above) * den
  if i.closed then low ≤ candidate && candidate ≤ high else low < candidate && candidate < high

/-- The nearest multiple of `10 ^ k` in the interval, if one of the two neighbours of the number on
that grid is in it. -/
def Interval.onGrid? (i : Interval) (ties : TieRule) (k : Int) : Option Nat :=
  let num := 10 ^ k.toNat
  let den := 10 ^ (-k).toNat
  let floor := i.value * den / (i.den * num)
  match i.holds floor num den, i.holds (floor + 1) num den with
  | true, true => some (roundNearest ties (i.value * den) (i.den * num))
  | true, false => some floor
  | false, true => some (floor + 1)
  | false, false => none

/-- Try the grids with `count`, `count + 1`, … digits; `fuel` bounds the number of grids. -/
def Interval.search (i : Interval) (ties : TieRule) (leading : Int) : Nat → Nat → Nat × Int
  | 0, _ => (i.value / i.den, 0)
  | fuel + 1, count =>
    let k := leading - (count - 1 : Nat)
    match i.onGrid? ties k with
    | some n => (n, k)
    | none => i.search ties leading fuel (count + 1)

def dropZeros : Nat → Nat → Nat
  | 0, n => n
  | fuel + 1, n => if n % 10 = 0 && n ≠ 0 then dropZeros fuel (n / 10) else n

/-- The fewest digits that read back as the finite positive number `x`, the nearest of several
choices. Seventeen digits always suffice. -/
def shortest (x : Binary64) (ties : TieRule) : Decimal :=
  let i := x.interval
  let (n, k) := i.search ties (decimalExponent i.value i.den) 18 1
  ⟨dropZeros 400 n, k + decimalLength n - 1⟩

end Binary64

/-! ## Layout -/

/-- How the digits of a number are chosen and set out. -/
structure DecimalLayout where
  /-- The choice between two shortest numerals that are equally near. -/
  ties : TieRule
  /-- The decimal exponents of the leading digit that are written without an exponent. -/
  positional : Int → Bool
  /-- Integers end in `.0`. -/
  pointZero : Bool

namespace DecimalLayout

/-- `digits` with the leading digit at `10 ^ exponent`, without an exponent. -/
def positionalChars (layout : DecimalLayout) (digits : List Char) (exponent : Int) : List Char :=
  if exponent < 0 then
    '0' :: '.' :: List.replicate (-exponent - 1).toNat '0' ++ digits
  else
    let whole := exponent.toNat + 1
    if digits.length ≤ whole then
      digits ++ List.replicate (whole - digits.length) '0' ++
        (if layout.pointZero then ['.', '0'] else [])
    else digits.take whole ++ '.' :: digits.drop whole

/-- `digits` with a point behind the leading one, and a signed exponent. -/
def exponentChars (digits : List Char) (exponent : Int) : List Char :=
  let fraction := match digits.drop 1 with
    | [] => []
    | rest => '.' :: rest
  let sign := if exponent < 0 then '-' else '+'
  digits.take 1 ++ fraction ++ 'e' :: sign :: Nat.toDigits 10 exponent.natAbs

/-- A decimal in the layout. -/
def chars (layout : DecimalLayout) (decimal : Decimal) : List Char :=
  let digits := Nat.toDigits 10 decimal.digits
  if layout.positional decimal.exponent then layout.positionalChars digits decimal.exponent
  else exponentChars digits decimal.exponent

end DecimalLayout

/-- The shortest decimal that is read back as the same double. -/
def Binary64.render (x : Binary64) (layout : DecimalLayout) : List Char :=
  (if x.negative then ['-'] else []) ++
    layout.chars (if x.magnitude = 0 then ⟨0, 0⟩ else x.shortest layout.ties)

end FragmentAlgebra
