import Mathlib
import FragmentAlgebra.Random.Source
import FragmentAlgebra.Walk.Config

/-! # Doubles as probabilities

A coin is flipped by comparing a 64-bit word with a threshold. For a double between zero and one,
both excluded, the threshold is itself below `2 ^ 64` (`threshold_lt`), so the greatest word loses;
the word zero wins unless the threshold is zero, which it is below `2 ^ -64`
(`one_le_threshold_iff`). A configuration with two such coins is accepted.
-/

namespace FragmentAlgebra

namespace Binary64

variable {x y p : Binary64}

/-! ## Order -/

theorem lt_asymm (h : x.lt y = true) : y.lt x = false := by
  unfold lt at *
  revert h
  cases x.isNaN <;> cases y.isNaN <;> cases x.isFinite <;> cases y.isFinite <;>
    simp +contextual [Int.le_of_lt]

theorem lt_irrefl (x : Binary64) : x.lt x = false := by
  cases h : x.lt x with
  | false => rfl
  | true => rw [← h, lt_asymm h]

theorem le_of_lt (h : x.lt y = true) : x.le y = true := by
  have back := lt_asymm h
  unfold lt at h
  split at h
  case isTrue => cases h
  case isFalse numbers => simpa [le, back] using numbers

theorem isFinite_of_lt_of_lt (low : x.lt p = true) (high : p.lt y = true)
    (hx : x.isFinite = true) (hy : y.isFinite = true) : p.isFinite = true := by
  by_contra infinite
  unfold lt at low high
  simp_all

theorem scaled_lt_of_lt (h : x.lt y = true) (hx : x.isFinite = true) (hy : y.isFinite = true) :
    x.scaled < y.scaled := by
  unfold lt at h
  split at h
  case isTrue => cases h
  case isFalse => simpa [hx, hy] using h

/-! ## Thresholds -/

theorem scaled_zero : zero.scaled = 0 := by decide +kernel

theorem scaled_one : one.scaled = 2 ^ (64 + 1010) := by decide +kernel

theorem exponent_ge (x : Binary64) : 0 ≤ x.exponent + 1074 := by
  unfold exponent
  omega

theorem scaled_of_pos (pos : 0 < p.scaled) :
    p.scaled = p.mantissa * 2 ^ (p.exponent + 1074).toNat := by
  unfold scaled at *
  dsimp only at *
  split at pos
  case isTrue negative =>
    have size : (0 : Int) ≤ p.mantissa * 2 ^ (p.exponent + 1074).toNat := by positivity
    omega
  case isFalse positive => rw [if_neg positive]

theorem size_lt_of_lt_one (low : zero.lt p = true) (high : p.lt one = true) :
    p.mantissa * 2 ^ (p.exponent + 1074).toNat < 2 ^ (64 + 1010) := by
  have finite : p.isFinite = true := isFinite_of_lt_of_lt low high (by decide) (by decide)
  have pos := scaled_lt_of_lt low (by decide) finite
  have below := scaled_lt_of_lt high finite (by decide)
  rw [scaled_zero] at pos
  rw [scaled_one, scaled_of_pos pos] at below
  generalize 64 + 1010 = least at below ⊢
  exact_mod_cast below

/-- A size known in units of `2 ^ unit` only: multiplied by the unit, the powers are those of the
exact value. -/
theorem mul_pow_mul_pow {a b k unit : Nat} (balance : a + unit = k + b) (m : Nat) :
    m * 2 ^ a * 2 ^ unit = m * 2 ^ k * 2 ^ b := by
  calc m * 2 ^ a * 2 ^ unit
      = m * 2 ^ (a + unit) := by rw [pow_add, mul_assoc]
    _ = m * 2 ^ k * 2 ^ b := by rw [balance, pow_add, mul_assoc]

theorem mul_pow_div_pow_lt {m a b k top unit : Nat} (balance : a + unit = k + b)
    (size : m * 2 ^ k < 2 ^ (top + unit)) : m * 2 ^ a / 2 ^ b < 2 ^ top := by
  apply Nat.div_lt_of_lt_mul
  have scaled := calc m * 2 ^ a * 2 ^ unit
      = m * 2 ^ k * 2 ^ b := mul_pow_mul_pow balance m
    _ < 2 ^ (top + unit) * 2 ^ b := Nat.mul_lt_mul_of_pos_right size (by positivity)
    _ = 2 ^ b * 2 ^ top * 2 ^ unit := by ring
  exact Nat.lt_of_mul_lt_mul_right scaled

theorem one_le_mul_pow_div_pow_iff {m a b k unit : Nat} (balance : a + unit = k + b) :
    1 ≤ m * 2 ^ a / 2 ^ b ↔ 2 ^ unit ≤ m * 2 ^ k := by
  have power_pos (n : Nat) : 0 < 2 ^ n := Nat.two_pow_pos n
  calc 1 ≤ m * 2 ^ a / 2 ^ b
      ↔ 2 ^ b ≤ m * 2 ^ a := by rw [Nat.le_div_iff_mul_le (power_pos b), Nat.one_mul]
    _ ↔ 2 ^ b * 2 ^ unit ≤ m * 2 ^ a * 2 ^ unit :=
        (Nat.mul_le_mul_right_iff (power_pos unit)).symm
    _ ↔ 2 ^ unit * 2 ^ b ≤ m * 2 ^ k * 2 ^ b := by
        rw [mul_pow_mul_pow balance, Nat.mul_comm (2 ^ b)]
    _ ↔ 2 ^ unit ≤ m * 2 ^ k := Nat.mul_le_mul_right_iff (power_pos b)

/-- What is lost to the threshold is 1010 of the 1074 places of the exact value. -/
theorem exponent_balance (p : Binary64) : (p.exponent + 64).toNat + 1010 =
    (p.exponent + 1074).toNat + (-(p.exponent + 64)).toNat := by
  have least := p.exponent_ge
  omega

theorem threshold_lt (low : zero.lt p = true) (high : p.lt one = true) :
    p.threshold < 2 ^ 64 :=
  mul_pow_div_pow_lt p.exponent_balance (size_lt_of_lt_one low high)

/-- A threshold is zero below `2 ^ -64`, which is `2 ^ 1010` in the units of the exact value. -/
theorem one_le_threshold_iff (pos : 0 < p.scaled) :
    1 ≤ p.threshold ↔ 2 ^ 1010 ≤ p.scaled := by
  rw [scaled_of_pos pos]
  refine (one_le_mul_pow_div_pow_iff p.exponent_balance).trans ?_
  generalize 1010 = least
  norm_cast

/-! ## Coins that fall both ways -/

/-- Strictly between zero and one, and great enough for some word to win. -/
structure Undecided (p : Binary64) : Prop where
  pos : zero.lt p = true
  lt_one : p.lt one = true
  threshold_pos : 1 ≤ p.threshold

theorem undecided_half : half.Undecided where
  pos := by decide +kernel
  lt_one := by decide +kernel
  threshold_pos := by decide +kernel

theorem Undecided.ne_one (h : p.Undecided) : p ≠ one := by
  intro same
  have bad := h.lt_one
  rw [same, lt_irrefl] at bad
  cases bad

theorem Undecided.threshold_lt (h : p.Undecided) : p.threshold < 2 ^ 64 :=
  Binary64.threshold_lt h.pos h.lt_one

end Binary64

namespace WalkConfig

variable {config : WalkConfig}

theorem bounds_of_validate (valid : config.validate = .ok ()) :
    isProbability config.stopProbability = true ∧
      Binary64.zero.lt config.branchProbability = true ∧
        config.branchProbability.le .one = true := by
  unfold validate at valid
  split at valid
  case isTrue => cases valid
  case isFalse stop =>
    split at valid
    case isTrue => cases valid
    case isFalse branch =>
      simp only [Bool.not_eq_true', Bool.not_eq_false, Bool.and_eq_true] at stop branch
      exact ⟨stop, branch⟩

theorem validate_eq_ok (stop : config.stopProbability.Undecided)
    (branch : config.branchProbability.Undecided) : config.validate = .ok () := by
  have stops : isProbability config.stopProbability = true := by
    rw [isProbability, Binary64.le_of_lt stop.pos, Binary64.le_of_lt stop.lt_one]
    rfl
  simp [validate, stops, branch.pos, Binary64.le_of_lt branch.lt_one]

end WalkConfig

end FragmentAlgebra
