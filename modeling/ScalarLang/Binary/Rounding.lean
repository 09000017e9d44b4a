import ScalarLang.Binary.Basic

/-
  Rounding to the nearest number of a format, ties to the even significand.
  `Format.nearestMagnitude` rounds a quotient of naturals: it fixes the exponent from the binary
  logarithm, divides once, and rounds the integer quotient. A carry out of the significand moves
  to the next exponent by itself, because magnitude fields are consecutive.
-/

namespace ScalarLang

/-- The integer nearest to `num / den`, ties to even. -/
def divNearestEven (num den : Nat) : Nat :=
  let quotient := num / den
  let remainder := num % den
  if 2 * remainder < den then quotient
  else if den < 2 * remainder then quotient + 1
  else quotient + quotient % 2

/-- The largest `k` with `2 ^ k ≤ num / den`, for positive `num` and `den`. -/
def floorLog2Div (num den : Nat) : Int :=
  let guess : Int := (num.log2 : Int) - den.log2
  if den * Nat.pow 2 guess.toNat ≤ num * Nat.pow 2 (-guess).toNat then guess else guess - 1

namespace Format

/-- The exponent at which a magnitude with binary logarithm `top` has its last significand bit. -/
def unitExponent (fmt : Format) (top : Int) : Int :=
  max fmt.minExponent (top - fmt.fractionBits)

/-- The magnitude field of the number nearest to `num / den`. -/
def nearestMagnitude (fmt : Format) (num den : Nat) : Nat :=
  if num = 0 then 0
  else
    let unit := fmt.unitExponent (floorLog2Div num den)
    let significand := divNearestEven (num * Nat.pow 2 (-unit).toNat) (den * Nat.pow 2 unit.toNat)
    min fmt.infinity ((unit - fmt.minExponent).toNat * Nat.pow 2 fmt.fractionBits + significand)

theorem nearestMagnitude_le_infinity (fmt : Format) (num den : Nat) :
    fmt.nearestMagnitude num den ≤ fmt.infinity := by
  unfold nearestMagnitude
  split
  · exact Nat.zero_le _
  · exact Nat.min_le_left _ _

end Format

namespace Binary

variable {fmt : Format}

/-- The number nearest to `± num / den`. -/
def nearest (negative : Bool) (num den : Nat) : Binary fmt :=
  ⟨negative, ⟨fmt.nearestMagnitude num den,
    Nat.lt_of_le_of_lt (fmt.nearestMagnitude_le_infinity num den) fmt.infinity_lt_magnitudes⟩⟩

/-- The number nearest to `± num / den * 2 ^ scale`. -/
def nearestScaled (negative : Bool) (num den : Nat) (scale : Int) : Binary fmt :=
  nearest negative (num * Nat.pow 2 scale.toNat) (den * Nat.pow 2 (-scale).toNat)

/-- The nearest number of another format; infinities and NaNs keep their kind and sign. -/
def convert {target : Format} (x : Binary fmt) : Binary target :=
  if x.isNaN then { (nan : Binary target) with negative := x.negative }
  else if x.isInfinite then infinity x.negative
  else nearestScaled x.negative x.significand 1 x.exponent

end Binary

end ScalarLang
