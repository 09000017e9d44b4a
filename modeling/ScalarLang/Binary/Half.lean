import ScalarLang.Binary.Arithmetic

/-
  Rounding to half precision.
  A number is rounded in double precision, which has every half and every midpoint of two halves,
  in one of three ways. From the midpoint above the largest half on it overflows. Below the least
  normal half it is counted in steps of the least positive half, and the count is rounded. In
  between, the bits that a half does not have are dropped; a carry moves into the exponent by
  itself, because magnitude fields are consecutive. Single precision carries the result.
-/

namespace ScalarLang.Binary

/-- The integer nearest to a number, ties to even, with the sign of the number. -/
def roundTiesEven {fmt : Format} (x : Binary fmt) : Binary fmt :=
  if x.isFinite then
    nearest x.negative (divNearestEven (x.significand * Nat.pow 2 x.exponent.toNat)
      (Nat.pow 2 (-x.exponent).toNat)) 1
  else x

/-- Halfway between the largest half, 65504, and the next step. -/
def halfOverflow : Binary .double := nearest false 65520 1

def leastNormalHalf : Binary .double := nearestScaled false 1 1 (-14)

/-- The least positive half, by which halves below the least normal one are apart. -/
def halfStep : Binary .double := nearestScaled false 1 1 (-24)

/-- The fraction bits of a double that a half does not have. -/
def droppedBits : Nat := Format.double.fractionBits - Format.half.fractionBits

/-- The magnitude of a finite number, rounded to that of a half. -/
def halfMagnitude (x : Binary .double) : Binary .double :=
  if halfOverflow.magnitude.val ≤ x.magnitude.val then infinity false
  else if x.magnitude.val < leastNormalHalf.magnitude.val then
    (x.abs.div halfStep).roundTiesEven.mul halfStep
  else
    ofBits (divNearestEven x.magnitude.val (Nat.pow 2 droppedBits) * Nat.pow 2 droppedBits)

/-- A double rounded to half precision; infinities and NaNs keep their kind and sign. -/
def roundDoubleToHalf (x : Binary .double) : Binary .single :=
  if x.isFinite then { x.halfMagnitude with negative := x.negative }.convert else x.convert

/-- A number of any format rounded to half precision. -/
def roundHalf {fmt : Format} (x : Binary fmt) : Binary .single := roundDoubleToHalf x.convert

end ScalarLang.Binary
