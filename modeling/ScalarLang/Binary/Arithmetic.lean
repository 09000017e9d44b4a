import ScalarLang.Binary.Rounding

/-
  Arithmetic and comparison of binary floating-point numbers.
  Each operation on finite numbers is the exact result, rounded once. A sum that is exactly zero
  is negative only if both terms are; products and quotients multiply signs. Operations without a
  result (`∞ - ∞`, `0 * ∞`, `0 / 0`, `∞ / ∞`) give `nan`. A NaN is unordered with everything,
  and the two zeros are equal.
-/

namespace ScalarLang.Binary

variable {fmt : Format}

/-- The exact sum of two finite numbers, rounded. -/
def addFinite (x y : Binary fmt) : Binary fmt :=
  let scale := min x.exponent y.exponent
  let sum := x.signedSignificand * Nat.pow 2 (x.exponent - scale).toNat
    + y.signedSignificand * Nat.pow 2 (y.exponent - scale).toNat
  if sum = 0 then zero (x.negative && y.negative)
  else nearestScaled (decide (sum < 0)) sum.natAbs 1 scale

def add (x y : Binary fmt) : Binary fmt :=
  if x.isNaN || y.isNaN then nan
  else if x.isInfinite then
    if y.isInfinite && x.negative != y.negative then nan else x
  else if y.isInfinite then y
  else addFinite x y

def sub (x y : Binary fmt) : Binary fmt := add x y.neg

def mul (x y : Binary fmt) : Binary fmt :=
  let negative := x.negative != y.negative
  if x.isNaN || y.isNaN then nan
  else if x.isInfinite || y.isInfinite then
    if x.isZero || y.isZero then nan else infinity negative
  else nearestScaled negative (x.significand * y.significand) 1 (x.exponent + y.exponent)

def div (x y : Binary fmt) : Binary fmt :=
  let negative := x.negative != y.negative
  if x.isNaN || y.isNaN then nan
  else if x.isInfinite then
    if y.isInfinite then nan else infinity negative
  else if y.isInfinite then zero negative
  else if y.isZero then
    if x.isZero then nan else infinity negative
  else nearestScaled negative x.significand y.significand (x.exponent - y.exponent)

/-- The position of a number that is no NaN in the order of its format. -/
def rank (x : Binary fmt) : Int :=
  if x.negative then -(x.magnitude.val : Int) else x.magnitude.val

/-- How two numbers compare; `none` if one of them is a NaN. -/
def compare? (x y : Binary fmt) : Option Ordering :=
  if x.isNaN || y.isNaN then none else some (compare x.rank y.rank)

end ScalarLang.Binary
