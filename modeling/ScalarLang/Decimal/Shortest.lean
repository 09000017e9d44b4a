import ScalarLang.Decimal.Basic

/-
  The shortest decimal that reads back as a given binary number.
  The reals that round to a finite number form an interval around it, ends included when the
  significand is even. For one digit, two digits and so on, the two neighbours of the number on
  the decimal grid of that many digits are tried; the first grid with a neighbour in the interval
  wins, the nearer one if both are in it, the upper one at a tie.
-/

namespace ScalarLang

/-- The reals that round to a number, in quarters of its last significand bit: the interval from
    `low / den` to `high / den` around `mid / den`, closed or open at both ends. -/
structure RoundingInterval where
  low : Nat
  mid : Nat
  high : Nat
  den : Nat
  closed : Bool

namespace RoundingInterval

/-- The interval of a finite positive number. Below a power of two the spacing is halved. -/
def ofBinary {fmt : Format} (x : Binary fmt) : RoundingInterval :=
  let narrow := x.fractionField == 0 && decide (1 < x.exponentField)
  let scale := x.exponent - 2
  let up := Nat.pow 2 scale.toNat
  { low := (4 * x.significand - (if narrow then 1 else 2)) * up
    mid := 4 * x.significand * up
    high := (4 * x.significand + 2) * up
    den := Nat.pow 2 (-scale).toNat
    closed := x.significand % 2 == 0 }

/-- Whether `num / den` lies in the interval. -/
def contains (i : RoundingInterval) (num den : Nat) : Bool :=
  if i.closed then decide (i.low * den ≤ num * i.den) && decide (num * i.den ≤ i.high * den)
  else decide (i.low * den < num * i.den) && decide (num * i.den < i.high * den)

end RoundingInterval

/-- The number of decimal digits of a positive natural. -/
def decimalLength (n : Nat) : Nat := (Nat.toDigits 10 n).length

/-- The largest `k` with `10 ^ k ≤ num / den`, for positive `num` and `den`. -/
def floorLog10Div (num den : Nat) : Int :=
  if den ≤ num then (decimalLength (num / den) : Int) - 1
  else -(decimalLength ((den - 1) / num) : Int)

namespace Decimal

/-- A decimal as a quotient of naturals. -/
def num (d : Decimal) : Nat := d.digits * Nat.pow 10 d.exponent.toNat
def den (d : Decimal) : Nat := Nat.pow 10 (-d.exponent).toNat

/-- Drops trailing zeros, at most `count` of them. -/
def trim : Nat → Decimal → Decimal
  | 0, d => d
  | count + 1, d =>
    if d.digits ≠ 0 ∧ d.digits % 10 = 0 then trim count ⟨d.digits / 10, d.exponent + 1⟩ else d

/-- The neighbour on the grid `10 ^ exponent` that stands for the interval's number, if any. -/
def onGrid? (i : RoundingInterval) (exponent : Int) : Option Decimal :=
  let num := i.mid * Nat.pow 10 (-exponent).toNat
  let den := i.den * Nat.pow 10 exponent.toNat
  let below : Decimal := ⟨num / den, exponent⟩
  let above : Decimal := ⟨num / den + 1, exponent⟩
  let fits := fun d : Decimal => i.contains d.num d.den
  if num % den = 0 then some below
  else if fits below then
    if fits above && decide (den ≤ 2 * (num % den)) then some above else some below
  else if fits above then some above
  else none

/-- Tries the grids from `exponent` downwards, the finest one without a test. -/
def shortestFrom (i : RoundingInterval) : Nat → Int → Decimal
  | 0, exponent =>
    ⟨i.mid * Nat.pow 10 (-exponent).toNat / (i.den * Nat.pow 10 exponent.toNat), exponent⟩
  | count + 1, exponent => (onGrid? i exponent).getD (shortestFrom i count (exponent - 1))

/-- The shortest decimal that reads back as the finite nonzero number `x`, up to sign. A grid
    with two digits more than the fraction has bits is always fine enough. -/
def shortest {fmt : Format} (x : Binary fmt) : Decimal :=
  let i := RoundingInterval.ofBinary x
  let d := shortestFrom i (fmt.fractionBits + 2) (floorLog10Div i.mid i.den)
  trim 1 d

end Decimal

end ScalarLang
