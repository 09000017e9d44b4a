import ScalarLang.Binary.Rounding

/-
  Decimal numbers `digits * 10 ^ exponent`, how they are read from text, and the binary number
  nearest to one. Exponents far outside a format's range are settled by their size alone, so a
  literal such as `1e999999999` costs nothing.
-/

namespace ScalarLang

/-- The nonnegative number `digits * 10 ^ exponent`. -/
structure Decimal where
  digits : Nat
  exponent : Int
deriving DecidableEq

namespace Decimal

/-- The number a run of decimal digits stands for. -/
def ofDigits (cs : List Char) : Nat :=
  cs.foldl (fun n c => 10 * n + (c.toNat - '0'.toNat)) 0

/-- The exponent part of a decimal, `e` or `E`, an optional sign and digits; zero if absent. -/
def readExponent : List Char → Int
  | e :: cs =>
    if e == 'e' || e == 'E' then
      match cs with
      | '-' :: ds => -(ofDigits (ds.takeWhile Char.isDigit) : Int)
      | '+' :: ds => ofDigits (ds.takeWhile Char.isDigit)
      | ds => ofDigits (ds.takeWhile Char.isDigit)
    else 0
  | [] => 0

/-- Reads digits, optionally a point and digits, optionally an exponent part. -/
def read (cs : List Char) : Decimal :=
  let whole := cs.takeWhile Char.isDigit
  match cs.dropWhile Char.isDigit with
  | '.' :: rest =>
    let fraction := rest.takeWhile Char.isDigit
    ⟨ofDigits (whole ++ fraction), readExponent (rest.dropWhile Char.isDigit) - fraction.length⟩
  | rest => ⟨ofDigits whole, readExponent rest⟩

/-- An exponent beyond which powers of ten, and even powers of two, leave the format's range. -/
def exponentBound (fmt : Format) : Nat := Nat.pow 2 fmt.exponentBits + fmt.fractionBits

/-- The binary number nearest to a decimal, ties to even. -/
def toBinary {fmt : Format} (d : Decimal) : Binary fmt :=
  if d.digits = 0 then .zero false
  else if exponentBound fmt ≤ d.exponent then .infinity false
  else if d.exponent + (d.digits.log2 + 1 : Nat) ≤ -(exponentBound fmt : Int) then .zero false
  else .nearest false (d.digits * Nat.pow 10 d.exponent.toNat) (Nat.pow 10 (-d.exponent).toNat)

end Decimal

end ScalarLang
