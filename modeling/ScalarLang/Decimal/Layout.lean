import ScalarLang.Decimal.Shortest

/-
  How a binary number is written: the digits of its shortest decimal, positionally when the
  leading digit's exponent lies in a given range, and with an exponent otherwise. Positional text
  always has a digit after the point.
-/

namespace ScalarLang

/-- The choices a number's text depends on. -/
structure NumberStyle where
  /-- The exponents of the leading digit that are written positionally. -/
  plainFrom : Int
  plainTo : Int
  exponentMark : String
  infinityText : String
  nanText : String

/-- Numbers from `1e-4` up to `1e16` are written positionally. -/
def NumberStyle.result : NumberStyle :=
  { plainFrom := -4, plainTo := 15, exponentMark := "e", infinityText := "inf", nanText := "NaN" }

namespace Decimal

/-- Digits with the point after the first `point` of them, zeros filled in. -/
def plainText (digits : List Char) (point : Int) : List Char :=
  if point ≤ 0 then
    '0' :: '.' :: (List.replicate (-point).toNat '0' ++ digits)
  else if (digits.length : Int) ≤ point then
    digits ++ List.replicate (point.toNat - digits.length) '0' ++ ['.', '0']
  else
    digits.take point.toNat ++ '.' :: digits.drop point.toNat

/-- The first digit, a point if more follow, and the exponent of the first digit. -/
def scientificText (style : NumberStyle) (digits : List Char) (exponent : Int) : List Char :=
  let mantissa := match digits with
    | d :: e :: rest => d :: '.' :: e :: rest
    | ds => ds
  mantissa ++ style.exponentMark.toList ++ (toString exponent).toList

/-- The text of a positive decimal without trailing zeros. -/
def text (style : NumberStyle) (d : Decimal) : List Char :=
  let digits := Nat.toDigits 10 d.digits
  let leading := d.exponent + digits.length - 1
  if style.plainFrom ≤ leading ∧ leading ≤ style.plainTo then plainText digits (leading + 1)
  else scientificText style digits leading

end Decimal

namespace Binary

variable {fmt : Format}

/-- The text of the number without its sign. -/
def magnitudeText (style : NumberStyle) (x : Binary fmt) : List Char :=
  if x.isInfinite then style.infinityText.toList
  else if x.isZero then ['0', '.', '0']
  else (Decimal.shortest x).text style

/-- The text of a number. A NaN is written without a sign, zero with its sign. -/
def text (style : NumberStyle) (x : Binary fmt) : String :=
  if x.isNaN then style.nanText
  else String.ofList ((if x.negative then ['-'] else []) ++ x.magnitudeText style)

end Binary

end ScalarLang
