/-
  Binary floating-point numbers as data.
  A number of a format is a sign and a magnitude field: the exponent field and the fraction
  field read as one natural number. The fields below the one of infinity are the finite
  magnitudes in increasing order, so comparing magnitudes compares fields; the fields above it
  are the NaNs. A finite number denotes `± significand * 2 ^ exponent`.
-/

namespace ScalarLang

/-- The widths of the exponent and fraction fields of a binary floating-point format. -/
structure Format where
  exponentBits : Nat
  fractionBits : Nat
  exponentBits_pos : 0 < exponentBits := by decide
  fractionBits_pos : 0 < fractionBits := by decide
deriving DecidableEq

namespace Format

def half : Format := { exponentBits := 5, fractionBits := 10 }
def single : Format := { exponentBits := 8, fractionBits := 23 }
def double : Format := { exponentBits := 11, fractionBits := 52 }

/-- The number of magnitude fields. -/
def magnitudes (fmt : Format) : Nat := Nat.pow 2 (fmt.exponentBits + fmt.fractionBits)

/-- The magnitude field of infinity: all ones in the exponent, none in the fraction. -/
def infinity (fmt : Format) : Nat := (Nat.pow 2 fmt.exponentBits - 1) * Nat.pow 2 fmt.fractionBits

/-- The magnitude field of the NaN that operations return: the top fraction bit is set. -/
def quietNaN (fmt : Format) : Nat := fmt.infinity + Nat.pow 2 (fmt.fractionBits - 1)

/-- The exponent of the least positive number. -/
def minExponent (fmt : Format) : Int :=
  2 - Nat.pow 2 (fmt.exponentBits - 1) - fmt.fractionBits

theorem quietNaN_lt_magnitudes (fmt : Format) : fmt.quietNaN < fmt.magnitudes := by
  have hf := fmt.fractionBits_pos
  have hpow : 2 ^ fmt.fractionBits = 2 * 2 ^ (fmt.fractionBits - 1) := by
    rw [← Nat.pow_succ']; congr 1; omega
  have hone : 0 < 2 ^ (fmt.fractionBits - 1) := Nat.pow_pos (by decide)
  have he : 1 ≤ 2 ^ fmt.exponentBits := Nat.pow_pos (by decide)
  have hle : 2 ^ fmt.fractionBits ≤ 2 ^ fmt.exponentBits * 2 ^ fmt.fractionBits :=
    Nat.le_mul_of_pos_left _ he
  simp only [magnitudes, quietNaN, infinity, Nat.pow_eq, Nat.pow_add, Nat.sub_mul]
  omega

theorem infinity_lt_magnitudes (fmt : Format) : fmt.infinity < fmt.magnitudes :=
  Nat.lt_of_le_of_lt (Nat.le_add_right _ _) fmt.quietNaN_lt_magnitudes

end Format

/-- A binary floating-point number: its sign bit and the rest of its bits. -/
structure Binary (fmt : Format) where
  negative : Bool
  magnitude : Fin fmt.magnitudes
deriving DecidableEq

namespace Binary

variable {fmt : Format}

def zero (negative : Bool) : Binary fmt :=
  ⟨negative, ⟨0, Nat.lt_of_le_of_lt (Nat.zero_le _) fmt.infinity_lt_magnitudes⟩⟩

def infinity (negative : Bool) : Binary fmt :=
  ⟨negative, ⟨fmt.infinity, fmt.infinity_lt_magnitudes⟩⟩

def nan : Binary fmt :=
  ⟨false, ⟨fmt.quietNaN, fmt.quietNaN_lt_magnitudes⟩⟩

/-- All bits as one number, the sign on top. -/
def toBits (x : Binary fmt) : Nat :=
  (if x.negative then fmt.magnitudes else 0) + x.magnitude.val

/-- The number with the given bits; bits above the sign are dropped. -/
def ofBits (bits : Nat) : Binary fmt :=
  ⟨bits / fmt.magnitudes % 2 == 1,
    ⟨bits % fmt.magnitudes,
      Nat.mod_lt _ (Nat.lt_of_le_of_lt (Nat.zero_le _) fmt.infinity_lt_magnitudes)⟩⟩

def isNaN (x : Binary fmt) : Bool := decide (fmt.infinity < x.magnitude.val)
def isInfinite (x : Binary fmt) : Bool := x.magnitude.val == fmt.infinity
def isFinite (x : Binary fmt) : Bool := decide (x.magnitude.val < fmt.infinity)
def isZero (x : Binary fmt) : Bool := x.magnitude.val == 0

def exponentField (x : Binary fmt) : Nat := x.magnitude.val / Nat.pow 2 fmt.fractionBits
def fractionField (x : Binary fmt) : Nat := x.magnitude.val % Nat.pow 2 fmt.fractionBits

/-- The integer significand of a finite number: a normal one has the bit above the fraction. -/
def significand (x : Binary fmt) : Nat :=
  if x.exponentField = 0 then x.fractionField else Nat.pow 2 fmt.fractionBits + x.fractionField

/-- The exponent of a finite number; zero and the subnormal numbers have the least one. -/
def exponent (x : Binary fmt) : Int :=
  fmt.minExponent + ((x.exponentField - 1 : Nat) : Int)

/-- The significand with the number's sign. -/
def signedSignificand (x : Binary fmt) : Int :=
  if x.negative then -(x.significand : Int) else x.significand

def neg (x : Binary fmt) : Binary fmt := { x with negative := !x.negative }

def abs (x : Binary fmt) : Binary fmt := { x with negative := false }

end Binary

end ScalarLang
