import Mathlib
import ScalarLang.Binary.Half
import ScalarLang.Proofs.Binary.Arithmetic

/-
  Rounding to half precision is correct.
  Each of the three ways of rounding a double gives the number of the field that its magnitude is
  rounded to in half precision: past the midpoint above the largest half it is infinity; among the
  small halves a double is counted in units that are exact, and the count is rounded as the
  significand would be; in between the dropped bits are those below the significand of a half, and
  the exponents of the two formats differ by a constant. So it is the nearest half.
-/

namespace ScalarLang

theorem divNearestEven_add (num k : Nat) {den : Nat} (hden : 0 < den) :
    divNearestEven (2 * k * den + num) den = 2 * k + divNearestEven num den := by
  simp only [divNearestEven, Nat.mul_comm (2 * k) den, Nat.mul_add_div hden, Nat.mul_add_mod]
  split_ifs <;> omega

theorem Format.exists_value (fmt : Format) {m k : Nat} (hm : m < 2 ^ (fmt.fractionBits + 1))
    (hk : k + 3 ≤ 2 ^ fmt.exponentBits) :
    ∃ n < fmt.infinity, fmt.value n = m * 2 ^ (fmt.minExponent + k) := by
  obtain ⟨x, hx, -, hvalue⟩ := Binary.exists_number fmt false hm hk
  exact ⟨x.magnitude.val, of_decide_eq_true hx, x.value_magnitude.trans hvalue⟩

/-- Overflow in half precision. -/
theorem Format.overflow_half : half.overflow = 65520 := by
  have hfits : half.Fits 2047 29 := ⟨by decide, .inr (by decide)⟩
  have hfield : half.infinity - 1 = 29 * 2 ^ half.fractionBits + 2047 := by decide
  have hexponent : half.minExponent + (29 : Nat) = 5 := by decide
  rw [overflow, midpoint_eq, hfield, hfits.value_eq, fieldUnit, hfits.field_eq.2, hexponent]
  norm_num

namespace Binary

variable {fmt target : Format}

/-! ## The three ways -/

section

variable {x : Binary .double}

theorem value_halfOverflow : Format.double.value halfOverflow.magnitude.val = 65520 := by
  have hsignificand : halfOverflow.significand = 65520 * 2 ^ 37 := by decide
  have hexponent : halfOverflow.exponent = -37 := by decide
  rw [value_magnitude, hsignificand, hexponent]
  norm_num

theorem leastNormalHalf_magnitude :
    leastNormalHalf.magnitude.val = 1008 * 2 ^ Format.double.fractionBits + 2 ^ 52 := by
  decide

theorem value_leastNormalHalf :
    Format.double.value leastNormalHalf.magnitude.val = 2 ^ (-14 : ℤ) := by
  rw [leastNormalHalf_magnitude]
  refine (Format.double.value_first 1008).trans ?_
  rw [show Format.double.minExponent + (1008 : Nat) = -66 by decide]
  norm_num [Format.double]

theorem toRat_halfStep : halfStep.toRat = 2 ^ (-24 : ℤ) := by
  have hsignificand : halfStep.signedSignificand = 2 ^ 52 := by decide
  have hexponent : halfStep.exponent = -76 := by decide
  rw [toRat, hsignificand, hexponent]
  norm_num

/-- The number of an exact result. -/
theorem IsRoundingOf.value_eq {y : Binary fmt} {q : ℚ} {m k : Nat} (h : y.IsRoundingOf q)
    (hm : m < 2 ^ (fmt.fractionBits + 1)) (hk : k + 3 ≤ 2 ^ fmt.exponentBits)
    (hq : |q| = m * 2 ^ (fmt.minExponent + k)) :
    y.isFinite = true ∧ fmt.value y.magnitude.val = |q| := by
  obtain ⟨n, hn, hvalue⟩ := fmt.exists_value hm hk
  have hfield := (isRoundingOf_iff.mp h).1
  rw [hq, ← hvalue, Format.nearestField_value hn.le] at hfield
  exact ⟨decide_eq_true (hfield ▸ hn), by rw [hfield, hvalue, hq]⟩

/-- The nearest integer, by comparisons. -/
theorem roundTiesEven_isRoundingOf {y : Binary fmt} (hy : y.isFinite = true) :
    ∃ n : Nat, y.roundTiesEven.IsRoundingOf (if y.negative then -n else n) ∧
      IsNearestNat n |y.toRat| := by
  have hquotient : ((y.significand * 2 ^ y.exponent.toNat : Nat) : ℚ) /
      (2 ^ (-y.exponent).toNat : Nat) = |y.toRat| := by
    rw [abs_toRat_eq_value, value_magnitude, zpow_eq_div]
    push_cast
    ring
  refine ⟨divNearestEven (y.significand * 2 ^ y.exponent.toNat) (2 ^ (-y.exponent).toNat), ?_, ?_⟩
  · rw [roundTiesEven, if_pos hy]
    have hround : (nearest y.negative (divNearestEven (y.significand * 2 ^ y.exponent.toNat)
        (2 ^ (-y.exponent).toNat)) 1 : Binary fmt).IsRoundingOf _ :=
      nearest_isRoundingOf _ _ Nat.one_pos
    rw [Nat.cast_one, div_one] at hround
    exact hround
  · rw [← hquotient]
    exact divNearestEven_isNearestNat _ (Nat.two_pow_pos _)

/-- Rounding at the last place of a half. -/
theorem nearestField_half_eq {q : ℚ} (steps : Nat) {rounded : Nat} (hlow : steps = 0 ∨ 2 ^ 10 ≤ q)
    (hhigh : q < 2 ^ 11) (hq : 0 ≤ q) (hover : q * 2 ^ (-24 + steps : ℤ) < 65520)
    (hround : IsNearestNat rounded q) :
    Format.half.nearestField (q * 2 ^ (-24 + steps : ℤ)) = steps * 2 ^ 10 + rounded ∧
      Format.half.value (steps * 2 ^ 10 + rounded) = rounded * 2 ^ (-24 + steps : ℤ) := by
  have hnonneg : 0 ≤ q * 2 ^ (-24 + steps : ℤ) := by positivity
  have hlt : Format.half.nearestField (q * 2 ^ (-24 + steps : ℤ)) < Format.half.infinity := by
    rw [Format.nearestField_lt_infinity_iff hnonneg, Format.overflow_half]
    exact hover
  have hiff (m : Nat) (hm : m < Format.half.infinity) :
      steps * 2 ^ 10 + rounded ≤ m ↔ Format.half.nearestField (q * 2 ^ (-24 + steps : ℤ)) ≤ m :=
    (Format.add_le_iff_roundsDown hlow hhigh hround).trans
      (Format.nearestField_le_iff hnonneg hm).symm
  have hle := (hiff _ hlt).mpr le_rfl
  refine ⟨Format.eq_of_le_iff hlt.le (hle.trans hlt.le) fun m hm => (hiff m hm).symm,
    Format.value_of_le ?_ ?_⟩
  · exact hround.le_of_le (by exact_mod_cast hhigh.le)
  · exact hlow.imp_right fun hlow => hround.le_of_ge (by exact_mod_cast hlow)

theorem abs_toRat_halfStep : |halfStep.toRat| = 2 ^ (-24 : ℤ) := by
  rw [toRat_halfStep]
  exact abs_of_pos (by positivity)

/-- The number of steps to a small double is exact. -/
theorem div_halfStep (hx : x.isFinite = true)
    (hlt : x.magnitude.val < leastNormalHalf.magnitude.val) :
    (x.abs.div halfStep).isFinite = true ∧
      |(x.abs.div halfStep).toRat| = |x.toRat| * 2 ^ 24 := by
  have hsteps : x.steps < 1009 := by
    rw [leastNormalHalf_magnitude, x.magnitude_eq] at hlt
    refine Nat.lt_of_mul_lt_mul_right (a := 2 ^ Format.double.fractionBits) ?_
    exact Nat.lt_of_le_of_lt (Nat.le_add_right _ _) hlt
  have habs : |x.abs.toRat| = |x.toRat| := by
    rw [abs_toRat_eq_value, abs_toRat_eq_value]
    rfl
  have hquotient : |x.abs.toRat / halfStep.toRat| = |x.toRat| * 2 ^ 24 := by
    rw [abs_div, habs, abs_toRat_halfStep, zpow_neg, div_inv_eq_mul]
    norm_cast
  have hscaled : |x.toRat| * 2 ^ 24 =
      x.significand * 2 ^ (Format.double.minExponent + (x.steps + 24 : Nat)) := by
    rw [abs_toRat_eq_value, value_magnitude, exponent_eq, mul_assoc, ← zpow_natCast,
      ← zpow_add₀ two_ne_zero]
    congr 2
    push_cast
    ring
  have hround := div_isRoundingOf (x := x.abs) hx (y := halfStep) (by decide)
    (by decide)
  obtain ⟨hfin, hvalue⟩ := hround.value_eq x.fits.lt (show x.steps + 24 + 3 ≤ 2 ^ 11 by omega)
    (hquotient.trans hscaled)
  exact ⟨hfin, by rw [abs_toRat_eq_value, hvalue, hquotient]⟩

/-- So is the integer that it is rounded to. -/
theorem roundTiesEven_exact {y : Binary .double} (hy : y.isFinite = true)
    (hle : |y.toRat| ≤ (2 ^ 10 : Nat)) :
    ∃ n ≤ 2 ^ 10, IsNearestNat n |y.toRat| ∧ y.roundTiesEven.isFinite = true ∧
      |y.roundTiesEven.toRat| = n := by
  obtain ⟨n, hround, hn⟩ := roundTiesEven_isRoundingOf hy
  have hle := hn.le_of_le hle
  have hsigned : |if y.negative then -(n : ℚ) else n| = n := by
    split
    · rw [abs_neg, Nat.abs_cast]
    · exact Nat.abs_cast n
  have hzero : Format.double.minExponent + (1074 : Nat) = 0 := by decide
  obtain ⟨hfin, hvalue⟩ := hround.value_eq (k := 1074) (hle.trans_lt (by decide)) (by decide)
    (by rw [hsigned, hzero, zpow_zero, mul_one])
  exact ⟨n, hle, hn, hfin, by rw [abs_toRat_eq_value, hvalue, hsigned]⟩

/-- And so is a small number of steps. -/
theorem mul_halfStep {y : Binary .double} {n : Nat} (hy : y.isFinite = true)
    (hvalue : |y.toRat| = n) (hn : n ≤ 2 ^ 10) :
    (y.mul halfStep).isFinite = true ∧
      Format.double.value (y.mul halfStep).magnitude.val = n * 2 ^ (-24 : ℤ) := by
  have hproduct : |y.toRat * halfStep.toRat| = n * 2 ^ (-24 : ℤ) := by
    rw [abs_mul, hvalue, abs_toRat_halfStep]
  have hround := mul_isRoundingOf hy (y := halfStep) (by decide)
  obtain ⟨hfin, hexact⟩ := hround.value_eq (k := 1050) (hn.trans_lt (by decide)) (by decide)
    hproduct
  exact ⟨hfin, hexact.trans hproduct⟩

/-- Below the least normal half, the number of steps is rounded. -/
theorem value_steps_rounded (hx : x.isFinite = true)
    (hlt : x.magnitude.val < leastNormalHalf.magnitude.val) :
    ((x.abs.div halfStep).roundTiesEven.mul halfStep).isFinite = true ∧
      Format.double.value ((x.abs.div halfStep).roundTiesEven.mul halfStep).magnitude.val =
        Format.half.value (Format.half.nearestField |x.toRat|) := by
  have hsmall : |x.toRat| < 2 ^ (-14 : ℤ) := by
    rw [abs_toRat_eq_value, ← value_leastNormalHalf]
    exact Format.value_lt_value.mpr hlt
  have hsteps : |x.toRat| * 2 ^ 24 < 2 ^ 10 := by
    norm_num at hsmall ⊢
    linarith
  obtain ⟨hy, hcount⟩ := div_halfStep hx hlt
  obtain ⟨n, hn, hround, hw, hinteger⟩ := roundTiesEven_exact hy (by
    rw [hcount]
    exact_mod_cast hsteps.le)
  obtain ⟨hz, hvalue⟩ := mul_halfStep hw hinteger hn
  rw [hcount] at hround
  have hback : |x.toRat| * 2 ^ 24 * 2 ^ (-24 + (0 : Nat) : ℤ) = |x.toRat| := by
    norm_num
    ring
  obtain ⟨hfield, hhalf⟩ := nearestField_half_eq (q := |x.toRat| * 2 ^ 24) 0 (.inl rfl)
    (by linarith) (by positivity) (by rw [hback]; linarith) hround
  rw [hback] at hfield
  refine ⟨hz, ?_⟩
  rw [hvalue, hfield, hhalf]
  norm_num

theorem ofBits_magnitude {bits : Nat} (h : bits < fmt.magnitudes) :
    (ofBits bits : Binary fmt).magnitude.val = bits := Nat.mod_eq_of_lt h

/-- The exponent is a multiple of the last bit that stays, so only the significand is rounded. -/
theorem rounded_bits (x : Binary .double) :
    divNearestEven x.magnitude.val (Nat.pow 2 droppedBits) * Nat.pow 2 droppedBits =
      x.steps * 2 ^ 52 + divNearestEven x.significand (2 ^ 42) * 2 ^ 42 := by
  have hpos : 0 < 2 ^ 42 := Nat.two_pow_pos 42
  have hdropped : Nat.pow 2 droppedBits = 2 ^ 42 := rfl
  have hsplit : x.magnitude.val = 2 * (x.steps * 2 ^ 9) * 2 ^ 42 + x.significand := by
    rw [x.magnitude_eq, show Format.double.fractionBits = 52 from rfl]
    ring
  rw [hdropped, hsplit, divNearestEven_add _ _ hpos]
  ring

/-- A double among the normal halves, with its exponent counted as that of a half. -/
theorem exists_half_steps (hlow : leastNormalHalf.magnitude.val ≤ x.magnitude.val)
    (hhigh : x.magnitude.val < halfOverflow.magnitude.val) :
    ∃ k < 32, x.steps = k + 1008 ∧ 2 ^ 52 ≤ x.significand ∧
      (x.significand : ℚ) / (2 ^ 42 : Nat) * 2 ^ (-24 + k : ℤ) = |x.toRat| := by
  have htop : halfOverflow.magnitude.val ≤ 1040 * 2 ^ 52 := by decide
  have hmagnitude : x.magnitude.val = x.steps * 2 ^ 52 + x.significand := x.magnitude_eq
  have hsig : x.significand < 2 ^ 53 := x.fits.lt
  rw [leastNormalHalf_magnitude, show Format.double.fractionBits = 52 from rfl] at hlow
  obtain ⟨k, hk⟩ : ∃ k, x.steps = k + 1008 := ⟨x.steps - 1008, by omega⟩
  have hexponent : x.exponent = -42 + (-24 + k) := by
    rw [exponent_eq, hk, show Format.double.minExponent = -1074 from rfl]
    push_cast
    ring
  refine ⟨k, by omega, hk, x.fits.full.resolve_left (by omega), ?_⟩
  rw [abs_toRat_eq_value, value_magnitude, hexponent, zpow_add₀ two_ne_zero (-42)]
  norm_num
  ring

/-- The significand of a half, before it is rounded. -/
theorem significand_div_bounds (hfull : 2 ^ 52 ≤ x.significand) :
    (2 : ℚ) ^ 10 ≤ (x.significand : ℚ) / (2 ^ 42 : Nat) ∧
      (x.significand : ℚ) / (2 ^ 42 : Nat) < 2 ^ 11 := by
  have hsig : x.significand < 2 ^ 53 := x.fits.lt
  have hlow : ((2 ^ 52 : Nat) : ℚ) ≤ x.significand := by exact_mod_cast hfull
  have hhigh : (x.significand : ℚ) < (2 ^ 53 : Nat) := by exact_mod_cast hsig
  rw [le_div_iff₀ (by positivity), div_lt_iff₀ (by positivity)]
  norm_num at hlow hhigh ⊢
  exact ⟨hlow, hhigh⟩

/-- The double with the significand of a half, which may carry. -/
theorem value_half_bits {k rounded : Nat} (hk : k < 32) (hge : 2 ^ 10 ≤ rounded)
    (hle : rounded ≤ 2 ^ 11) :
    (ofBits ((k + 1008) * 2 ^ 52 + rounded * 2 ^ 42) : Binary .double).isFinite = true ∧
      Format.double.value
        (ofBits ((k + 1008) * 2 ^ 52 + rounded * 2 ^ 42) : Binary .double).magnitude.val =
          rounded * 2 ^ (-24 + k : ℤ) := by
  have hlt : (k + 1008) * 2 ^ 52 + rounded * 2 ^ 42 < Format.double.infinity := by
    have hinfinity : Format.double.infinity = 2047 * 2 ^ 52 := by decide
    omega
  have hfield := ofBits_magnitude (hlt.trans Format.double.infinity_lt_magnitudes)
  have hvalue : Format.double.value ((k + 1008) * 2 ^ 52 + rounded * 2 ^ 42) =
      (rounded * 2 ^ 42 : Nat) * 2 ^ (Format.double.minExponent + (k + 1008 : Nat)) :=
    Format.value_of_le (show rounded * 2 ^ 42 ≤ 2 ^ 53 by omega)
      (.inr (show 2 ^ 52 ≤ rounded * 2 ^ 42 by omega))
  have hexponent : Format.double.minExponent + ((k + 1008 : Nat) : ℤ) = -42 + (-24 + k) := by
    rw [show Format.double.minExponent = -1074 from rfl]
    push_cast
    ring
  refine ⟨decide_eq_true (hfield.symm ▸ hlt), ?_⟩
  rw [hfield, hvalue, hexponent, zpow_add₀ two_ne_zero (-42)]
  push_cast
  norm_num
  ring

/-- Among the normal halves, the bits below the significand are dropped. -/
theorem value_bits_rounded (hlow : leastNormalHalf.magnitude.val ≤ x.magnitude.val)
    (hhigh : x.magnitude.val < halfOverflow.magnitude.val) :
    let bits := divNearestEven x.magnitude.val (Nat.pow 2 droppedBits) * Nat.pow 2 droppedBits
    (ofBits bits : Binary .double).isFinite = true ∧
      Format.double.value (ofBits bits : Binary .double).magnitude.val =
        Format.half.value (Format.half.nearestField |x.toRat|) := by
  intro bits
  have hover : |x.toRat| < 65520 := by
    rw [abs_toRat_eq_value, ← value_halfOverflow]
    exact Format.value_lt_value.mpr hhigh
  obtain ⟨k, hlt, hk, hfull, hquotient⟩ := exists_half_steps hlow hhigh
  obtain ⟨hge, hle⟩ := significand_div_bounds hfull
  have hround := divNearestEven_isNearestNat x.significand (Nat.two_pow_pos 42)
  have hbits : bits = (k + 1008) * 2 ^ 52 + divNearestEven x.significand (2 ^ 42) * 2 ^ 42 :=
    hk ▸ x.rounded_bits
  generalize divNearestEven x.significand (2 ^ 42) = rounded at *
  obtain ⟨hfield, hhalf⟩ := nearestField_half_eq k (.inr hge) hle (by positivity)
    (by rwa [hquotient]) hround
  rw [hquotient] at hfield
  rw [hbits, hfield, hhalf]
  exact value_half_bits hlt (hround.le_of_ge (by exact_mod_cast hge))
    (hround.le_of_le (by exact_mod_cast hle.le))

/-- The rounded magnitude is the half that the double is converted to. -/
theorem same_halfMagnitude (hx : x.isFinite = true) :
    (x.convert : Binary .half).Same { x.halfMagnitude with negative := x.negative } := by
  have hsign : (x.convert : Binary .half).negative = x.negative := x.convert_negative
  have hfield : (x.convert : Binary .half).magnitude.val = Format.half.nearestField |x.toRat| :=
    (isRoundingOf_iff.mp (convert_isRoundingOf hx)).1
  have hfinite : Format.half.nearestField |x.toRat| < Format.half.infinity ↔ |x.toRat| < 65520 := by
    rw [Format.nearestField_lt_infinity_iff (abs_nonneg _), Format.overflow_half]
  rw [← hfield, abs_toRat_eq_value, ← value_halfOverflow, Format.value_lt_value] at hfinite
  refine ⟨hsign, .inr ?_⟩
  by_cases hover : halfOverflow.magnitude.val ≤ x.magnitude.val
  · have hle := Format.half.nearestField_le_infinity |x.toRat|
    refine .inl ⟨beq_iff_eq.mpr (by omega), ?_⟩
    rw [halfMagnitude, if_pos hover]
    exact beq_self_eq_true _
  · have hvalue : x.halfMagnitude.isFinite = true ∧
        Format.double.value x.halfMagnitude.magnitude.val =
          Format.half.value (Format.half.nearestField |x.toRat|) := by
      rw [halfMagnitude, if_neg hover]
      split
      · rename_i hlt
        exact value_steps_rounded hx hlt
      · rename_i hge
        exact value_bits_rounded (not_lt.mp hge) (not_le.mp hover)
    rw [← hfield] at hvalue
    refine .inr ⟨decide_eq_true (hfinite.mpr (not_le.mp hover)), hvalue.1, ?_⟩
    rw [toRat_eq_value, toRat_eq_value, hsign, hvalue.2]

end

/-! ## Halves in single precision -/

/-- Rounding to half precision is conversion to it. -/
theorem roundDoubleToHalf_eq (x : Binary .double) :
    x.roundDoubleToHalf = (x.convert : Binary .half).convert := by
  by_cases hnan : x.isNaN = true
  · have hfin : ¬ x.isFinite = true := fun h => by simp [(isFinite_iff.mp h).1] at hnan
    rw [roundDoubleToHalf, if_neg hfin]
    exact (convert_nan hnan).convert_eq
  by_cases hinf : x.isInfinite = true
  · have hfin : ¬ x.isFinite = true := fun h => by simp [(isFinite_iff.mp h).2] at hinf
    rw [roundDoubleToHalf, if_neg hfin]
    exact (convert_infinite hinf).convert_eq
  have hfin := isFinite_of_not hnan hinf
  rw [roundDoubleToHalf, if_pos hfin]
  exact (same_halfMagnitude hfin).convert_eq.symm

theorem roundHalf_eq {x : Binary fmt} (h : x.Same (x.convert : Binary .double)) :
    x.roundHalf = (x.convert : Binary .half).convert := by
  rw [roundHalf, roundDoubleToHalf_eq, ← h.convert_eq]

theorem roundHalf_double (x : Binary .double) : x.roundHalf = (x.convert : Binary .half).convert :=
  roundHalf_eq x.same_convert_self

theorem roundHalf_single (x : Binary .single) : x.roundHalf = (x.convert : Binary .half).convert :=
  roundHalf_eq (same_convert Format.single_embeds_double x)

/-- What is rounded to half precision is a half. -/
theorem isHalf_roundHalf (x : Binary fmt) : x.roundHalf.IsHalf := by
  rw [roundHalf, roundDoubleToHalf_eq]
  exact (same_convert Format.half_embeds_single _).isHalf

theorem IsHalf.same_roundHalf {x : Binary .single} (h : x.IsHalf) : x.Same x.roundHalf := by
  rw [roundHalf_single]
  exact h.same_half.trans (same_convert Format.half_embeds_single _)

theorem roundHalf_roundHalf (x : Binary fmt) : x.roundHalf.roundHalf = x.roundHalf := by
  rw [roundHalf_single, roundHalf, roundDoubleToHalf_eq]
  set h : Binary .half := (x.convert : Binary .double).convert
  have hback : ((h.convert : Binary .single).convert : Binary .half) = h.convert :=
    (same_convert Format.half_embeds_single h).convert_eq.symm
  rw [hback]
  exact h.same_convert_self.convert_eq.symm

/-- The single is the half that a rational is rounded to. -/
def IsHalfOf (x : Binary .single) (q : ℚ) : Prop := ∃ h : Binary .half, h.IsRoundingOf q ∧ h.Same x

/-- From 65520 on a rational is rounded to infinity. -/
theorem IsHalfOf.isInfinite_iff {x : Binary .single} {q : ℚ} (h : x.IsHalfOf q) :
    x.isInfinite = true ↔ 65520 ≤ |q| := by
  obtain ⟨y, hy, hsame⟩ := h
  rw [IsRoundingOf, Format.overflow_half] at hy
  rw [← hsame.isInfinite_eq]
  split at hy
  · rename_i hover
    exact iff_of_true hy.1 hover
  · rename_i hover
    exact iff_of_false (by simp [(isFinite_iff.mp hy.1).2]) hover

theorem IsHalfOf.abs_toRat_eq {x : Binary .single} {q : ℚ} (h : x.IsHalfOf q)
    (hx : x.isFinite = true) : |x.toRat| = Format.half.value (Format.half.nearestField |q|) := by
  obtain ⟨y, hy, hsame⟩ := h
  obtain ⟨hnan, hinf⟩ := isFinite_iff.mp hx
  have hvalue : y.toRat = x.toRat := by
    rcases hsame.2 with ⟨-, h⟩ | ⟨-, h⟩ | ⟨-, -, h⟩
    · simp [hnan] at h
    · simp [hinf] at h
    · exact h
  rw [← hvalue, abs_toRat_eq_value, (isRoundingOf_iff.mp hy).1]

/-- A finite double is rounded to the half nearest to it, with its own sign, and to infinity from
    65520 on. The result is always a half, rounding it again does nothing, rounding keeps the order,
    and infinities and NaNs stay what they are. -/
theorem half_rounding_correct (x : Binary .double) :
    (x.isFinite = true → x.roundHalf.IsHalfOf x.toRat ∧ x.roundHalf.negative = x.negative ∧
      (x.roundHalf.isInfinite = true ↔ 65520 ≤ |x.toRat|)) ∧
    x.roundHalf.IsHalf ∧ x.roundHalf.roundHalf = x.roundHalf ∧
    (∀ y : Binary .double, x.isNaN = false → y.isNaN = false → x.rank ≤ y.rank →
      x.roundHalf.rank ≤ y.roundHalf.rank) ∧
    (x.isInfinite = true → x.roundHalf = infinity x.negative) ∧
    (x.isNaN = true → x.roundHalf.isNaN = true) := by
  refine ⟨fun hx => ?_, x.isHalf_roundHalf, x.roundHalf_roundHalf, fun y hx hy h => ?_,
    fun hx => ?_, fun hx => ?_⟩
  · have hhalf : x.roundHalf.IsHalfOf x.toRat := by
      rw [roundHalf_double]
      exact ⟨x.convert, convert_isRoundingOf hx, same_convert Format.half_embeds_single _⟩
    refine ⟨hhalf, ?_, hhalf.isInfinite_iff⟩
    rw [roundHalf_double, convert_negative, convert_negative]
  · rw [roundHalf_double, roundHalf_double]
    have hle : (x.convert : Binary .half).rank ≤ (y.convert : Binary .half).rank :=
      convert_rank_le hx hy h
    exact convert_rank_le (by rw [isNaN_convert, hx]) (by rw [isNaN_convert, hy]) hle
  · have hhalf : (x.convert : Binary .half).isInfinite = true := by
      rw [convert_of_isInfinite hx]
      exact beq_self_eq_true _
    rw [roundHalf_double, convert_of_isInfinite hhalf, convert_negative]
  · rw [roundHalf_double, isNaN_convert, isNaN_convert, hx]

/-- A double just above the midpoint of two halves, and the values that are not finite. -/
theorem above_midpoint_rounded_up :
    (ofBits 0x3ff0020000000001 : Binary .double).isFinite = true ∧
    (ofBits 0x3ff0020000000001 : Binary .double).roundHalf = ofBits 0x3f802000 ∧
    (ofBits 0x3ff0020000000001 : Binary .double).roundHalf.IsHalfOf
      (ofBits 0x3ff0020000000001 : Binary .double).toRat ∧
    (ofBits 0x3ff0020000000000 : Binary .double).rank ≤
      (ofBits 0x3ff0020000000001 : Binary .double).rank ∧
    (ofBits 0x3ff0020000000000 : Binary .double).roundHalf.rank ≤
      (ofBits 0x3ff0020000000001 : Binary .double).roundHalf.rank ∧
    (infinity true : Binary .double).roundHalf = infinity true ∧
    (nan : Binary .double).roundHalf.isNaN = true := by
  have hfin : (ofBits 0x3ff0020000000001 : Binary .double).isFinite = true := by decide +kernel
  have hle : (ofBits 0x3ff0020000000000 : Binary .double).rank ≤
      (ofBits 0x3ff0020000000001 : Binary .double).rank := by decide +kernel
  exact ⟨hfin, by decide +kernel, ((half_rounding_correct _).1 hfin).1, hle,
    (half_rounding_correct _).2.2.2.1 _ (by decide +kernel) (by decide +kernel) hle,
    (half_rounding_correct _).2.2.2.2.1 (by decide +kernel),
    (half_rounding_correct _).2.2.2.2.2 (by decide +kernel)⟩

end Binary

end ScalarLang
