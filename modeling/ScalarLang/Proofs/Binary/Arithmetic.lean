import Mathlib
import ScalarLang.Proofs.Binary.Nearest

/-
  Operations round once.
  Conversion and arithmetic on finite numbers compute the exact rational and round it. In
  particular an operation whose exact result is a number of the format returns that number.
-/

namespace ScalarLang.Binary

variable {fmt target : Format} {x y : Binary fmt} {q : ℚ}

/-! ## Rounding a quotient -/

theorem nearest_isRoundingOf (negative : Bool) (num : Nat) {den : Nat} (hden : 0 < den) :
    (nearest negative num den : Binary fmt).IsRoundingOf
      (if negative then -((num : ℚ) / den) else (num : ℚ) / den) := by
  have hnonneg : (0 : ℚ) ≤ (num : ℚ) / den := by positivity
  have hfield : fmt.nearestMagnitude num den = fmt.nearestField ((num : ℚ) / den) :=
    Format.nearestMagnitude_eq_nearestField num hden
  rw [isRoundingOf_iff]
  cases negative with
  | false =>
      rw [if_neg Bool.false_ne_true, abs_of_nonneg hnonneg]
      exact ⟨hfield, fun _ => (decide_eq_false (not_lt.mpr hnonneg)).symm⟩
  | true =>
      rw [if_pos rfl, abs_neg, abs_of_nonneg hnonneg]
      refine ⟨hfield, fun hne => (decide_eq_true ?_).symm⟩
      rw [neg_lt_zero]
      refine lt_of_le_of_ne hnonneg fun hzero => hne ?_
      show fmt.nearestMagnitude num den = 0
      rw [hfield, ← hzero, Format.nearestField_zero]

theorem nearestScaled_isRoundingOf (negative : Bool) (num : Nat) {den : Nat} (hden : 0 < den)
    (scale : ℤ) : (nearestScaled negative num den scale : Binary fmt).IsRoundingOf
      (if negative then -((num : ℚ) / den * 2 ^ scale) else (num : ℚ) / den * 2 ^ scale) := by
  have hquotient : ((num * 2 ^ scale.toNat : Nat) : ℚ) / (den * 2 ^ (-scale).toNat : Nat) =
      (num : ℚ) / den * 2 ^ scale := by
    rw [zpow_eq_div]
    push_cast
    ring
  rw [← hquotient]
  exact nearest_isRoundingOf negative _ (Nat.mul_pos hden (Nat.two_pow_pos _))

/-- A zero of either sign. -/
theorem zero_isRoundingOf (negative : Bool) : (zero negative : Binary fmt).IsRoundingOf 0 := by
  rw [isRoundingOf_iff, abs_zero, Format.nearestField_zero]
  exact ⟨rfl, fun h => absurd rfl h⟩

/-- A number is rounded to itself, up to the sign of a zero. -/
theorem IsRoundingOf.eq_of_toRat {z : Binary fmt} (h : y.IsRoundingOf z.toRat)
    (hz : z.isFinite = true) : y.isFinite = true ∧ y.toRat = z.toRat := by
  have hlt : z.magnitude.val < fmt.infinity := of_decide_eq_true hz
  obtain ⟨hfield, hsign⟩ := isRoundingOf_iff.mp h
  rw [abs_toRat_eq_value, Format.nearestField_value hlt.le] at hfield
  refine ⟨decide_eq_true (hfield ▸ hlt), ?_⟩
  by_cases hzero : z.magnitude.val = 0
  · rw [toRat_eq_zero_iff.mpr hzero, toRat_eq_zero_iff.mpr (hfield.trans hzero)]
  · have hsign' : z.negative = decide (z.toRat < 0) :=
      negative_eq_of_toRat (mul_self_nonneg _) (mt toRat_eq_zero_iff.mp hzero) hzero
    rw [toRat_eq_value y, toRat_eq_value z, hfield, hsign (hfield ▸ hzero), hsign']

/-! ## Conversion -/

theorem convert_isRoundingOf (hx : x.isFinite = true) :
    (x.convert : Binary target).IsRoundingOf x.toRat := by
  obtain ⟨hnan, hinf⟩ := isFinite_iff.mp hx
  have hround : (nearestScaled x.negative x.significand 1 x.exponent :
      Binary target).IsRoundingOf _ := nearestScaled_isRoundingOf _ _ Nat.one_pos _
  rw [Nat.cast_one, div_one, ← value_magnitude, ← toRat_eq_value] at hround
  rwa [convert, hnan, hinf, if_neg Bool.false_ne_true, if_neg Bool.false_ne_true]

theorem convert_of_isNaN {x : Binary fmt} (h : x.isNaN = true) :
    (x.convert : Binary target) = { (nan : Binary target) with negative := x.negative } := if_pos h

theorem convert_of_isInfinite {x : Binary fmt} (h : x.isInfinite = true) :
    (x.convert : Binary target) = infinity x.negative := by
  rw [convert, isNaN_of_isInfinite h, h]
  rfl

theorem convert_negative (x : Binary fmt) : (x.convert : Binary target).negative = x.negative := by
  unfold convert
  split
  · rfl
  · split <;> rfl

theorem isNaN_convert (x : Binary fmt) : (x.convert : Binary target).isNaN = x.isNaN := by
  by_cases hnan : x.isNaN = true
  · exact (convert_nan hnan).isNaN_eq.symm
  by_cases hinf : x.isInfinite = true
  · exact (convert_infinite hinf).isNaN_eq.symm
  rw [Bool.not_eq_true] at hnan hinf
  rw [convert, hnan, hinf]
  exact decide_eq_false (Nat.not_lt.mpr (target.nearestMagnitude_le_infinity _ _))

theorem isFinite_of_not {x : Binary fmt} (hnan : ¬ x.isNaN = true) (hinf : ¬ x.isInfinite = true) :
    x.isFinite = true := by
  simp [isFinite_iff, hnan, hinf]

/-- What is the same number is converted to the same number. -/
theorem Same.convert_eq {third : Format} {x : Binary fmt} {y : Binary target} (h : x.Same y) :
    (x.convert : Binary third) = y.convert := by
  rcases h.2 with ⟨hx, hy⟩ | ⟨hx, hy⟩ | ⟨hx, hy, hvalue⟩
  · rw [convert_of_isNaN hx, convert_of_isNaN hy, h.1]
  · rw [convert_of_isInfinite hx, convert_of_isInfinite hy, h.1]
  · have hfield : (x.convert : Binary third).magnitude = (y.convert : Binary third).magnitude := by
      refine Fin.ext ?_
      rw [(isRoundingOf_iff.mp (convert_isRoundingOf hx)).1,
        (isRoundingOf_iff.mp (convert_isRoundingOf hy)).1, hvalue]
    have hsign : (x.convert : Binary third).negative = (y.convert : Binary third).negative := by
      rw [convert_negative, convert_negative, h.1]
    exact congrArg₂ mk hsign hfield

theorem same_convert_self (x : Binary fmt) : x.Same (x.convert : Binary fmt) := by
  by_cases hnan : x.isNaN = true
  · exact convert_nan hnan
  by_cases hinf : x.isInfinite = true
  · exact convert_infinite hinf
  have hfin := isFinite_of_not hnan hinf
  have hself : x.Same x := ⟨rfl, .inr (.inr ⟨hfin, hfin, rfl⟩)⟩
  rw [convert_finite hself hfin]
  exact hself

/-- Conversion keeps the order of magnitudes. -/
theorem convert_magnitude_le {x y : Binary fmt} (hx : x.isNaN = false) (hy : y.isNaN = false)
    (h : x.magnitude.val ≤ y.magnitude.val) :
    (x.convert : Binary target).magnitude.val ≤ (y.convert : Binary target).magnitude.val := by
  by_cases hinf : y.isInfinite = true
  · have hnan : (x.convert : Binary target).isNaN = false := by rw [isNaN_convert, hx]
    rw [convert_of_isInfinite hinf]
    exact Nat.not_lt.mp (of_decide_eq_false hnan)
  · have hyfin : y.isFinite = true := isFinite_of_not (by simp [hy]) hinf
    have hxfin : x.isFinite = true := decide_eq_true (h.trans_lt (of_decide_eq_true hyfin))
    rw [(isRoundingOf_iff.mp (convert_isRoundingOf hxfin)).1,
      (isRoundingOf_iff.mp (convert_isRoundingOf hyfin)).1]
    refine Format.nearestField_mono (abs_nonneg _) ?_
    rw [abs_toRat_eq_value, abs_toRat_eq_value]
    exact fmt.value_strictMono.monotone h

/-- Conversion keeps the order. -/
theorem convert_rank_le {x y : Binary fmt} (hx : x.isNaN = false) (hy : y.isNaN = false)
    (h : x.rank ≤ y.rank) :
    (x.convert : Binary target).rank ≤ (y.convert : Binary target).rank := by
  have hzero : ((zero false : Binary fmt).convert : Binary target).magnitude.val = 0 := by
    have hfin := isFinite_zero fmt false
    rw [(isRoundingOf_iff.mp (convert_isRoundingOf hfin)).1, toRat_zero, abs_zero,
      Format.nearestField_zero]
  have hnan := (isFinite_iff.mp (isFinite_zero fmt false)).1
  have hle {x y : Binary fmt} (hx : x.isNaN = false) (hy : y.isNaN = false) :
      x.magnitude.val ≤ y.magnitude.val →
        (x.convert : Binary target).magnitude.val ≤ (y.convert : Binary target).magnitude.val :=
    convert_magnitude_le hx hy
  -- with opposite signs, both are zero
  have hleast {x : Binary fmt} (hx : x.isNaN = false) (h : x.magnitude.val = 0) :
      (x.convert : Binary target).magnitude.val = 0 :=
    Nat.le_zero.mp ((hle (y := zero false) hx hnan h.le).trans_eq hzero)
  have hxy := hle hx hy
  have hyx := hle hy hx
  have hxzero := hleast hx
  have hyzero := hleast hy
  unfold rank at h ⊢
  rw [convert_negative, convert_negative]
  split_ifs at h ⊢ <;> omega

/-! ## Arithmetic -/

theorem not_isNaN_or (hx : x.isFinite = true) (hy : y.isFinite = true) :
    (x.isNaN || y.isNaN) = false := by
  rw [(isFinite_iff.mp hx).1, (isFinite_iff.mp hy).1]
  rfl

/-- The significand at a smaller exponent. -/
theorem toRat_at_scale (x : Binary fmt) {scale : ℤ} (h : scale ≤ x.exponent) :
    ((x.signedSignificand * (Nat.pow 2 (x.exponent - scale).toNat : Nat) : ℤ) : ℚ) * 2 ^ scale =
      x.toRat := by
  have hexponent : ((x.exponent - scale).toNat : ℤ) + scale = x.exponent := by omega
  rw [toRat, ← hexponent, zpow_add₀ two_ne_zero, zpow_natCast]
  push_cast [Nat.pow_eq, hexponent]
  ring

theorem addFinite_isRoundingOf (x y : Binary fmt) :
    (x.addFinite y).IsRoundingOf (x.toRat + y.toRat) := by
  unfold addFinite
  rw [← x.toRat_at_scale (min_le_left x.exponent y.exponent),
    ← y.toRat_at_scale (min_le_right x.exponent y.exponent), ← add_mul, ← Int.cast_add]
  generalize min x.exponent y.exponent = scale
  dsimp only
  generalize (_ + _ : ℤ) = sum
  split
  · rename_i h
    rw [h, Int.cast_zero, zero_mul]
    exact zero_isRoundingOf _
  · have hround : (nearestScaled (decide (sum < 0)) sum.natAbs 1 scale :
        Binary fmt).IsRoundingOf _ := nearestScaled_isRoundingOf _ _ Nat.one_pos _
    convert hround using 1
    rw [Nat.cast_one, div_one, Nat.cast_natAbs, Int.cast_abs]
    by_cases hneg : sum < 0
    · rw [decide_eq_true hneg, if_pos rfl, abs_of_neg (by exact_mod_cast hneg)]
      ring
    · rw [decide_eq_false hneg, if_neg Bool.false_ne_true,
        abs_of_nonneg (by exact_mod_cast not_lt.mp hneg)]

theorem add_isRoundingOf (hx : x.isFinite = true) (hy : y.isFinite = true) :
    (x.add y).IsRoundingOf (x.toRat + y.toRat) := by
  rw [add, not_isNaN_or hx hy, (isFinite_iff.mp hx).2, (isFinite_iff.mp hy).2]
  exact addFinite_isRoundingOf x y

theorem sub_isRoundingOf (hx : x.isFinite = true) (hy : y.isFinite = true) :
    (x.sub y).IsRoundingOf (x.toRat - y.toRat) := by
  rw [sub_eq_add_neg, ← toRat_neg]
  exact add_isRoundingOf hx hy

/-- The sign of a product or a quotient. -/
theorem mul_sign (a b : Bool) (u v : ℚ) :
    (if (a != b) = true then -(u * v) else u * v) =
      (if a then -1 else 1) * u * ((if b then -1 else 1) * v) := by
  cases a <;> cases b <;> simp

theorem mul_isRoundingOf (hx : x.isFinite = true) (hy : y.isFinite = true) :
    (x.mul y).IsRoundingOf (x.toRat * y.toRat) := by
  have hround : (nearestScaled (x.negative != y.negative) (x.significand * y.significand) 1
      (x.exponent + y.exponent) : Binary fmt).IsRoundingOf _ :=
    nearestScaled_isRoundingOf _ _ Nat.one_pos _
  have hvalue : ((x.significand * y.significand : Nat) : ℚ) / (1 : Nat) *
      2 ^ (x.exponent + y.exponent) =
        (x.significand * 2 ^ x.exponent) * (y.significand * 2 ^ y.exponent) := by
    rw [zpow_add₀ two_ne_zero]
    push_cast
    ring
  rw [hvalue, mul_sign, ← toRat_eq, ← toRat_eq] at hround
  unfold mul
  rw [not_isNaN_or hx hy, (isFinite_iff.mp hx).2, (isFinite_iff.mp hy).2]
  exact hround

theorem significand_eq_zero_iff : x.significand = 0 ↔ x.magnitude.val = 0 := by
  have hunit : (2 : ℚ) ^ x.exponent ≠ 0 := by positivity
  rw [← toRat_eq_zero_iff, ← abs_eq_zero, abs_toRat_eq_value, value_magnitude, mul_eq_zero,
    or_iff_left hunit, Nat.cast_eq_zero]

theorem div_isRoundingOf (hx : x.isFinite = true) (hy : y.isFinite = true)
    (hzero : y.isZero = false) : (x.div y).IsRoundingOf (x.toRat / y.toRat) := by
  have hpos : 0 < y.significand := by
    refine Nat.pos_of_ne_zero fun h => ?_
    rw [isZero, beq_eq_false_iff_ne] at hzero
    exact hzero (significand_eq_zero_iff.mp h)
  have hround : (nearestScaled (x.negative != y.negative) x.significand y.significand
      (x.exponent - y.exponent) : Binary fmt).IsRoundingOf _ :=
    nearestScaled_isRoundingOf _ _ hpos _
  have hvalue : (x.significand : ℚ) / y.significand * 2 ^ (x.exponent - y.exponent) =
      (x.significand * 2 ^ x.exponent) * ((y.significand : ℚ) * 2 ^ y.exponent)⁻¹ := by
    rw [zpow_sub₀ two_ne_zero, mul_inv]
    ring
  have hsign (u : ℚ) : (if y.negative then (-1 : ℚ) else 1) * u⁻¹ =
      ((if y.negative then (-1 : ℚ) else 1) * u)⁻¹ := by
    rw [mul_inv]
    split <;> norm_num
  rw [hvalue, mul_sign, hsign, ← toRat_eq, ← toRat_eq, ← div_eq_mul_inv] at hround
  unfold div
  rw [not_isNaN_or hx hy, (isFinite_iff.mp hx).2, (isFinite_iff.mp hy).2, hzero]
  exact hround

end ScalarLang.Binary
