import Mathlib
import ScalarLang.Decimal.Shortest
import ScalarLang.Proofs.Binary.Half

/-
  Shortest decimals read back.
  The decimal that is found for a number is rounded to that number: it has passed the test of the
  interval, or it is the number itself, or it stands on the finest grid, which is finer than what a
  number attracts. Reading rounds it, and the exponents at which reading does not round are out of
  the reach of every finite number.
-/

namespace ScalarLang

namespace Decimal

def toRat (d : Decimal) : ℚ := d.digits * 10 ^ d.exponent

theorem den_pos (d : Decimal) : 0 < d.den := Nat.pow_pos (by decide)

theorem num_div_den (d : Decimal) : (d.num : ℚ) / d.den = d.toRat := by
  rw [num, den, toRat, zpow_eq_div]
  push_cast [Nat.pow_eq]
  ring

theorem trim_toRat (count : Nat) (d : Decimal) : (trim count d).toRat = d.toRat := by
  induction count generalizing d with
  | zero => rfl
  | succ count ih =>
      rw [trim]
      split
      · rename_i h
        have hdigits : (d.digits : ℚ) = 10 * (d.digits / 10 : Nat) := by
          exact_mod_cast (Nat.mul_div_cancel' (Nat.dvd_of_mod_eq_zero h.2)).symm
        rw [ih, toRat, toRat, zpow_add_one₀ (by norm_num), hdigits]
        ring
      · rfl

end Decimal

/-! ## Decimal logarithms -/

theorem decimalLength_le_iff {n k : Nat} (hk : 0 < k) : decimalLength n ≤ k ↔ n < 10 ^ k :=
  Nat.length_toDigits_le_iff (by decide) hk

theorem lt_pow_decimalLength (n : Nat) : n < 10 ^ decimalLength n :=
  (decimalLength_le_iff Nat.length_toDigits_pos).mp le_rfl

theorem pow_decimalLength_le {n : Nat} (hn : 0 < n) : 10 ^ (decimalLength n - 1) ≤ n := by
  rcases Nat.eq_zero_or_pos (decimalLength n - 1) with hzero | hpos
  · rw [hzero, pow_zero]
    exact hn
  · by_contra hlt
    have hle := (decimalLength_le_iff hpos).mpr (not_le.mp hlt)
    have hlen : 0 < decimalLength n := Nat.length_toDigits_pos
    omega

/-- The power of ten is not too large. -/
theorem floorLog10Div_le {num den : Nat} (hnum : 0 < num) (hden : 0 < den) :
    (10 : ℚ) ^ floorLog10Div num den ≤ (num : ℚ) / den := by
  have hden' : (0 : ℚ) < den := by exact_mod_cast hden
  have hnum' : (0 : ℚ) < num := by exact_mod_cast hnum
  unfold floorLog10Div
  split
  · rename_i hle
    have hpos : 0 < decimalLength (num / den) := Nat.length_toDigits_pos
    have hpow := pow_decimalLength_le (Nat.div_pos hle hden)
    have hcast : ((decimalLength (num / den) : ℤ) - 1) = (decimalLength (num / den) - 1 : Nat) := by
      omega
    rw [hcast, zpow_natCast, le_div_iff₀ hden']
    exact_mod_cast (Nat.mul_le_mul_right den hpow).trans (Nat.div_mul_le_self num den)
  · rename_i hlt
    have hpow := lt_pow_decimalLength ((den - 1) / num)
    rw [Nat.div_lt_iff_lt_mul hnum] at hpow
    have hle : den ≤ 10 ^ decimalLength ((den - 1) / num) * num := by omega
    rw [zpow_neg, zpow_natCast, inv_le_comm₀ (by positivity) (by positivity), inv_div,
      div_le_iff₀ hnum']
    exact_mod_cast hle

/-! ## The interval of a number -/

namespace RoundingInterval

variable {fmt : Format} {x : Binary fmt}

theorem den_pos (x : Binary fmt) : 0 < (ofBinary x).den := Nat.two_pow_pos _

/-- Counts of quarters, as the interval has them. -/
theorem quarters (x : Binary fmt) (n : Nat) :
    ((n * Nat.pow 2 (x.exponent - 2).toNat : Nat) : ℚ) / (ofBinary x).den =
      n / 4 * 2 ^ x.exponent := by
  have hpow : (2 : ℚ) ^ x.exponent = 4 * 2 ^ (x.exponent - 2) := by
    rw [zpow_sub₀ two_ne_zero]
    ring
  rw [hpow, zpow_eq_div 2 (x.exponent - 2), ofBinary]
  push_cast [Nat.pow_eq]
  ring

theorem mid_div_den (x : Binary fmt) :
    ((ofBinary x).mid : ℚ) / (ofBinary x).den = x.significand * 2 ^ x.exponent := by
  have hmid := quarters x (4 * x.significand)
  rw [show (ofBinary x).mid = 4 * x.significand * Nat.pow 2 (x.exponent - 2).toNat from rfl, hmid]
  push_cast
  ring

theorem low_div_den (hx : 0 < x.significand) :
    ((ofBinary x).low : ℚ) / (ofBinary x).den =
      (x.significand - x.lowerReach) * 2 ^ x.exponent := by
  have hlow : (ofBinary x).low = (4 * x.significand -
      (if x.fractionField = 0 ∧ 1 < x.exponentField then 1 else 2)) *
        Nat.pow 2 (x.exponent - 2).toNat := by
    simp [ofBinary]
  rw [hlow, quarters, Binary.lowerReach]
  split
  · rw [Nat.cast_sub (by omega)]
    push_cast
    ring
  · rw [Nat.cast_sub (by omega)]
    push_cast
    ring

theorem high_div_den (x : Binary fmt) :
    ((ofBinary x).high : ℚ) / (ofBinary x).den = (x.significand + 1 / 2) * 2 ^ x.exponent := by
  have hhigh := quarters x (4 * x.significand + 2)
  rw [show (ofBinary x).high = (4 * x.significand + 2) * Nat.pow 2 (x.exponent - 2).toNat from rfl,
    hhigh]
  push_cast
  ring

/-- The test of the interval is whether the number attracts the quotient. -/
theorem contains_iff (hx : 0 < x.significand) {num den : Nat} (hden : 0 < den) :
    (ofBinary x).contains num den = true ↔ x.Attracts ((num : ℚ) / den) := by
  have hden' : (0 : ℚ) < den := by exact_mod_cast hden
  have hunit : (0 : ℚ) < (ofBinary x).den := by exact_mod_cast den_pos x
  have hclosed : (ofBinary x).closed = (x.significand % 2 == 0) := rfl
  rw [Binary.Attracts, ← low_div_den hx, ← high_div_den, ← hclosed, Between,
    div_le_div_iff₀ hunit hden', div_le_div_iff₀ hden' hunit, div_lt_div_iff₀ hunit hden',
    div_lt_div_iff₀ hden' hunit, contains]
  norm_cast
  split <;> simp

end RoundingInterval

/-! ## The search -/

namespace Decimal

variable {fmt : Format} {x : Binary fmt}

open RoundingInterval (ofBinary)

/-- The number of steps of a grid that the number is above zero. -/
theorem grid_quotient (x : Binary fmt) (exponent : ℤ) :
    (((ofBinary x).mid * Nat.pow 10 (-exponent).toNat : Nat) : ℚ) /
        ((ofBinary x).den * Nat.pow 10 exponent.toNat : Nat) * 10 ^ exponent =
      x.significand * 2 ^ x.exponent := by
  have hden : ((ofBinary x).den : ℚ) ≠ 0 := by exact_mod_cast (RoundingInterval.den_pos x).ne'
  rw [← RoundingInterval.mid_div_den, zpow_eq_div]
  push_cast [Nat.pow_eq]
  field_simp

theorem attracts_of_contains (hx : 0 < x.significand) {d : Decimal}
    (h : (ofBinary x).contains d.num d.den = true) : x.Attracts d.toRat := by
  rw [← num_div_den]
  exact (RoundingInterval.contains_iff hx d.den_pos).mp h

/-- What is found on a grid is rounded to the number. -/
theorem onGrid?_attracts (hx : 0 < x.significand) {exponent : ℤ} {d : Decimal}
    (h : onGrid? (ofBinary x) exponent = some d) : x.Attracts d.toRat := by
  simp only [onGrid?] at h
  split_ifs at h with hexact hbelow habove habove <;> obtain rfl := Option.some.inj h
  · have hdvd := Nat.dvd_of_mod_eq_zero hexact
    have hself := x.attracts_self
    rwa [← grid_quotient x exponent, ← Nat.cast_div_charZero hdvd] at hself
  · exact attracts_of_contains hx (Bool.and_eq_true_iff.mp habove).1
  · exact attracts_of_contains hx hbelow
  · exact attracts_of_contains hx habove

/-- The last grid is not tested. -/
theorem shortestFrom_attracts (hx : 0 < x.significand) (count : Nat) {exponent : ℤ}
    (hfine : (10 : ℚ) ^ (exponent - count) ≤ 2 ^ x.exponent / 4) :
    x.Attracts (shortestFrom (ofBinary x) count exponent).toRat := by
  induction count generalizing exponent with
  | zero =>
      rw [shortestFrom, toRat]
      rw [Nat.cast_zero, sub_zero] at hfine
      have hgrid := grid_quotient x exponent
      set num := (ofBinary x).mid * Nat.pow 10 (-exponent).toNat
      set den := (ofBinary x).den * Nat.pow 10 exponent.toNat
      have hden : 0 < den := Nat.mul_pos (RoundingInterval.den_pos x) (Nat.pow_pos (by decide))
      have hpow : (0 : ℚ) < 10 ^ exponent := by positivity
      have hle : ((num / den : Nat) : ℚ) ≤ (num : ℚ) / den := Nat.cast_div_le
      have hlt : (num : ℚ) / den < (num / den : Nat) + 1 := by
        rw [div_lt_iff₀' (by exact_mod_cast hden)]
        exact_mod_cast Nat.lt_mul_div_succ num hden
      refine Binary.attracts_of_abs_lt ?_
      rw [← hgrid, ← sub_mul, abs_mul, abs_of_pos hpow]
      have habs : |((num / den : Nat) : ℚ) - (num : ℚ) / den| < 1 :=
        abs_lt.mpr ⟨by linarith, by linarith⟩
      nlinarith
  | succ count ih =>
      rw [shortestFrom]
      cases hgrid : onGrid? (ofBinary x) exponent with
      | some d => exact onGrid?_attracts hx hgrid
      | none =>
          refine ih ?_
          rwa [sub_sub, add_comm, ← Nat.cast_succ]

/-- The decimal that is found for a number is rounded to the number. -/
theorem shortest_attracts (hx : 0 < x.significand) : x.Attracts (shortest x).toRat := by
  rw [shortest, trim_toRat]
  refine shortestFrom_attracts hx _ ?_
  have hmid : 0 < (ofBinary x).mid :=
    Nat.mul_pos (Nat.mul_pos (by decide) hx) (Nat.two_pow_pos _)
  have hlog := floorLog10Div_le hmid (RoundingInterval.den_pos x)
  rw [RoundingInterval.mid_div_den] at hlog
  have hlt : (x.significand : ℚ) < 2 ^ (fmt.fractionBits + 1) := by exact_mod_cast x.fits.lt
  have hunit : (0 : ℚ) < 2 ^ x.exponent := by positivity
  -- ten to a power is at least eight times two to the power
  have hfine : (8 : ℚ) * 2 ^ fmt.fractionBits ≤ 10 ^ (fmt.fractionBits + 2) := by
    have hbase : (2 : ℚ) ^ fmt.fractionBits ≤ 10 ^ fmt.fractionBits := by gcongr; norm_num
    have hpos : (0 : ℚ) < 10 ^ fmt.fractionBits := by positivity
    rw [pow_add]
    linarith
  rw [zpow_sub₀ (by norm_num), zpow_natCast, div_le_iff₀ (by positivity)]
  calc (10 : ℚ) ^ floorLog10Div (ofBinary x).mid (ofBinary x).den
      ≤ x.significand * 2 ^ x.exponent := hlog
    _ ≤ 2 ^ (fmt.fractionBits + 1) * 2 ^ x.exponent := by gcongr
    _ = 2 ^ x.exponent / 4 * (8 * 2 ^ fmt.fractionBits) := by ring
    _ ≤ 2 ^ x.exponent / 4 * 10 ^ (fmt.fractionBits + 2) := by gcongr

end Decimal

/-! ## Reading -/

namespace Binary

variable {fmt : Format} {x : Binary fmt} {q : ℚ}

theorem exponent_le (hfin : x.isFinite = true) :
    x.exponent + fmt.fractionBits + 1 ≤ Decimal.exponentBound fmt := by
  have hsteps := steps_lt hfin
  have hpow := Nat.two_pow_pos (fmt.exponentBits - 1)
  rw [exponent_eq, Format.minExponent, Decimal.exponentBound]
  simp only [Nat.pow_eq]
  omega

theorem neg_exponentBound_le (x : Binary fmt) :
    -(Decimal.exponentBound fmt : ℤ) ≤ x.exponent - 1 := by
  have hpow : 2 ^ fmt.exponentBits = 2 * 2 ^ (fmt.exponentBits - 1) := by
    rw [← pow_succ']
    congr 1
    have := fmt.exponentBits_pos
    omega
  rw [exponent_eq, Format.minExponent, Decimal.exponentBound]
  simp only [Nat.pow_eq]
  omega

/-- A number that is not zero attracts nothing near zero, and nothing beyond the powers of two. -/
theorem Attracts.mem_range (h : x.Attracts q) (hx : 0 < x.significand) :
    (2 : ℚ) ^ (x.exponent - 1) ≤ q ∧ q < 2 ^ (x.exponent + fmt.fractionBits + 1) := by
  obtain ⟨hlow, hhigh⟩ := h.le
  refine ⟨?_, hhigh.trans_lt x.significand_add_half_lt⟩
  have hone : (1 : ℚ) ≤ x.significand := by exact_mod_cast hx
  have hreach := x.lowerReach_le
  have hunit : (0 : ℚ) < 2 ^ x.exponent := by positivity
  rw [zpow_sub_one₀ two_ne_zero]
  nlinarith

end Binary

namespace Decimal

variable {fmt : Format} {x : Binary fmt} {d : Decimal}

theorem two_pow_le_toRat (hdigits : d.digits ≠ 0) {n : Nat} (h : (n : ℤ) ≤ d.exponent) :
    (2 : ℚ) ^ n ≤ d.toRat := by
  have hone : (1 : ℚ) ≤ d.digits := by exact_mod_cast Nat.one_le_iff_ne_zero.mpr hdigits
  calc (2 : ℚ) ^ n ≤ 10 ^ n := by gcongr; norm_num
    _ = 10 ^ (n : ℤ) := (zpow_natCast _ _).symm
    _ ≤ 10 ^ d.exponent := zpow_le_zpow_right₀ (by norm_num) h
    _ ≤ d.digits * 10 ^ d.exponent := le_mul_of_one_le_left (by positivity) hone

theorem toRat_lt_two_zpow (h : d.exponent ≤ 0) :
    d.toRat < 2 ^ (d.exponent + (d.digits.log2 + 1 : Nat)) := by
  obtain ⟨n, hn⟩ := Int.eq_ofNat_of_zero_le (show 0 ≤ -d.exponent by omega)
  have hpow : (10 : ℚ) ^ d.exponent ≤ 2 ^ d.exponent := by
    rw [show d.exponent = -(n : ℤ) by omega, zpow_neg, zpow_neg, zpow_natCast, zpow_natCast]
    gcongr
    norm_num
  have hlog : (d.digits : ℚ) < 2 ^ (d.digits.log2 + 1) := by exact_mod_cast Nat.lt_log2_self
  rw [zpow_add₀ two_ne_zero, zpow_natCast, mul_comm, toRat]
  exact mul_lt_mul hlog hpow (by positivity) (by positivity)

theorem digits_ne_zero (h : 0 < d.toRat) : d.digits ≠ 0 := by
  intro hzero
  rw [toRat, hzero, Nat.cast_zero, zero_mul] at h
  exact lt_irrefl _ h

/-- A decimal within the bounds is rounded. -/
theorem toBinary_of_range (hlow : (2 : ℚ) ^ (-(exponentBound fmt : ℤ)) ≤ d.toRat)
    (hhigh : d.toRat < 2 ^ exponentBound fmt) :
    (d.toBinary : Binary fmt) = .nearest false d.num d.den := by
  have hdigits := digits_ne_zero (lt_of_lt_of_le (by positivity) hlow)
  have hlarge : ¬ (exponentBound fmt : ℤ) ≤ d.exponent :=
    fun hle => absurd (two_pow_le_toRat hdigits hle) (not_le.mpr hhigh)
  have hsmall : ¬ d.exponent + (d.digits.log2 + 1 : Nat) ≤ -(exponentBound fmt : ℤ) := by
    intro hle
    have hbound := toRat_lt_two_zpow (d := d) (by omega)
    exact absurd (hlow.trans_lt hbound) (not_lt.mpr (zpow_le_zpow_right₀ one_le_two hle))
  rw [toBinary, if_neg hdigits, if_neg hlarge, if_neg hsmall]
  rfl

theorem num_pos (h : 0 < d.toRat) : 0 < d.num :=
  Nat.mul_pos (Nat.pos_of_ne_zero (digits_ne_zero h)) (Nat.pow_pos (by decide))

/-- A decimal is read as the number that attracts it. -/
theorem toBinary_eq (hfin : x.isFinite = true) (hx : 0 < x.significand)
    (h : x.Attracts d.toRat) : (d.toBinary : Binary fmt) = x.abs := by
  obtain ⟨hlow, hhigh⟩ := h.mem_range hx
  have hpos : 0 < d.toRat := lt_of_lt_of_le (by positivity) hlow
  have hleast := (zpow_le_zpow_right₀ one_le_two x.neg_exponentBound_le).trans hlow
  have hmost := hhigh.trans_le (zpow_le_zpow_right₀ one_le_two (x.exponent_le hfin))
  rw [zpow_natCast] at hmost
  rw [toBinary_of_range hleast hmost]
  rw [← num_div_den] at h
  exact congrArg (Binary.mk false) (Fin.ext (h.nearestMagnitude_eq hfin (num_pos hpos) d.den_pos))

end Decimal

/-! ## Halves -/

namespace Binary

theorem half_range {y : Binary .half} (hfin : y.isFinite = true) (hy : 0 < y.significand) :
    (2 : ℚ) ^ (-24 : ℤ) ≤ y.significand * 2 ^ y.exponent ∧
      (y.significand : ℚ) * 2 ^ y.exponent < 2 ^ 18 := by
  have hexponent : y.exponent = -24 + y.steps := y.exponent_eq
  have hsteps := steps_lt hfin
  rw [show Format.half.exponentBits = 5 from rfl] at hsteps
  have hone : (1 : ℚ) ≤ y.significand := by exact_mod_cast hy
  have hlt : (y.significand : ℚ) < 2 ^ 11 := by exact_mod_cast y.fits.lt
  constructor
  · calc (2 : ℚ) ^ (-24 : ℤ) ≤ 2 ^ y.exponent := zpow_le_zpow_right₀ one_le_two (by omega)
      _ ≤ y.significand * 2 ^ y.exponent := le_mul_of_one_le_left (by positivity) hone
  · calc (y.significand : ℚ) * 2 ^ y.exponent < 2 ^ 11 * 2 ^ y.exponent := by gcongr
      _ ≤ 2 ^ 11 * 2 ^ (7 : ℤ) := by
          gcongr
          · exact one_le_two
          · omega
      _ = 2 ^ 18 := by norm_num

/-- A half is large enough to have all significand bits in single precision. -/
theorem half_units {x : Binary .single} {y : Binary .half} (hy : 0 < y.significand)
    (hvalue : (x.significand : ℚ) * 2 ^ x.exponent = y.significand * 2 ^ y.exponent) :
    2 ^ 23 ≤ x.significand := by
  by_contra hlt
  have hsteps : x.steps = 0 := x.fits.full.resolve_right hlt
  have hexponent : x.exponent = -149 := by
    rw [exponent_eq, hsteps]
    rfl
  have hleast : -24 ≤ y.exponent := by
    rw [exponent_eq, show Format.half.minExponent = -24 from rfl]
    omega
  have hone : (1 : ℚ) ≤ y.significand := by exact_mod_cast hy
  have hsmall : (x.significand : ℚ) < 2 ^ 23 := by exact_mod_cast not_le.mp hlt
  have hpow : (2 : ℚ) ^ (-24 : ℤ) ≤ 2 ^ y.exponent := zpow_le_zpow_right₀ one_le_two hleast
  rw [hexponent] at hvalue
  have hlow : (2 : ℚ) ^ (-24 : ℤ) ≤ y.significand * 2 ^ y.exponent :=
    hpow.trans (le_mul_of_one_le_left (by positivity) hone)
  rw [← hvalue] at hlow
  norm_num at hlow
  linarith

end Binary

/-- In the range of halves a double is near to the decimal that it was read from. -/
theorem Decimal.double_close {d : Decimal} (hlow : (2 : ℚ) ^ (-30 : ℤ) ≤ d.toRat)
    (hhigh : d.toRat < 2 ^ 30) :
    let z : Binary .double := d.toBinary
    z.isFinite = true ∧ z.negative = false ∧
      |(z.significand : ℚ) * 2 ^ z.exponent - d.toRat| ≤ d.toRat / 2 ^ 53 := by
  intro z
  have hpos : 0 < d.toRat := lt_of_lt_of_le (by positivity) hlow
  have hbound : exponentBound .double = 2100 := rfl
  have hz : z = .nearest false d.num d.den := by
    refine toBinary_of_range ?_ ?_
    · rw [hbound]
      exact (zpow_le_zpow_right₀ one_le_two (by norm_num)).trans hlow
    · rw [hbound]
      exact hhigh.trans_le (pow_le_pow_right₀ one_le_two (by norm_num))
  obtain ⟨hlog, hlog'⟩ := floorLog2Div_bounds (num_pos hpos) d.den_pos
  rw [num_div_den] at hlog hlog'
  set top := floorLog2Div d.num d.den
  have htop : -31 < top := by
    have := (zpow_lt_zpow_iff_right₀ one_lt_two).mp (hlow.trans_lt hlog')
    omega
  have htop' : top < 30 :=
    (zpow_lt_zpow_iff_right₀ one_lt_two).mp (hlog.trans_lt (by exact_mod_cast hhigh))
  have hsteps : Format.double.minExponent + (top + 1022).toNat = top - 52 := by
    rw [show Format.double.minExponent = -1074 from rfl]
    omega
  have hfraction : ((Format.double.fractionBits : Nat) : ℤ) = 52 := rfl
  have hclose := Binary.nearest_close (y := z) (top + 1022).toNat
    (num_pos hpos) d.den_pos ?_ ?_ ?_ (by rw [hz]; rfl)
  · refine ⟨hclose.1, by rw [hz]; rfl, ?_⟩
    have hdistance := hclose.2
    rw [num_div_den, hsteps, zpow_sub₀ two_ne_zero] at hdistance
    refine hdistance.trans ?_
    norm_num
    linarith
  · rw [num_div_den, hsteps, hfraction, sub_add_cancel]
    exact hlog
  · rw [num_div_den, hsteps, hfraction, sub_add_cancel]
    exact hlog'
  · rw [show Format.double.exponentBits = 11 from rfl]
    omega

namespace Binary

variable {fmt target : Format}

/-- A number is converted to the one that attracts it. -/
theorem Attracts.convert_eq {y : Binary target} {z : Binary fmt}
    (h : y.Attracts (z.significand * 2 ^ z.exponent)) (hy : y.isFinite = true)
    (hz : z.isFinite = true) (hpos : 0 < z.significand) :
    (z.convert : Binary target) = ⟨z.negative, y.magnitude⟩ := by
  obtain ⟨hnan, hinf⟩ := isFinite_iff.mp hz
  rw [convert, hnan, hinf]
  refine congrArg (Binary.mk z.negative) (Fin.ext (Attracts.nearestMagnitude_eq hy ?_ ?_ ?_))
  · exact Nat.mul_pos hpos (Nat.two_pow_pos _)
  · exact Nat.mul_pos Nat.one_pos (Nat.two_pow_pos _)
  · rw [zpow_eq_div] at h
    convert h using 1
    push_cast [Nat.pow_eq]
    ring

theorem significand_pos {x : Binary fmt} (h : (0 : ℚ) < x.significand * 2 ^ x.exponent) :
    0 < x.significand := by
  exact_mod_cast (mul_pos_iff_of_pos_right (by positivity)).mp h

theorem abs_toRat (x : Binary fmt) : x.abs.toRat = x.significand * 2 ^ x.exponent := by
  rw [toRat_eq, show x.abs.negative = false from rfl, if_neg Bool.false_ne_true, one_mul]
  rfl

end Binary

/-- Read in double precision, the decimal of a half is rounded to the half. -/
theorem Decimal.half_attracts_double {x : Binary .single} {y : Binary .half}
    (hy : y.isFinite = true) (hpos : 0 < y.significand)
    (hvalue : (x.significand : ℚ) * 2 ^ x.exponent = y.significand * 2 ^ y.exponent)
    {d : Decimal} (h : x.Attracts d.toRat) :
    let z : Binary .double := d.toBinary
    z.isFinite = true ∧ z.negative = false ∧ y.Attracts (z.significand * 2 ^ z.exponent) := by
  intro z
  obtain ⟨hlow, hhigh⟩ := Binary.half_range hy hpos
  have hclose := h.abs_sub_le
  have hfull : ((2 : ℚ) ^ 23) ≤ x.significand := by exact_mod_cast Binary.half_units hpos hvalue
  have hunit : (0 : ℚ) < 2 ^ x.exponent := by positivity
  have hunits : 2 ^ 23 * 2 ^ x.exponent ≤ (y.significand : ℚ) * 2 ^ y.exponent := by
    rw [← hvalue]
    gcongr
  have hlt : (y.significand : ℚ) * 2 ^ y.exponent < 2 ^ 11 * 2 ^ y.exponent := by
    gcongr
    exact_mod_cast y.fits.lt
  rw [hvalue] at hclose
  obtain ⟨hbelow, habove⟩ := abs_le.mp hclose
  norm_num at hlow hhigh hunits hlt
  obtain ⟨hz, hsign, hdistance⟩ := d.double_close (by norm_num; linarith) (by norm_num; linarith)
  refine ⟨hz, hsign, Binary.attracts_of_abs_lt ?_⟩
  calc |(z.significand : ℚ) * 2 ^ z.exponent - y.significand * 2 ^ y.exponent|
      ≤ |(z.significand : ℚ) * 2 ^ z.exponent - d.toRat| +
        |d.toRat - y.significand * 2 ^ y.exponent| := abs_sub_le _ _ _
    _ ≤ d.toRat / 2 ^ 53 + 2 ^ x.exponent / 2 := add_le_add hdistance hclose
    _ < 2 ^ y.exponent / 4 := by
        norm_num
        linarith

/-- Read in double precision and then rounded to half precision, the decimal of a half is the
    half. -/
theorem Decimal.roundHalf_toBinary {x : Binary .single} (hhalf : x.IsHalf)
    (hfin : x.isFinite = true) (hx : 0 < x.significand) {d : Decimal} (h : x.Attracts d.toRat) :
    (d.toBinary : Binary .double).roundHalf = x.abs := by
  obtain ⟨hnan, hinf⟩ := Binary.isFinite_iff.mp hfin
  rcases hhalf with hnan' | hinf' | ⟨-, y, hy, hsign, hrat⟩
  · rw [hnan] at hnan'
    cases hnan'
  · rw [hinf] at hinf'
    cases hinf'
  have hvalue := (Binary.value_eq_of_toRat_eq hsign hrat).symm
  have hpos : 0 < y.significand := by
    refine Binary.significand_pos ?_
    rw [← hvalue]
    positivity
  obtain ⟨hz, hsignz, hattracts⟩ := half_attracts_double hy hpos hvalue h
  set z : Binary .double := d.toBinary
  have hsame : y.abs.Same x.abs :=
    ⟨rfl, .inr (.inr ⟨hy, hfin, by rw [Binary.abs_toRat, Binary.abs_toRat, hvalue]⟩)⟩
  have hzpos : 0 < z.significand :=
    Binary.significand_pos (lt_of_lt_of_le (by positivity) (hattracts.mem_range hpos).1)
  rw [Binary.roundHalf_double, hattracts.convert_eq hy hz hzpos, hsignz]
  exact Binary.convert_finite hsame hy

end ScalarLang
