import Mathlib
import ScalarLang.Proofs.Binary.Exact

/-
  What is rounded to a number.
  A rational is rounded to a finite number if it is at most half a unit of the last significand bit
  away from it, and the number is even if it is just half a unit. Below a power of two the units are
  half as large, so there it is a quarter of a unit.
-/

namespace ScalarLang

/-- Between two bounds, which count themselves if the interval is closed. -/
def Between (closed : Bool) (low q high : ℚ) : Prop :=
  if closed then low ≤ q ∧ q ≤ high else low < q ∧ q < high

namespace Between

variable {closed : Bool} {low q high : ℚ}

theorem le (h : Between closed low q high) : low ≤ q ∧ q ≤ high := by
  unfold Between at h
  split at h
  · exact h
  · exact ⟨h.1.le, h.2.le⟩

theorem of_lt (hlow : low < q) (hhigh : q < high) : Between closed low q high := by
  unfold Between
  split
  · exact ⟨hlow.le, hhigh.le⟩
  · exact ⟨hlow, hhigh⟩

theorem mono {low' high' : ℚ} (h : Between closed low q high) (hlow : low' ≤ low)
    (hhigh : high ≤ high') : Between closed low' q high' := by
  unfold Between at h ⊢
  split at h
  · rw [if_pos ‹_›]
    exact ⟨hlow.trans h.1, h.2.trans hhigh⟩
  · rw [if_neg ‹_›]
    exact ⟨hlow.trans_lt h.1, h.2.trans_le hhigh⟩

theorem mul_iff {c : ℚ} (hc : 0 < c) :
    Between closed (low * c) (q * c) (high * c) ↔ Between closed low q high := by
  unfold Between
  rw [mul_le_mul_iff_left₀ hc, mul_le_mul_iff_left₀ hc, mul_lt_mul_iff_left₀ hc,
    mul_lt_mul_iff_left₀ hc]

end Between

theorem abs_divNearestEven_sub_le (num : Nat) {den : Nat} (hden : 0 < den) :
    |(divNearestEven num den : ℚ) - (num : ℚ) / den| ≤ 1 / 2 := by
  have hsplit : den * (num / den) + num % den = num := Nat.div_add_mod num den
  have hlt : num % den < den := Nat.mod_lt num hden
  have hden' : (0 : ℚ) < den := by exact_mod_cast hden
  have hbounds : 2 * (den * divNearestEven num den) ≤ 2 * num + den ∧
      2 * num ≤ 2 * (den * divNearestEven num den) + den := by
    simp only [divNearestEven]
    generalize num / den = q at *
    generalize num % den = r at *
    split_ifs
    · omega
    · rw [Nat.mul_succ]
      omega
    · rcases Nat.mod_two_eq_zero_or_one q with hq | hq <;> rw [hq, Nat.mul_add] <;> omega
  have hbounds' : 2 * ((den : ℚ) * divNearestEven num den) ≤ 2 * num + den ∧
      2 * (num : ℚ) ≤ 2 * (den * divNearestEven num den) + den := by exact_mod_cast hbounds
  have hquotient : (num : ℚ) / den * den = num := div_mul_cancel₀ _ hden'.ne'
  rw [abs_le]
  constructor
  · nlinarith
  · nlinarith

/-- The nearest integer of a quotient is at most a half away, and even if it is just a half away. -/
theorem divNearestEven_eq {num den n : Nat} (hden : 0 < den)
    (h : Between (n % 2 == 0) (n - 1 / 2) ((num : ℚ) / den) (n + 1 / 2)) :
    divNearestEven num den = n := by
  have hsplit : den * (num / den) + num % den = num := Nat.div_add_mod num den
  have hlt : num % den < den := Nat.mod_lt num hden
  have hden' : (0 : ℚ) < den := by exact_mod_cast hden
  -- the same bounds without fractions
  have hbounds : if (n % 2 == 0) = true then
        2 * (den * n) ≤ 2 * num + den ∧ 2 * num ≤ 2 * (den * n) + den
      else 2 * (den * n) < 2 * num + den ∧ 2 * num < 2 * (den * n) + den := by
    have hmid : (num : ℚ) / den * (2 * den) = (2 * num : Nat) := by
      push_cast
      field_simp
    have hhigh : ((n : ℚ) + 1 / 2) * (2 * den) = (2 * (den * n) + den : Nat) := by
      push_cast
      ring
    have hlow : ((n : ℚ) - 1 / 2) * (2 * den) = (2 * (den * n) : Nat) - (den : Nat) := by
      push_cast
      ring
    rw [← Between.mul_iff (c := 2 * den) (by positivity), hmid, hhigh, hlow, Between,
      sub_le_iff_le_add, sub_lt_iff_lt_add] at h
    exact_mod_cast h
  simp only [divNearestEven]
  generalize num / den = q at *
  generalize num % den = r at *
  have hle : q ≤ n := by
    by_contra hgt
    have hmul : den * (n + 1) ≤ den * q := Nat.mul_le_mul_left den (by omega)
    rw [Nat.mul_succ] at hmul
    split at hbounds <;> omega
  have hge : n ≤ q + 1 := by
    by_contra hgt
    have hmul : den * (q + 2) ≤ den * n := Nat.mul_le_mul_left den (by omega)
    rw [Nat.mul_add] at hmul
    split at hbounds <;> omega
  have hcases : n = q ∨ n = q + 1 := by omega
  simp only [beq_iff_eq] at hbounds
  rcases hcases with rfl | rfl
  · split_ifs at hbounds ⊢ <;> omega
  · rw [Nat.mul_succ] at hbounds
    split_ifs at hbounds ⊢ <;> omega

namespace Format

variable {fmt : Format} {significand steps num den : Nat}

/-- Rounding divides once, at the place of the last bit. -/
theorem nearestMagnitude_of_unit (hnum : 0 < num)
    (hunit : fmt.unitExponent (floorLog2Div num den) = fmt.minExponent + steps) :
    fmt.nearestMagnitude num den = min fmt.infinity (steps * 2 ^ fmt.fractionBits +
      divNearestEven (num * 2 ^ (-(fmt.minExponent + steps)).toNat)
        (den * 2 ^ (fmt.minExponent + steps).toNat)) := by
  unfold nearestMagnitude
  rw [if_neg hnum.ne']
  simp only [hunit, Nat.pow_eq, add_sub_cancel_left, Int.toNat_natCast]

theorem scaled_quotient (num : Nat) (hden : 0 < den) (k : ℤ) :
    ((num * 2 ^ (-k).toNat : Nat) : ℚ) / (den * 2 ^ k.toNat : Nat) * 2 ^ k = (num : ℚ) / den := by
  have hden' : (0 : ℚ) < den := by exact_mod_cast hden
  rw [zpow_eq_div]
  push_cast
  field_simp

/-- Rounding, once it is known between which powers of two the quotient is. -/
theorem nearestMagnitude_of_between (hnum : 0 < num) (hden : 0 < den)
    (hlow : steps = 0 ∨ (2 : ℚ) ^ (fmt.minExponent + steps + fmt.fractionBits) ≤ (num : ℚ) / den)
    (hhigh : (num : ℚ) / den < 2 ^ (fmt.minExponent + steps + fmt.fractionBits + 1))
    (hnear : Between (significand % 2 == 0) ((significand - 1 / 2) * 2 ^ (fmt.minExponent + steps))
      ((num : ℚ) / den) ((significand + 1 / 2) * 2 ^ (fmt.minExponent + steps))) :
    fmt.nearestMagnitude num den =
      min fmt.infinity (steps * 2 ^ fmt.fractionBits + significand) := by
  rw [nearestMagnitude_of_unit hnum (unitExponent_eq hnum hden hlow hhigh)]
  congr 2
  refine divNearestEven_eq (Nat.mul_pos hden (Nat.two_pow_pos _)) ?_
  rw [← Between.mul_iff (c := 2 ^ (fmt.minExponent + steps)) (by positivity),
    scaled_quotient _ hden]
  exact hnear

/-- Just below a power of two, rounding carries. -/
theorem nearestMagnitude_of_carry (steps : Nat) (hnum : 0 < num) (hden : 0 < den)
    (hlow : ((2 : ℚ) ^ (fmt.fractionBits + 1) - 1 / 2) * 2 ^ (fmt.minExponent + steps) ≤
      (num : ℚ) / den)
    (hhigh : (num : ℚ) / den < 2 ^ (fmt.fractionBits + 1) * 2 ^ (fmt.minExponent + steps)) :
    fmt.nearestMagnitude num den =
      min fmt.infinity (steps * 2 ^ fmt.fractionBits + 2 ^ (fmt.fractionBits + 1)) := by
  have hunit : (0 : ℚ) < 2 ^ (fmt.minExponent + steps) := by positivity
  have hone : (1 : ℚ) ≤ 2 ^ fmt.fractionBits := one_le_pow₀ one_le_two
  have hpow : (2 : ℚ) ^ (fmt.minExponent + steps + fmt.fractionBits) =
      2 ^ fmt.fractionBits * 2 ^ (fmt.minExponent + steps) := by
    rw [zpow_add₀ two_ne_zero, zpow_natCast, mul_comm]
  rw [pow_succ] at hlow hhigh
  refine nearestMagnitude_of_between hnum hden (.inr ?_) ?_ ?_
  · rw [hpow]
    nlinarith
  · rw [zpow_add_one₀ two_ne_zero, hpow]
    linarith
  · have heven : (2 ^ (fmt.fractionBits + 1) % 2 == 0) = true := by simp [pow_succ]
    rw [heven]
    push_cast
    rw [pow_succ]
    exact ⟨hlow, by linarith⟩

end Format

namespace Binary

variable {fmt : Format} {x : Binary fmt} {q : ℚ}

/-- How far below the number it is rounded to, in units of the last bit. -/
def lowerReach (x : Binary fmt) : ℚ :=
  if x.fractionField = 0 ∧ 1 < x.exponentField then 1 / 4 else 1 / 2

/-- The rational is rounded to the magnitude of the number. -/
def Attracts (x : Binary fmt) (q : ℚ) : Prop :=
  Between (x.significand % 2 == 0) ((x.significand - x.lowerReach) * 2 ^ x.exponent) q
    ((x.significand + 1 / 2) * 2 ^ x.exponent)

theorem lowerReach_le (x : Binary fmt) : x.lowerReach ≤ 1 / 2 := by
  unfold lowerReach
  split <;> norm_num

/-- Only a power of two that is not among the smallest numbers attracts less than itself. -/
theorem significand_of_lt (hsteps : x.steps ≠ 0)
    (h : (x.significand : ℚ) - x.lowerReach < 2 ^ fmt.fractionBits) :
    x.significand = 2 ^ fmt.fractionBits ∧ x.lowerReach = 1 / 4 := by
  have hfull : 2 ^ fmt.fractionBits ≤ x.significand := x.fits.full.resolve_left hsteps
  have hfull' : ((2 ^ fmt.fractionBits : Nat) : ℚ) ≤ x.significand := by exact_mod_cast hfull
  have hreach := x.lowerReach_le
  have hlt : (x.significand : ℚ) < (2 ^ fmt.fractionBits + 1 : Nat) := by
    push_cast
    linarith
  have hsignificand : x.significand = 2 ^ fmt.fractionBits := by
    have hlt : x.significand < 2 ^ fmt.fractionBits + 1 := by exact_mod_cast hlt
    omega
  have hexponent : 1 < x.exponentField := by
    have : x.steps = x.exponentField - 1 := rfl
    omega
  have hfraction : x.fractionField = 0 := by
    have hsum : x.significand = 2 ^ fmt.fractionBits + x.fractionField := by
      rw [significand, if_neg (by omega)]
      rfl
    omega
  exact ⟨hsignificand, if_pos ⟨hfraction, hexponent⟩⟩

theorem significand_add_half_lt (x : Binary fmt) :
    ((x.significand : ℚ) + 1 / 2) * 2 ^ x.exponent < 2 ^ (x.exponent + fmt.fractionBits + 1) := by
  have hlt : x.significand + 1 ≤ 2 ^ (fmt.fractionBits + 1) := x.fits.lt
  have hlt : (x.significand : ℚ) + 1 ≤ 2 ^ (fmt.fractionBits + 1) := by exact_mod_cast hlt
  have hpow : (2 : ℚ) ^ (x.exponent + fmt.fractionBits + 1) =
      2 ^ (fmt.fractionBits + 1) * 2 ^ x.exponent := by
    rw [← zpow_natCast, ← zpow_add₀ two_ne_zero]
    congr 1
    push_cast
    ring
  rw [hpow]
  gcongr
  linarith

/-- A quotient is rounded to the number that attracts it. -/
theorem Attracts.nearestMagnitude_eq (hfin : x.isFinite = true) {num den : Nat} (hnum : 0 < num)
    (hden : 0 < den) (h : x.Attracts ((num : ℚ) / den)) :
    fmt.nearestMagnitude num den = x.magnitude.val := by
  have hlt : x.magnitude.val < fmt.infinity := of_decide_eq_true hfin
  obtain ⟨hlow, hhigh⟩ := h.le
  have htop := hhigh.trans_lt x.significand_add_half_lt
  have hunit : (0 : ℚ) < 2 ^ x.exponent := by positivity
  by_cases hbits : x.steps = 0 ∨ (2 : ℚ) ^ (x.exponent + fmt.fractionBits) ≤ (num : ℚ) / den
  · have hnear : Between _ ((x.significand - 1 / 2) * 2 ^ x.exponent) _ _ :=
      h.mono (by gcongr; exact x.lowerReach_le) le_rfl
    rw [Format.nearestMagnitude_of_between hnum hden hbits htop hnear, ← x.magnitude_eq,
      Nat.min_eq_right hlt.le]
  · -- The quotient is below a power of two, and rounding carries.
    obtain ⟨hsteps, hbelow⟩ := not_or.mp hbits
    rw [not_le, zpow_add₀ two_ne_zero, mul_comm, zpow_natCast] at hbelow
    obtain ⟨hsignificand, hreach⟩ := significand_of_lt hsteps
      (lt_of_mul_lt_mul_right (hlow.trans_lt hbelow) hunit.le)
    obtain ⟨k, hk⟩ := Nat.exists_eq_add_one_of_ne_zero hsteps
    have hexponent : (2 : ℚ) ^ x.exponent = 2 * 2 ^ (fmt.minExponent + k) := by
      rw [exponent_eq, hk, ← zpow_one_add₀ two_ne_zero]
      congr 1
      push_cast
      ring
    rw [hexponent] at hbelow
    rw [hexponent, hsignificand, hreach] at hlow
    push_cast at hlow
    have hmagnitude : x.magnitude.val = k * 2 ^ fmt.fractionBits + 2 ^ (fmt.fractionBits + 1) := by
      rw [x.magnitude_eq, hk, hsignificand]
      ring
    rw [Format.nearestMagnitude_of_carry k hnum hden (by rw [pow_succ]; linarith)
      (by rw [pow_succ]; linarith), ← hmagnitude, Nat.min_eq_right hlt.le]

/-- What a number attracts is at most half a unit away. -/
theorem Attracts.abs_sub_le (h : x.Attracts q) :
    |q - x.significand * 2 ^ x.exponent| ≤ 2 ^ x.exponent / 2 := by
  obtain ⟨hlow, hhigh⟩ := h.le
  have hreach := x.lowerReach_le
  have hunit : (0 : ℚ) < 2 ^ x.exponent := by positivity
  rw [abs_le]
  constructor
  · nlinarith
  · linarith

theorem quarter_le_lowerReach (x : Binary fmt) : 1 / 4 ≤ x.lowerReach := by
  unfold lowerReach
  split <;> norm_num

/-- A number attracts what is less than a quarter of a unit away from it. -/
theorem attracts_of_abs_lt (h : |q - x.significand * 2 ^ x.exponent| < 2 ^ x.exponent / 4) :
    x.Attracts q := by
  have hunit : (0 : ℚ) < 2 ^ x.exponent := by positivity
  have hreach := x.quarter_le_lowerReach
  obtain ⟨hlow, hhigh⟩ := abs_lt.mp h
  exact .of_lt (by nlinarith) (by linarith)

theorem attracts_self (x : Binary fmt) : x.Attracts (x.significand * 2 ^ x.exponent) := by
  refine attracts_of_abs_lt ?_
  rw [sub_self, abs_zero]
  positivity

/-! ## How far rounding goes -/

/-- The value of a magnitude with a significand that may carry. -/
theorem value_of_magnitude_eq {significand steps : Nat}
    (hle : significand ≤ 2 ^ (fmt.fractionBits + 1)) (hfull : 2 ^ fmt.fractionBits ≤ significand)
    (hx : x.magnitude.val = steps * 2 ^ fmt.fractionBits + significand) :
    (x.significand : ℚ) * 2 ^ x.exponent = significand * 2 ^ (fmt.minExponent + steps) := by
  rcases Nat.lt_or_eq_of_le hle with hlt | rfl
  · obtain ⟨hs, hk⟩ := of_magnitude_eq ⟨hlt, .inr hfull⟩ hx
    rw [exponent_eq, hs, hk]
  · have hcarry : x.magnitude.val = (steps + 1) * 2 ^ fmt.fractionBits + 2 ^ fmt.fractionBits := by
      rw [hx]
      ring
    obtain ⟨hs, hk⟩ := of_magnitude_eq ⟨Nat.pow_lt_pow_right one_lt_two (Nat.lt_succ_self _),
      .inr le_rfl⟩ hcarry
    have hpow : (2 : ℚ) ^ (fmt.minExponent + (steps + 1 : Nat)) =
        2 * 2 ^ (fmt.minExponent + steps) := by
      rw [← zpow_one_add₀ two_ne_zero]
      congr 1
      push_cast
      ring
    rw [exponent_eq, hs, hk, hpow]
    push_cast
    ring

/-- A number of the middle range is at most half a unit away from what is rounded to it. -/
theorem nearest_close {num den : Nat} (steps : Nat) (hnum : 0 < num) (hden : 0 < den)
    (hlow : (2 : ℚ) ^ (fmt.minExponent + steps + fmt.fractionBits) ≤ (num : ℚ) / den)
    (hhigh : (num : ℚ) / den < 2 ^ (fmt.minExponent + steps + fmt.fractionBits + 1))
    (hsteps : steps + 3 < 2 ^ fmt.exponentBits) {y : Binary fmt}
    (hy : y.magnitude.val = fmt.nearestMagnitude num den) :
    y.isFinite = true ∧
      |(y.significand : ℚ) * 2 ^ y.exponent - (num : ℚ) / den| ≤
        2 ^ (fmt.minExponent + steps) / 2 := by
  set unit := fmt.minExponent + steps
  have hpow : (0 : ℚ) < 2 ^ unit := by positivity
  have hquotient := Format.scaled_quotient num hden unit
  have herror := abs_divNearestEven_sub_le (num * 2 ^ (-unit).toNat)
    (Nat.mul_pos hden (Nat.two_pow_pos unit.toNat))
  have hexponent := Format.unitExponent_eq hnum hden (.inr hlow) hhigh
  rw [Format.nearestMagnitude_of_unit hnum hexponent] at hy
  set significand := divNearestEven (num * 2 ^ (-unit).toNat) (den * 2 ^ unit.toNat)
  set quotient := ((num * 2 ^ (-unit).toNat : Nat) : ℚ) / (den * 2 ^ unit.toNat : Nat)
  have hbase : (2 : ℚ) ^ (unit + fmt.fractionBits) = 2 ^ fmt.fractionBits * 2 ^ unit := by
    rw [zpow_add₀ two_ne_zero unit, zpow_natCast, mul_comm]
  rw [hbase, ← hquotient, mul_le_mul_iff_left₀ hpow] at hlow
  rw [zpow_add_one₀ two_ne_zero, hbase, mul_right_comm, ← pow_succ, ← hquotient,
    mul_lt_mul_iff_left₀ hpow] at hhigh
  obtain ⟨hbelow, habove⟩ := abs_le.mp herror
  have hfull : 2 ^ fmt.fractionBits ≤ significand := by
    have hlt : ((2 ^ fmt.fractionBits : Nat) : ℚ) < (significand + 1 : Nat) := by
      push_cast
      linarith
    exact Nat.le_of_lt_succ (by exact_mod_cast hlt)
  have hle : significand ≤ 2 ^ (fmt.fractionBits + 1) := by
    have hlt : (significand : ℚ) < (2 ^ (fmt.fractionBits + 1) + 1 : Nat) := by
      push_cast
      linarith
    exact Nat.le_of_lt_succ (by exact_mod_cast hlt)
  have hfinite : steps * 2 ^ fmt.fractionBits + significand < fmt.infinity := by
    calc steps * 2 ^ fmt.fractionBits + significand
        ≤ steps * 2 ^ fmt.fractionBits + 2 ^ (fmt.fractionBits + 1) := Nat.add_le_add_left hle _
      _ = (steps + 2) * 2 ^ fmt.fractionBits := by ring
      _ < (2 ^ fmt.exponentBits - 1) * 2 ^ fmt.fractionBits :=
          Nat.mul_lt_mul_of_pos_right (by omega) (Nat.two_pow_pos _)
  rw [Nat.min_eq_right hfinite.le] at hy
  refine ⟨decide_eq_true (hy ▸ hfinite), ?_⟩
  rw [value_of_magnitude_eq hle hfull hy, ← hquotient, ← sub_mul, abs_mul, abs_of_pos hpow]
  linarith [mul_le_mul_of_nonneg_right herror hpow.le]

end Binary

end ScalarLang
