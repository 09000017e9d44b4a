import Mathlib
import ScalarLang.Proofs.Binary.Interval

/-
  Rounding as a choice between neighbours.
  Magnitude fields count the numbers of a format in increasing order, and the field of infinity
  stands for the power of two that comes next. A rational is rounded to a field or below it if it is
  less than the midpoint of the field and the next, or equal to it and the field is even. This
  decides everything about rounding: it keeps the order, the result is nearest, ties are even, and
  overflow starts at the midpoint above the largest number.
-/

namespace ScalarLang

/-- The natural number is the rational, rounded: it is compared as the rational is compared with the
    midpoints, which are rounded to even. -/
def IsNearestNat (rounded : Nat) (q : ℚ) : Prop :=
  ∀ n : Nat, rounded ≤ n ↔ q < n + 1 / 2 ∨ (q = n + 1 / 2 ∧ n % 2 = 0)

namespace IsNearestNat

variable {rounded n : Nat} {q : ℚ}

theorem le_of_le (h : IsNearestNat rounded q) (hq : q ≤ n) : rounded ≤ n :=
  (h n).mpr (.inl (by linarith))

theorem le_of_ge (h : IsNearestNat rounded q) (hq : n ≤ q) : n ≤ rounded := by
  cases n with
  | zero => exact Nat.zero_le rounded
  | succ k =>
      refine Nat.lt_of_not_le fun hle => ?_
      push_cast at hq
      rcases (h k).mp hle with hlt | ⟨heq, -⟩ <;> linarith

end IsNearestNat

theorem divNearestEven_isNearestNat (num : Nat) {den : Nat} (hden : 0 < den) :
    IsNearestNat (divNearestEven num den) ((num : ℚ) / den) := by
  intro n
  have hden' : (0 : ℚ) < den := by exact_mod_cast hden
  have hscaled : ((n : ℚ) + 1 / 2) * den = ((2 * (den * n) + den : Nat) : ℚ) / 2 := by
    push_cast
    ring
  have hlt : (num : ℚ) / den < n + 1 / 2 ↔ 2 * num < 2 * (den * n) + den := by
    rw [div_lt_iff₀ hden', hscaled, lt_div_iff₀ two_pos, mul_comm]
    exact_mod_cast Iff.rfl
  have heq : (num : ℚ) / den = n + 1 / 2 ↔ 2 * num = 2 * (den * n) + den := by
    rw [div_eq_iff hden'.ne', hscaled, eq_div_iff two_ne_zero, mul_comm]
    exact_mod_cast Iff.rfl
  rw [hlt, heq]
  have hsplit : den * (num / den) + num % den = num := Nat.div_add_mod num den
  have hmod : num % den < den := Nat.mod_lt num hden
  simp only [divNearestEven]
  generalize num / den = q at *
  generalize num % den = r at *
  rcases Nat.lt_trichotomy q n with h | rfl | h
  · have hmul : den * (q + 1) ≤ den * n := Nat.mul_le_mul_left den h
    rw [Nat.mul_succ] at hmul
    split_ifs <;> omega
  · split_ifs <;> omega
  · have hmul : den * (n + 1) ≤ den * q := Nat.mul_le_mul_left den h
    rw [Nat.mul_succ] at hmul
    split_ifs <;> omega

namespace Format

variable {fmt : Format} {m n : Nat} {q : ℚ}

/-! ## The numbers of the fields -/

/-- The steps from the least exponent to that of a magnitude field. -/
def fieldSteps (fmt : Format) (m : Nat) : Nat := m / 2 ^ fmt.fractionBits - 1

def fieldSignificand (fmt : Format) (m : Nat) : Nat := m - fmt.fieldSteps m * 2 ^ fmt.fractionBits

/-- The distance from the number of a field to the next. -/
def fieldUnit (fmt : Format) (m : Nat) : ℚ := 2 ^ (fmt.minExponent + fmt.fieldSteps m)

/-- The number that a field stands for. -/
def value (fmt : Format) (m : Nat) : ℚ := fmt.fieldSignificand m * fmt.fieldUnit m

/-- Halfway between the number of a field and the next. -/
def midpoint (fmt : Format) (m : Nat) : ℚ := (fmt.value m + fmt.value (m + 1)) / 2

/-- Where rounding to the nearest number starts to give infinity. -/
def overflow (fmt : Format) : ℚ := fmt.midpoint (fmt.infinity - 1)

theorem field_eq (fmt : Format) (m : Nat) :
    fmt.fieldSteps m * 2 ^ fmt.fractionBits + fmt.fieldSignificand m = m := by
  have hle : m / 2 ^ fmt.fractionBits * 2 ^ fmt.fractionBits ≤ m := Nat.div_mul_le_self m _
  have hsteps : fmt.fieldSteps m * 2 ^ fmt.fractionBits ≤ m :=
    (Nat.mul_le_mul_right _ (Nat.sub_le _ 1)).trans hle
  exact Nat.add_sub_cancel' hsteps

/-- The last bit of a field is that of its significand. -/
theorem add_mod_two (fmt : Format) (steps significand : Nat) :
    (steps * 2 ^ fmt.fractionBits + significand) % 2 = significand % 2 := by
  obtain ⟨k, hk⟩ := Nat.exists_eq_add_one_of_ne_zero fmt.fractionBits_pos.ne'
  rw [hk, pow_succ, ← Nat.mul_assoc]
  omega

theorem fits_field (fmt : Format) (m : Nat) :
    fmt.Fits (fmt.fieldSignificand m) (fmt.fieldSteps m) := by
  have hsplit : 2 ^ fmt.fractionBits * (m / 2 ^ fmt.fractionBits) + m % 2 ^ fmt.fractionBits = m :=
    Nat.div_add_mod m _
  have hlt : m % 2 ^ fmt.fractionBits < 2 ^ fmt.fractionBits := Nat.mod_lt _ (Nat.two_pow_pos _)
  have hfield := fmt.field_eq m
  have hpow : 2 ^ (fmt.fractionBits + 1) = 2 ^ fmt.fractionBits + 2 ^ fmt.fractionBits := by
    rw [pow_succ]
    omega
  rcases Nat.eq_zero_or_pos (m / 2 ^ fmt.fractionBits) with hzero | hpos
  · have hsteps : fmt.fieldSteps m = 0 := by rw [fieldSteps, hzero]
    rw [hsteps] at hfield ⊢
    rw [hzero] at hsplit
    exact ⟨by omega, .inl rfl⟩
  · obtain ⟨k, hk⟩ := Nat.exists_eq_add_one_of_ne_zero hpos.ne'
    have hsteps : fmt.fieldSteps m = k := by rw [fieldSteps, hk, Nat.add_sub_cancel]
    rw [hsteps] at hfield ⊢
    rw [hk, Nat.mul_succ, Nat.mul_comm] at hsplit
    exact ⟨by omega, .inr (by omega)⟩

/-- A significand and a number of steps that fit are those of the field. -/
theorem Fits.field_eq {significand steps : Nat} (h : fmt.Fits significand steps) :
    fmt.fieldSignificand (steps * 2 ^ fmt.fractionBits + significand) = significand ∧
      fmt.fieldSteps (steps * 2 ^ fmt.fractionBits + significand) = steps := by
  set m := steps * 2 ^ fmt.fractionBits + significand with hm
  have hfield := fmt.field_eq m
  have hfits := fmt.fits_field m
  rcases Nat.lt_trichotomy (fmt.fieldSteps m) steps with hlt | heq | hgt
  · exact absurd (hfits.lt_of_steps_lt h hlt).2 (by omega)
  · rw [heq] at hfield
    exact ⟨by omega, heq⟩
  · exact absurd (h.lt_of_steps_lt hfits hgt).2 (by omega)

theorem Fits.value_eq {significand steps : Nat} (h : fmt.Fits significand steps) :
    fmt.value (steps * 2 ^ fmt.fractionBits + significand) =
      significand * 2 ^ (fmt.minExponent + steps) := by
  rw [value, fieldUnit, h.field_eq.1, h.field_eq.2]

theorem fieldUnit_pos (fmt : Format) (m : Nat) : 0 < fmt.fieldUnit m := by
  unfold fieldUnit
  positivity

theorem value_nonneg (fmt : Format) (m : Nat) : 0 ≤ fmt.value m :=
  mul_nonneg (Nat.cast_nonneg _) (fmt.fieldUnit_pos m).le

/-- Fields are ordered as their numbers. -/
theorem value_lt_value : fmt.value m < fmt.value n ↔ m < n := by
  have hpow : (0 : ℚ) < 2 ^ fmt.minExponent := by positivity
  have hfields := (fmt.fits_field m).lt_iff (fmt.fits_field n)
  rw [field_eq, field_eq] at hfields
  rw [hfields, value, value, fieldUnit, fieldUnit, zpow_add₀ two_ne_zero, zpow_add₀ two_ne_zero,
    mul_left_comm, mul_left_comm (fmt.fieldSignificand n : ℚ), mul_lt_mul_iff_right₀ hpow,
    zpow_natCast, zpow_natCast]
  exact_mod_cast Iff.rfl

theorem value_strictMono (fmt : Format) : StrictMono fmt.value := fun _ _ => value_lt_value.mpr

@[simp] theorem value_zero (fmt : Format) : fmt.value 0 = 0 := by
  simp [value, fieldSignificand]

/-- The first number with an exponent. -/
theorem value_first (fmt : Format) (steps : Nat) :
    fmt.value (steps * 2 ^ fmt.fractionBits + 2 ^ fmt.fractionBits) =
      2 ^ fmt.fractionBits * 2 ^ (fmt.minExponent + steps) := by
  have hfits : fmt.Fits (2 ^ fmt.fractionBits) steps :=
    ⟨Nat.pow_lt_pow_right one_lt_two (Nat.lt_succ_self _), .inr le_rfl⟩
  rw [hfits.value_eq]
  push_cast
  rfl

/-- A significand that does not fit any more carries into the exponent. -/
theorem value_carry (fmt : Format) (steps : Nat) :
    fmt.value (steps * 2 ^ fmt.fractionBits + 2 ^ (fmt.fractionBits + 1)) =
      2 ^ (fmt.fractionBits + 1) * 2 ^ (fmt.minExponent + steps) := by
  have hfield : steps * 2 ^ fmt.fractionBits + 2 ^ (fmt.fractionBits + 1) =
      (steps + 1) * 2 ^ fmt.fractionBits + 2 ^ fmt.fractionBits := by ring
  have hexponent : (2 : ℚ) ^ (fmt.minExponent + (steps + 1 : Nat)) =
      2 * 2 ^ (fmt.minExponent + steps) := by
    rw [← zpow_one_add₀ two_ne_zero]
    congr 1
    push_cast
    ring
  rw [hfield, value_first, hexponent]
  ring

/-- The number of a field, by a significand that may carry. -/
theorem value_of_le {significand steps : Nat} (hle : significand ≤ 2 ^ (fmt.fractionBits + 1))
    (hfull : steps = 0 ∨ 2 ^ fmt.fractionBits ≤ significand) :
    fmt.value (steps * 2 ^ fmt.fractionBits + significand) =
      significand * 2 ^ (fmt.minExponent + steps) := by
  rcases Nat.lt_or_eq_of_le hle with hlt | rfl
  · exact Fits.value_eq ⟨hlt, hfull⟩
  · rw [value_carry]
    push_cast
    rfl

theorem value_succ (fmt : Format) (m : Nat) :
    fmt.value (m + 1) = fmt.value m + fmt.fieldUnit m := by
  have hfits := fmt.fits_field m
  have hnext : fmt.fieldSteps m * 2 ^ fmt.fractionBits + (fmt.fieldSignificand m + 1) = m + 1 :=
    congrArg (· + 1) (fmt.field_eq m)
  rw [← hnext, value_of_le (Nat.succ_le_of_lt hfits.lt) (hfits.full.imp_right Nat.le_succ_of_le),
    value, fieldUnit]
  push_cast
  ring

theorem midpoint_eq (fmt : Format) (m : Nat) :
    fmt.midpoint m = fmt.value m + fmt.fieldUnit m / 2 := by
  rw [midpoint, value_succ]
  ring

theorem value_lt_midpoint (fmt : Format) (m : Nat) : fmt.value m < fmt.midpoint m := by
  have := fmt.fieldUnit_pos m
  rw [midpoint_eq]
  linarith

theorem midpoint_lt_value_succ (fmt : Format) (m : Nat) : fmt.midpoint m < fmt.value (m + 1) := by
  have := fmt.fieldUnit_pos m
  rw [midpoint_eq, value_succ]
  linarith

theorem midpoint_pos (fmt : Format) (m : Nat) : 0 < fmt.midpoint m :=
  (fmt.value_nonneg m).trans_lt (fmt.value_lt_midpoint m)

/-! ## Rounding to a field -/

/-- Rounding takes the rational to the field or below it. -/
def RoundsDown (fmt : Format) (m : Nat) (q : ℚ) : Prop :=
  q < fmt.midpoint m ∨ (q = fmt.midpoint m ∧ m % 2 = 0)

theorem RoundsDown.le (h : fmt.RoundsDown m q) : q ≤ fmt.midpoint m :=
  h.elim le_of_lt fun h => h.1.le

/-- The place of the last bit of a rounded quotient, and the powers of two around the quotient. -/
theorem exists_steps (fmt : Format) {num den : Nat} (hnum : 0 < num) (hden : 0 < den) :
    ∃ steps : Nat, fmt.unitExponent (floorLog2Div num den) = fmt.minExponent + steps ∧
      (steps = 0 ∨ (2 : ℚ) ^ (fmt.minExponent + steps + fmt.fractionBits) ≤ (num : ℚ) / den) ∧
      (num : ℚ) / den < 2 ^ (fmt.minExponent + steps + fmt.fractionBits + 1) := by
  obtain ⟨hlow, hhigh⟩ := floorLog2Div_bounds hnum hden
  generalize floorLog2Div num den = top at *
  refine ⟨(top - fmt.fractionBits - fmt.minExponent).toNat, ?_, ?_, ?_⟩
  · rw [unitExponent]
    omega
  · refine or_iff_not_imp_left.mpr fun hsteps => le_of_eq_of_le ?_ hlow
    congr 1
    omega
  · refine hhigh.trans_le (zpow_le_zpow_right₀ one_le_two ?_)
    omega

/-- Rounding at the place of the last bit, for a field with this exponent: both sides compare with
    the significand. -/
theorem roundsDown_of_fits {significand steps : Nat} (h : fmt.Fits significand steps) (q : ℚ) :
    fmt.RoundsDown (steps * 2 ^ fmt.fractionBits + significand)
        (q * 2 ^ (fmt.minExponent + steps)) ↔
      q < significand + 1 / 2 ∨ (q = significand + 1 / 2 ∧ significand % 2 = 0) := by
  have hpos : (0 : ℚ) < 2 ^ (fmt.minExponent + steps) := by positivity
  have hmid : fmt.midpoint (steps * 2 ^ fmt.fractionBits + significand) =
      (significand + 1 / 2) * 2 ^ (fmt.minExponent + steps) := by
    rw [midpoint_eq, h.value_eq, fieldUnit, h.field_eq.2]
    ring
  rw [RoundsDown, hmid, add_mod_two, mul_lt_mul_iff_left₀ hpos, mul_left_inj' hpos.ne']

/-- Rounding at the place of the last bit, for any field. -/
theorem add_le_iff_roundsDown {steps rounded : Nat} (hlow : steps = 0 ∨ 2 ^ fmt.fractionBits ≤ q)
    (hhigh : q < 2 ^ (fmt.fractionBits + 1)) (hround : IsNearestNat rounded q) :
    steps * 2 ^ fmt.fractionBits + rounded ≤ m ↔
      fmt.RoundsDown m (q * 2 ^ (fmt.minExponent + steps)) := by
  have hpos : (0 : ℚ) < 2 ^ (fmt.minExponent + steps) := by positivity
  rcases Nat.lt_or_ge m (steps * 2 ^ fmt.fractionBits + 2 ^ (fmt.fractionBits + 1)) with hlt | hge
  · by_cases hfull : steps = 0 ∨ steps * 2 ^ fmt.fractionBits + 2 ^ fmt.fractionBits ≤ m
    · -- the field has the exponent at which the quotient is rounded
      have hle : steps * 2 ^ fmt.fractionBits ≤ m := by
        rcases hfull with rfl | hle
        · rw [Nat.zero_mul]
          exact Nat.zero_le m
        · omega
      obtain ⟨n, rfl⟩ := Nat.exists_eq_add_of_le hle
      have hfits : fmt.Fits n steps := ⟨by omega, hfull.imp_right fun h => by omega⟩
      rw [Nat.add_le_add_iff_left, hround n, roundsDown_of_fits hfits]
    · -- the field has a smaller exponent
      obtain ⟨hsteps, hsmall⟩ := not_or.mp hfull
      have hlow := hlow.resolve_left hsteps
      have hrounded : 2 ^ fmt.fractionBits ≤ rounded := hround.le_of_ge (by exact_mod_cast hlow)
      refine iff_of_false (by omega) fun h => lt_irrefl (q * 2 ^ (fmt.minExponent + steps)) ?_
      calc q * 2 ^ (fmt.minExponent + steps) ≤ fmt.midpoint m := h.le
        _ < fmt.value (m + 1) := fmt.midpoint_lt_value_succ m
        _ ≤ fmt.value (steps * 2 ^ fmt.fractionBits + 2 ^ fmt.fractionBits) :=
            fmt.value_strictMono.monotone (by omega)
        _ = 2 ^ fmt.fractionBits * 2 ^ (fmt.minExponent + steps) := fmt.value_first steps
        _ ≤ q * 2 ^ (fmt.minExponent + steps) := by gcongr
  · -- the field has a larger exponent
    have hrounded : rounded ≤ 2 ^ (fmt.fractionBits + 1) :=
      hround.le_of_le (by exact_mod_cast hhigh.le)
    refine iff_of_true (by omega) (.inl ?_)
    calc q * 2 ^ (fmt.minExponent + steps)
        < 2 ^ (fmt.fractionBits + 1) * 2 ^ (fmt.minExponent + steps) := by gcongr
      _ = fmt.value (steps * 2 ^ fmt.fractionBits + 2 ^ (fmt.fractionBits + 1)) :=
          (fmt.value_carry steps).symm
      _ ≤ fmt.value m := fmt.value_strictMono.monotone hge
      _ < fmt.midpoint m := fmt.value_lt_midpoint m

/-- Rounding compares with midpoints. -/
theorem nearestMagnitude_le_iff (num : Nat) {den : Nat} (hden : 0 < den) (hm : m < fmt.infinity) :
    fmt.nearestMagnitude num den ≤ m ↔ fmt.RoundsDown m ((num : ℚ) / den) := by
  rcases Nat.eq_zero_or_pos num with rfl | hnum
  · have hzero : fmt.nearestMagnitude 0 den = 0 := if_pos rfl
    rw [hzero, Nat.cast_zero, zero_div]
    exact iff_of_true (Nat.zero_le m) (.inl (fmt.midpoint_pos m))
  obtain ⟨steps, hunit, hlow, hhigh⟩ := fmt.exists_steps hnum hden
  have hpos : (0 : ℚ) < 2 ^ (fmt.minExponent + steps) := by positivity
  have hpow : (2 : ℚ) ^ (fmt.minExponent + steps + fmt.fractionBits) =
      2 ^ fmt.fractionBits * 2 ^ (fmt.minExponent + steps) := by
    rw [zpow_add₀ two_ne_zero, zpow_natCast, mul_comm]
  rw [hpow, ← scaled_quotient num hden (fmt.minExponent + steps), mul_le_mul_iff_left₀ hpos] at hlow
  rw [zpow_add_one₀ two_ne_zero, hpow, mul_right_comm, ← pow_succ,
    ← scaled_quotient num hden (fmt.minExponent + steps), mul_lt_mul_iff_left₀ hpos] at hhigh
  rw [nearestMagnitude_of_unit hnum hunit, min_le_iff, or_iff_right (Nat.not_le.mpr hm),
    ← scaled_quotient num hden (fmt.minExponent + steps)]
  exact add_le_iff_roundsDown hlow hhigh
    (divNearestEven_isNearestNat _ (Nat.mul_pos hden (Nat.two_pow_pos _)))

/-! ## The nearest field -/

/-- The field that a nonnegative rational is rounded to. -/
def nearestField (fmt : Format) (q : ℚ) : Nat := fmt.nearestMagnitude q.num.toNat q.den

theorem nearestField_le_infinity (fmt : Format) (q : ℚ) : fmt.nearestField q ≤ fmt.infinity :=
  fmt.nearestMagnitude_le_infinity _ _

theorem toNat_num_div_den (hq : 0 ≤ q) : ((q.num.toNat : Nat) : ℚ) / q.den = q := by
  have hnum : ((q.num.toNat : Nat) : ℤ) = q.num := Int.toNat_of_nonneg (Rat.num_nonneg.mpr hq)
  have hcast : ((q.num.toNat : Nat) : ℚ) = (q.num : ℚ) := by exact_mod_cast hnum
  rw [hcast, Rat.num_div_den]

theorem nearestField_le_iff (hq : 0 ≤ q) (hm : m < fmt.infinity) :
    fmt.nearestField q ≤ m ↔ fmt.RoundsDown m q := by
  rw [nearestField, nearestMagnitude_le_iff _ q.den_pos hm, toNat_num_div_den hq]

/-- What is compared with all finite fields in the same way is the same. -/
theorem eq_of_le_iff (hm : m ≤ fmt.infinity) (hn : n ≤ fmt.infinity)
    (h : ∀ k < fmt.infinity, m ≤ k ↔ n ≤ k) : m = n := by
  rcases Nat.lt_trichotomy m n with hlt | heq | hgt
  · have := (h m (by omega)).mp le_rfl
    omega
  · exact heq
  · have := (h n (by omega)).mpr le_rfl
    omega

theorem nearestMagnitude_eq_nearestField (num : Nat) {den : Nat} (hden : 0 < den) :
    fmt.nearestMagnitude num den = fmt.nearestField ((num : ℚ) / den) := by
  have hq : (0 : ℚ) ≤ (num : ℚ) / den := by positivity
  refine eq_of_le_iff (fmt.nearestMagnitude_le_infinity _ _) (fmt.nearestField_le_infinity _) ?_
  intro k hk
  rw [nearestMagnitude_le_iff num hden hk, nearestField_le_iff hq hk]

theorem RoundsDown.mono {p : ℚ} (h : fmt.RoundsDown m q) (hp : p ≤ q) : fmt.RoundsDown m p := by
  rcases hp.lt_or_eq with hlt | rfl
  · exact .inl (hlt.trans_le h.le)
  · exact h

theorem nearestField_mono {p : ℚ} (hp : 0 ≤ p) (hpq : p ≤ q) :
    fmt.nearestField p ≤ fmt.nearestField q := by
  rcases Nat.lt_or_eq_of_le (fmt.nearestField_le_infinity q) with hlt | heq
  · have hdown := (nearestField_le_iff (hp.trans hpq) hlt).mp le_rfl
    exact (nearestField_le_iff hp hlt).mpr (hdown.mono hpq)
  · rw [heq]
    exact fmt.nearestField_le_infinity p

/-- The number of a field is rounded to the field. -/
theorem nearestField_value (hm : m ≤ fmt.infinity) : fmt.nearestField (fmt.value m) = m := by
  refine eq_of_le_iff (fmt.nearestField_le_infinity _) hm fun k hk => ?_
  rw [nearestField_le_iff (fmt.value_nonneg m) hk]
  constructor
  · intro h
    by_contra hlt
    have hle : fmt.value (k + 1) ≤ fmt.value m := fmt.value_strictMono.monotone (by omega)
    exact absurd h.le (not_le.mpr ((fmt.midpoint_lt_value_succ k).trans_le hle))
  · intro h
    exact .inl ((fmt.value_strictMono.monotone h).trans_lt (fmt.value_lt_midpoint k))

@[simp] theorem nearestField_zero (fmt : Format) : fmt.nearestField 0 = 0 := by
  rw [← fmt.value_zero, nearestField_value (Nat.zero_le _)]

theorem infinity_pos (fmt : Format) : 0 < fmt.infinity := by
  have hexponent := Nat.one_lt_two_pow fmt.exponentBits_pos.ne'
  refine Nat.mul_pos ?_ (Nat.two_pow_pos _)
  rw [Nat.pow_eq]
  omega

theorem infinity_mod_two (fmt : Format) : fmt.infinity % 2 = 0 :=
  fmt.add_mod_two (2 ^ fmt.exponentBits - 1) 0

/-- The field above the largest number is odd, so a tie there goes up to infinity. -/
theorem nearestField_lt_infinity_iff (hq : 0 ≤ q) :
    fmt.nearestField q < fmt.infinity ↔ q < fmt.overflow := by
  have hpos := fmt.infinity_pos
  have heven := fmt.infinity_mod_two
  have hlast : fmt.infinity - 1 < fmt.infinity := by omega
  have hodd : (fmt.infinity - 1) % 2 ≠ 0 := by omega
  have hiff := nearestField_le_iff hq hlast
  rw [RoundsDown, or_iff_left fun h => hodd h.2] at hiff
  rw [overflow, ← hiff]
  omega

/-! ## Distances -/

/-- Up to the midpoint above it, a field is as near as all fields above. -/
theorem abs_sub_le_of_le_midpoint (hq : q ≤ fmt.midpoint m) (hmn : m < n) :
    |q - fmt.value m| ≤ |q - fmt.value n| ∧
      (|q - fmt.value n| = |q - fmt.value m| → q = fmt.midpoint m) := by
  have hnext : fmt.value (m + 1) ≤ fmt.value n := fmt.value_strictMono.monotone hmn
  have hstep := fmt.fieldUnit_pos m
  rw [value_succ] at hnext
  rw [midpoint_eq] at hq ⊢
  have hn : |q - fmt.value n| = fmt.value n - q := by
    rw [abs_sub_comm]
    exact abs_of_nonneg (by linarith)
  rw [hn]
  rcases le_total q (fmt.value m) with hle | hle
  · rw [abs_of_nonpos (by linarith)]
    exact ⟨by linarith, fun h => by linarith⟩
  · rw [abs_of_nonneg (by linarith)]
    exact ⟨by linarith, fun h => by linarith⟩

/-- From the midpoint below it on, a field is as near as all fields below. -/
theorem abs_sub_le_of_midpoint_le (hq : fmt.midpoint m ≤ q) (hnm : n ≤ m) :
    |q - fmt.value (m + 1)| ≤ |q - fmt.value n| ∧
      (|q - fmt.value n| = |q - fmt.value (m + 1)| → q = fmt.midpoint m) := by
  have hnext : fmt.value n ≤ fmt.value m := fmt.value_strictMono.monotone hnm
  have hstep := fmt.fieldUnit_pos m
  rw [value_succ]
  rw [midpoint_eq] at hq ⊢
  have hn : |q - fmt.value n| = q - fmt.value n := abs_of_nonneg (by linarith)
  rw [hn]
  rcases le_total q (fmt.value m + fmt.fieldUnit m) with hle | hle
  · rw [abs_of_nonpos (by linarith)]
    exact ⟨by linarith, fun h => by linarith⟩
  · rw [abs_of_nonneg (by linarith)]
    exact ⟨by linarith, fun h => by linarith⟩

/-- No finite field is nearer to the rational, and if another one is as near, then the field is
    even. -/
def IsClosest (fmt : Format) (m : Nat) (q : ℚ) : Prop :=
  ∀ n < fmt.infinity, |q - fmt.value m| ≤ |q - fmt.value n| ∧
    (|q - fmt.value n| = |q - fmt.value m| → n ≠ m → m % 2 = 0)

/-- Rounding gives the closest field. -/
theorem isClosest_nearestField (hq : 0 ≤ q) (hlt : fmt.nearestField q < fmt.infinity) :
    fmt.IsClosest (fmt.nearestField q) q := by
  have hdown := (nearestField_le_iff hq hlt).mp le_rfl
  have hnot (k : Nat) (hk : k + 1 = fmt.nearestField q) : ¬ fmt.RoundsDown k q := by
    rw [← nearestField_le_iff hq (by omega)]
    omega
  generalize fmt.nearestField q = m at *
  intro n hn
  rcases Nat.lt_trichotomy n m with hnm | rfl | hmn
  · obtain ⟨k, rfl⟩ := Nat.exists_eq_add_one_of_ne_zero (Nat.ne_of_gt (Nat.zero_lt_of_lt hnm))
    obtain ⟨habove, hodd⟩ := not_or.mp (hnot k rfl)
    obtain ⟨hle, htie⟩ := abs_sub_le_of_midpoint_le (not_lt.mp habove) (Nat.le_of_lt_succ hnm)
    refine ⟨hle, fun h _ => ?_⟩
    have := not_and.mp hodd (htie h)
    omega
  · exact ⟨le_rfl, fun _ h => absurd rfl h⟩
  · obtain ⟨hle, htie⟩ := abs_sub_le_of_le_midpoint hdown.le hmn
    refine ⟨hle, fun h _ => ?_⟩
    rcases hdown with hlt | ⟨-, heven⟩
    · exact absurd (htie h) hlt.ne
    · exact heven

/-- The closest field is the one that rounding gives: its neighbours tell it from all others. -/
theorem IsClosest.nearestField_eq (h : fmt.IsClosest m q) (hq : 0 ≤ q) (hm : m < fmt.infinity)
    (hlt : q < fmt.overflow) : fmt.nearestField q = m := by
  have hle : fmt.nearestField q ≤ m := by
    rw [nearestField_le_iff hq hm]
    by_contra hup
    obtain ⟨habove, hodd⟩ := not_or.mp hup
    rcases Nat.lt_or_ge (m + 1) fmt.infinity with hnext | hlast
    · obtain ⟨hnear, htie⟩ := h (m + 1) hnext
      obtain ⟨hnear', htie'⟩ := abs_sub_le_of_midpoint_le (not_lt.mp habove) le_rfl
      have hsame := hnear.antisymm hnear'
      exact hodd ⟨htie' hsame, htie hsame.symm (Nat.succ_ne_self m)⟩
    · obtain rfl : m = fmt.infinity - 1 := by omega
      exact habove hlt
  rcases Nat.eq_zero_or_pos m with rfl | hpos
  · omega
  · obtain ⟨k, rfl⟩ := Nat.exists_eq_add_one_of_ne_zero hpos.ne'
    refine Nat.le_antisymm hle (Nat.succ_le_of_lt (Nat.lt_of_not_le fun hk => ?_))
    have hdown := (nearestField_le_iff hq (by omega)).mp hk
    obtain ⟨hnear, htie⟩ := h k (by omega)
    obtain ⟨hnear', htie'⟩ := abs_sub_le_of_le_midpoint hdown.le (Nat.lt_succ_self k)
    have hsame := hnear.antisymm hnear'
    have heven := htie hsame.symm (Nat.succ_ne_self k).symm
    rcases hdown with hbelow | ⟨-, heven'⟩
    · exact absurd (htie' hsame) hbelow.ne
    · omega

end Format

/-! ## Rounding with a sign -/

namespace Binary

variable {fmt : Format} {q : ℚ} {x y : Binary fmt}

theorem value_magnitude (x : Binary fmt) :
    fmt.value x.magnitude.val = x.significand * 2 ^ x.exponent := by
  rw [x.magnitude_eq, x.fits.value_eq, exponent_eq]

theorem toRat_eq_value (x : Binary fmt) :
    x.toRat = if x.negative then -fmt.value x.magnitude.val else fmt.value x.magnitude.val := by
  rw [toRat_eq, value_magnitude]
  split <;> ring

theorem abs_toRat_eq_value (x : Binary fmt) : |x.toRat| = fmt.value x.magnitude.val := by
  have hnonneg := fmt.value_nonneg x.magnitude.val
  rw [toRat_eq_value]
  split
  · rw [abs_neg, abs_of_nonneg hnonneg]
  · exact abs_of_nonneg hnonneg

theorem significand_mod_two (x : Binary fmt) : x.significand % 2 = x.magnitude.val % 2 := by
  rw [x.magnitude_eq, fmt.add_mod_two]

/-- The number is finite, no finite number is nearer to the rational, and if another one is as near,
    then the significand is even. -/
def Closest (y : Binary fmt) (q : ℚ) : Prop :=
  y.isFinite = true ∧ ∀ z : Binary fmt, z.isFinite = true →
    |q - y.toRat| ≤ |q - z.toRat| ∧
      (|q - z.toRat| = |q - y.toRat| → z.toRat ≠ y.toRat → y.significand % 2 = 0)

/-- The number is the rational, rounded: an infinity of its sign from where the format overflows,
    and otherwise the closest number. -/
def IsRoundingOf (y : Binary fmt) (q : ℚ) : Prop :=
  if fmt.overflow ≤ |q| then y.isInfinite = true ∧ (y.negative = true ↔ q < 0) else y.Closest q

/-- A rational and a number on one side of zero are as far from each other as their magnitudes. -/
theorem abs_sub_toRat (h : 0 ≤ q * x.toRat) :
    |q - x.toRat| = |(|q|) - fmt.value x.magnitude.val| := by
  have hproduct : |q| * |x.toRat| = q * x.toRat := by rw [← abs_mul, abs_of_nonneg h]
  rw [← abs_toRat_eq_value, ← sq_eq_sq_iff_abs_eq_abs]
  linear_combination -(sq_abs q) - sq_abs x.toRat + 2 * hproduct

theorem toRat_eq_zero_iff : x.toRat = 0 ↔ x.magnitude.val = 0 := by
  rw [← abs_eq_zero, abs_toRat_eq_value, ← fmt.value_zero, fmt.value_strictMono.injective.eq_iff]

/-- A number that is not zero has the sign of its sign bit. -/
theorem negative_eq_of_toRat (h : 0 ≤ q * x.toRat) (hq : q ≠ 0) (hx : x.magnitude.val ≠ 0) :
    x.negative = decide (q < 0) := by
  have hpos : 0 < fmt.value x.magnitude.val := by
    rw [← fmt.value_zero]
    exact fmt.value_strictMono (Nat.pos_of_ne_zero hx)
  rw [toRat_eq_value] at h
  cases hsign : x.negative with
  | false =>
      rw [hsign, if_neg Bool.false_ne_true, mul_nonneg_iff_of_pos_right hpos] at h
      rw [decide_eq_false (not_lt.mpr h)]
  | true =>
      rw [hsign, if_pos rfl, mul_neg, neg_nonneg] at h
      rw [decide_eq_true (lt_of_le_of_ne (nonpos_of_mul_nonpos_left h hpos) hq)]

theorem mul_toRat_nonneg (h : x.magnitude.val ≠ 0 → x.negative = decide (q < 0)) :
    0 ≤ q * x.toRat := by
  by_cases hx : x.magnitude.val = 0
  · rw [toRat_eq_zero_iff.mpr hx, mul_zero]
  have hnonneg := fmt.value_nonneg x.magnitude.val
  rw [toRat_eq_value, h hx]
  by_cases hq : q < 0
  · rw [decide_eq_true hq, if_pos rfl, mul_neg, neg_nonneg]
    exact mul_nonpos_of_nonpos_of_nonneg hq.le hnonneg
  · rw [decide_eq_false hq, if_neg Bool.false_ne_true]
    exact mul_nonneg (not_lt.mp hq) hnonneg

theorem Closest.mul_toRat_nonneg (h : y.Closest q) : 0 ≤ q * y.toRat := by
  have hle := (h.2 y.neg h.1).1
  rw [toRat_neg, sub_neg_eq_add, ← sq_le_sq] at hle
  linarith

/-- Of numbers without their signs, the closest one is closest to the rational without its sign. -/
theorem Closest.isClosest (h : y.Closest q) : fmt.IsClosest y.magnitude.val |q| := by
  intro n hn
  -- compare with the number of the field that has the sign of the rational
  let z : Binary fmt := ⟨decide (q < 0), ⟨n, hn.trans fmt.infinity_lt_magnitudes⟩⟩
  obtain ⟨hle, htie⟩ := h.2 z (decide_eq_true hn)
  have hz : |q - z.toRat| = |(|q|) - fmt.value n| :=
    abs_sub_toRat (Binary.mul_toRat_nonneg fun _ => rfl)
  rw [hz, abs_sub_toRat h.mul_toRat_nonneg] at hle htie
  refine ⟨hle, fun htied hne => ?_⟩
  rw [← significand_mod_two]
  refine htie htied fun hsame => hne ?_
  have hvalue := congrArg (|·|) hsame
  simp only [abs_toRat_eq_value] at hvalue
  exact fmt.value_strictMono.injective hvalue

/-- And the other way round, if the number has the sign of the rational. -/
theorem closest_of_isClosest (hfin : y.isFinite = true) (h : fmt.IsClosest y.magnitude.val |q|)
    (hsign : 0 ≤ q * y.toRat) (hzero : q = 0 → y.toRat = 0) : y.Closest q := by
  refine ⟨hfin, fun z hz => ?_⟩
  obtain ⟨hle, htie⟩ := h z.magnitude.val (of_decide_eq_true hz)
  have hreverse : |(|q|) - fmt.value z.magnitude.val| ≤ |q - z.toRat| := by
    rw [← abs_toRat_eq_value]
    exact abs_abs_sub_abs_le_abs_sub q z.toRat
  rw [abs_sub_toRat hsign]
  refine ⟨hle.trans hreverse, fun htied hne => ?_⟩
  rw [significand_mod_two]
  refine htie (le_antisymm (hreverse.trans htied.le) hle) fun hsame => ?_
  -- numbers of one magnitude on both sides are equally far from zero only
  have habs : |z.toRat| = |y.toRat| := by rw [abs_toRat_eq_value, abs_toRat_eq_value, hsame]
  have hopposite : z.toRat = -y.toRat := (abs_eq_abs.mp habs).resolve_left hne
  rw [← abs_sub_toRat hsign, hopposite, sub_neg_eq_add, ← sq_eq_sq_iff_abs_eq_abs] at htied
  have hproduct : q * y.toRat = 0 := by linarith
  rcases mul_eq_zero.mp hproduct with hq | hy
  · exact hne (by rw [hopposite, hzero hq, neg_zero])
  · exact hne (by rw [hopposite, hy, neg_zero])

/-- What a rational is rounded to, by its field and its sign; a zero has either sign. -/
theorem isRoundingOf_iff : y.IsRoundingOf q ↔ y.magnitude.val = fmt.nearestField |q| ∧
    (y.magnitude.val ≠ 0 → y.negative = decide (q < 0)) := by
  have hinfinite : fmt.nearestField |q| < fmt.infinity ↔ |q| < fmt.overflow :=
    Format.nearestField_lt_infinity_iff (abs_nonneg q)
  by_cases hover : fmt.overflow ≤ |q|
  · have hfield : fmt.nearestField |q| = fmt.infinity :=
      Nat.le_antisymm (fmt.nearestField_le_infinity _)
        (Nat.not_lt.mp fun h => not_lt.mpr hover (hinfinite.mp h))
    have hpos := fmt.infinity_pos
    rw [IsRoundingOf, if_pos hover, hfield, isInfinite, beq_iff_eq]
    refine and_congr_right fun hy => ?_
    rw [forall_prop_of_true (by omega)]
    by_cases hq : q < 0 <;> simp [hq]
  · rw [not_le] at hover
    have hlt := hinfinite.mpr hover
    rw [IsRoundingOf, if_neg (not_le.mpr hover)]
    constructor
    · intro h
      have hfield := h.isClosest.nearestField_eq (abs_nonneg q) (of_decide_eq_true h.1) hover
      refine ⟨hfield.symm, fun hy => negative_eq_of_toRat h.mul_toRat_nonneg ?_ hy⟩
      rintro rfl
      rw [abs_zero, Format.nearestField_zero] at hfield
      exact hy hfield.symm
    · rintro ⟨hfield, hsign⟩
      refine closest_of_isClosest (decide_eq_true (hfield ▸ hlt)) ?_
        (Binary.mul_toRat_nonneg hsign) ?_
      · rw [hfield]
        exact Format.isClosest_nearestField (abs_nonneg q) hlt
      · rintro rfl
        rw [toRat_eq_zero_iff, hfield, abs_zero, Format.nearestField_zero]

end Binary

end ScalarLang
