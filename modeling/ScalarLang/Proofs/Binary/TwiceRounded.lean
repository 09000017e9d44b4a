import Mathlib
import ScalarLang.Proofs.Binary.Half
import ScalarLang.Proofs.Semantics.Evaluator

/-
  Rounding twice.
  A format that has the midpoints of another one tells on which side of a midpoint a rational is,
  unless it rounds the rational to the midpoint. So rounding to the finer format first goes wrong
  only there, and only if the tie is then broken the other way. Arithmetic on halves in single
  precision never gets there: sums and products are exact in single precision or close to one of
  the terms, and a quotient of small significands is not that near to a midpoint without being it.
-/

namespace ScalarLang

namespace Format

variable {fine coarse fmt : Format} {m k n : Nat} {q : ℚ}

/-! ## Through a finer format -/

/-- The format has the numbers of another one and the midpoints between them: it has more bits,
    starts lower and goes as high. -/
structure Refines (fine coarse : Format) : Prop where
  bits : coarse.fractionBits < fine.fractionBits
  low : fine.minExponent < coarse.minExponent
  high : 2 ^ coarse.exponentBits + (coarse.minExponent - fine.minExponent).toNat <
    2 ^ fine.exponentBits

theorem single_refines_half : single.Refines half := ⟨by decide, by decide, by decide⟩
theorem double_refines_half : double.Refines half := ⟨by decide, by decide, by decide⟩

theorem fieldSteps_add_two_le (h : m < fmt.infinity) :
    fmt.fieldSteps m + 2 ≤ 2 ^ fmt.exponentBits := by
  have hlt : m < (2 ^ fmt.exponentBits - 1) * 2 ^ fmt.fractionBits := h
  have hexponent := Nat.one_lt_two_pow fmt.exponentBits_pos.ne'
  have hdiv := Nat.div_lt_of_lt_mul ((Nat.mul_comm _ _).trans_gt hlt)
  rw [fieldSteps]
  omega

/-- A midpoint has one bit more than the numbers around it. -/
theorem midpoint_eq_mul (fmt : Format) (m : Nat) : fmt.midpoint m =
    (2 * fmt.fieldSignificand m + 1 : Nat) * 2 ^ (fmt.minExponent + fmt.fieldSteps m - 1) := by
  rw [midpoint_eq, value, fieldUnit, zpow_sub_one₀ two_ne_zero]
  push_cast
  ring

theorem Refines.exists_midpoint (h : fine.Refines coarse) (hm : m < coarse.infinity) :
    ∃ n < fine.infinity, fine.value n = coarse.midpoint m := by
  have hbits := h.bits
  have hlow := h.low
  have hhigh := h.high
  have hsteps := fieldSteps_add_two_le hm
  have hsmall : 2 * coarse.fieldSignificand m + 1 < 2 ^ (fine.fractionBits + 1) := by
    have hlt := (coarse.fits_field m).lt
    have hpow : 2 ^ (coarse.fractionBits + 2) ≤ 2 ^ (fine.fractionBits + 1) :=
      Nat.pow_le_pow_right Nat.two_pos (by omega)
    rw [pow_succ] at hpow
    omega
  set shift := (coarse.minExponent - fine.minExponent).toNat with hshift
  obtain ⟨n, hn, hvalue⟩ :=
    fine.exists_value (k := coarse.fieldSteps m + shift - 1) hsmall (by omega)
  refine ⟨n, hn, ?_⟩
  have hexponent : fine.minExponent + ((coarse.fieldSteps m + shift - 1 : Nat) : ℤ) =
      coarse.minExponent + coarse.fieldSteps m - 1 := by omega
  rw [hvalue, hexponent, midpoint_eq_mul]

/-- Rounding does not pass a number of the format. -/
theorem value_nearestField_le (hq : 0 ≤ q) (hn : n < fmt.infinity) (h : q ≤ fmt.value n) :
    fmt.value (fmt.nearestField q) ≤ fmt.value n := by
  refine fmt.value_strictMono.monotone ?_
  calc fmt.nearestField q ≤ fmt.nearestField (fmt.value n) := nearestField_mono hq h
    _ = n := nearestField_value hn.le

theorem le_value_nearestField (hn : n < fmt.infinity) (h : fmt.value n ≤ q) :
    fmt.value n ≤ fmt.value (fmt.nearestField q) := by
  refine fmt.value_strictMono.monotone ?_
  calc n = fmt.nearestField (fmt.value n) := (nearestField_value hn.le).symm
    _ ≤ fmt.nearestField q := nearestField_mono (fmt.value_nonneg n) h

/-- Rounding to the finer format first does not change the result. -/
def RoundsThrough (coarse fine : Format) (q : ℚ) : Prop :=
  coarse.nearestField (fine.value (fine.nearestField q)) = coarse.nearestField q

/-- This is so unless the finer format rounds to a midpoint a rational that is above it, where the
    tie goes down, or below it, where the tie goes up. -/
theorem Refines.roundsThrough_iff (h : fine.Refines coarse) (hq : 0 ≤ q) :
    coarse.RoundsThrough fine q ↔
      ∀ m < coarse.infinity, fine.value (fine.nearestField q) = coarse.midpoint m →
        (coarse.midpoint m < q → m % 2 = 1) ∧ (q < coarse.midpoint m → m % 2 = 0) := by
  set s := fine.value (fine.nearestField q)
  have hs : 0 ≤ s := fine.value_nonneg _
  constructor
  · intro heq m hm htie
    have hdown : coarse.RoundsDown m s ↔ coarse.RoundsDown m q := by
      rw [← nearestField_le_iff hs hm, ← nearestField_le_iff hq hm, heq]
    constructor
    · intro hgt
      have hnot := mt hdown.mp fun hle => hgt.not_ge hle.le
      have := not_and.mp (not_or.mp hnot).2 htie
      omega
    · intro hlt
      exact (hdown.mpr (.inl hlt)).elim (fun h => absurd htie h.ne) And.right
  · intro hties
    refine eq_of_le_iff (coarse.nearestField_le_infinity _) (coarse.nearestField_le_infinity _) ?_
    intro m hm
    rw [nearestField_le_iff hs hm, nearestField_le_iff hq hm]
    obtain ⟨n, hn, hmid⟩ := h.exists_midpoint hm
    rcases lt_trichotomy q (coarse.midpoint m) with hlt | heq | hgt
    · -- the finer rounding stays on this side or gives the midpoint
      have hle : s ≤ coarse.midpoint m := hmid ▸ value_nearestField_le hq hn (hmid ▸ hlt.le)
      refine iff_of_true ?_ (.inl hlt)
      rcases hle.lt_or_eq with hlt' | htie
      · exact .inl hlt'
      · exact .inr ⟨htie, (hties m hm htie).2 hlt⟩
    · have hsame : s = q := by
        have hfield : fine.nearestField q = n := by rw [heq, ← hmid, nearestField_value hn.le]
        show fine.value (fine.nearestField q) = q
        rw [hfield, hmid, heq]
      rw [hsame]
    · have hge : coarse.midpoint m ≤ s := hmid ▸ le_value_nearestField hn (hmid ▸ hgt.le)
      refine iff_of_false (fun hdown => ?_) fun hdown => hgt.not_ge hdown.le
      rcases hdown with hlt | ⟨htie, heven⟩
      · exact hlt.not_ge hge
      · have := (hties m hm htie).1 hgt
        omega

theorem roundsThrough_of_exact (h : fine.value (fine.nearestField q) = q) :
    coarse.RoundsThrough fine q := by
  rw [RoundsThrough, h]

theorem value_nearestField_number (hm : m < 2 ^ (fmt.fractionBits + 1))
    (hk : k + 3 ≤ 2 ^ fmt.exponentBits) (hq : q = m * 2 ^ (fmt.minExponent + k)) :
    fmt.value (fmt.nearestField q) = q := by
  obtain ⟨n, hn, hvalue⟩ := fmt.exists_value hm hk
  rw [hq, ← hvalue, nearestField_value hn.le]

/-! ## How far rounding goes -/

theorem fieldUnit_mono (fmt : Format) : Monotone fmt.fieldUnit := by
  intro m n h
  have hsteps : fmt.fieldSteps m ≤ fmt.fieldSteps n :=
    Nat.sub_le_sub_right (Nat.div_le_div_right h) 1
  exact zpow_le_zpow_right₀ one_le_two (by omega)

/-- Rounding goes at most half a unit of the result. -/
theorem abs_sub_nearestField_le (hq : 0 ≤ q) (hlt : fmt.nearestField q < fmt.infinity) :
    |q - fmt.value (fmt.nearestField q)| ≤ fmt.fieldUnit (fmt.nearestField q) / 2 := by
  have hdown := (nearestField_le_iff hq hlt).mp le_rfl
  have hnot (k : Nat) (hk : k + 1 = fmt.nearestField q) : ¬ fmt.RoundsDown k q := by
    rw [← nearestField_le_iff hq (by omega)]
    omega
  generalize fmt.nearestField q = n at *
  have hup := hdown.le
  rw [midpoint_eq] at hup
  rw [abs_le]
  refine ⟨?_, by linarith⟩
  cases n with
  | zero =>
      have hunit := fmt.fieldUnit_pos 0
      rw [value_zero]
      linarith
  | succ k =>
      have hbelow := not_lt.mp (not_or.mp (hnot k rfl)).1
      have hunit := fmt.fieldUnit_mono (Nat.le_succ k)
      rw [midpoint_eq] at hbelow
      rw [value_succ]
      linarith

/-- A number that is not among the smallest ones has a full significand. -/
theorem fieldUnit_mul_le (h : 2 ^ fmt.fractionBits ≤ m) :
    fmt.fieldUnit m * 2 ^ fmt.fractionBits ≤ fmt.value m := by
  have hfield := fmt.field_eq m
  have hfull : 2 ^ fmt.fractionBits ≤ fmt.fieldSignificand m := by
    rcases (fmt.fits_field m).full with hzero | hfull
    · rw [hzero] at hfield
      omega
    · exact hfull
  have hfull' : (2 : ℚ) ^ fmt.fractionBits ≤ fmt.fieldSignificand m := by exact_mod_cast hfull
  rw [value, mul_comm]
  exact mul_le_mul_of_nonneg_right hfull' (fmt.fieldUnit_pos m).le

/-- The number that rounding gives is near, relative to its size. -/
theorem abs_sub_nearestField_mul_le (fmt : Format) (hq : 0 ≤ q)
    (hlt : fmt.nearestField q < fmt.infinity)
    (hnormal : 2 ^ fmt.fractionBits ≤ fmt.nearestField q) :
    |q - fmt.value (fmt.nearestField q)| * 2 ^ (fmt.fractionBits + 1) ≤
      fmt.value (fmt.nearestField q) := by
  have hpow : (0 : ℚ) < 2 ^ fmt.fractionBits := by positivity
  calc |q - fmt.value (fmt.nearestField q)| * 2 ^ (fmt.fractionBits + 1)
      ≤ fmt.fieldUnit (fmt.nearestField q) / 2 * 2 ^ (fmt.fractionBits + 1) := by
        gcongr
        exact abs_sub_nearestField_le hq hlt
    _ = fmt.fieldUnit (fmt.nearestField q) * 2 ^ fmt.fractionBits := by ring
    _ ≤ fmt.value (fmt.nearestField q) := fieldUnit_mul_le hnormal

end Format

/-- Two different multiples of powers of two are apart by the smaller power. -/
theorem two_zpow_min_le {a b : Nat} {j k : ℤ} (h : (a : ℚ) * 2 ^ j ≠ b * 2 ^ k) :
    (2 : ℚ) ^ min j k ≤ |(a : ℚ) * 2 ^ j - b * 2 ^ k| := by
  obtain ⟨u, hu⟩ := Int.eq_ofNat_of_zero_le (sub_nonneg.mpr (min_le_left j k))
  obtain ⟨v, hv⟩ := Int.eq_ofNat_of_zero_le (sub_nonneg.mpr (min_le_right j k))
  generalize min j k = least at *
  obtain rfl : j = least + u := by omega
  obtain rfl : k = least + v := by omega
  have hpow : (0 : ℚ) < 2 ^ least := by positivity
  have hdiff : (a : ℚ) * 2 ^ (least + u) - b * 2 ^ (least + v) =
      ((a * 2 ^ u - b * 2 ^ v : ℤ) : ℚ) * 2 ^ least := by
    rw [zpow_add₀ two_ne_zero, zpow_add₀ two_ne_zero, zpow_natCast, zpow_natCast]
    push_cast
    ring
  have hne : (a * 2 ^ u - b * 2 ^ v : ℤ) ≠ 0 := by
    intro hzero
    rw [hzero, Int.cast_zero, zero_mul] at hdiff
    exact h (sub_eq_zero.mp hdiff)
  have hone : (1 : ℚ) ≤ |((a * 2 ^ u - b * 2 ^ v : ℤ) : ℚ)| := by
    exact_mod_cast Int.one_le_abs hne
  rw [hdiff, abs_mul, abs_of_pos hpow]
  exact le_mul_of_one_le_left hpow.le hone

/-- Multiples of powers of two by small factors are equal if they are very near. -/
theorem mul_zpow_eq_of_near {a b : Nat} {j k : ℤ} (ha : a < 2 ^ 23) (hb : b < 2 ^ 24)
    (h : |(a : ℚ) * 2 ^ j - b * 2 ^ k| * 2 ^ 24 ≤ b * 2 ^ k) : (a : ℚ) * 2 ^ j = b * 2 ^ k := by
  by_contra hne
  have hapart := two_zpow_min_le hne
  have ha' : (a : ℚ) < 2 ^ 23 := by exact_mod_cast ha
  have hb' : (b : ℚ) < 2 ^ 24 := by exact_mod_cast hb
  have hj : (0 : ℚ) < 2 ^ j := by positivity
  have hk : (0 : ℚ) < 2 ^ k := by positivity
  rcases min_choice j k with hmin | hmin
  · -- then the multiples are within a factor of two
    rw [hmin] at hapart
    have hside := neg_abs_le ((a : ℚ) * 2 ^ j - b * 2 ^ k)
    nlinarith
  · rw [hmin] at hapart
    nlinarith

namespace Binary

variable {fine coarse fmt : Format} {q : ℚ}

/-! ## Conversion of what is rounded -/

theorem convert_magnitude (h : fine.Refines coarse) {s : Binary fine} (hs : s.isNaN = false) :
    (s.convert : Binary coarse).magnitude.val =
      coarse.nearestField (fine.value s.magnitude.val) := by
  by_cases hinf : s.isInfinite = true
  · -- the power of two that infinity stands for is past every midpoint
    have hpos := coarse.infinity_pos
    obtain ⟨n, hn, hmid⟩ := h.exists_midpoint (Nat.sub_one_lt hpos.ne')
    have hover : ¬ coarse.nearestField (fine.value s.magnitude.val) < coarse.infinity := by
      rw [Format.nearestField_lt_infinity_iff (fine.value_nonneg _), not_lt, Format.overflow,
        ← hmid, beq_iff_eq.mp hinf]
      exact (fine.value_strictMono hn).le
    rw [convert_of_isInfinite hinf]
    exact Nat.le_antisymm (Nat.not_lt.mp hover) (coarse.nearestField_le_infinity _)
  · have hfin : s.isFinite = true := isFinite_of_not (by simp [hs]) hinf
    rw [← abs_toRat_eq_value]
    exact (isRoundingOf_iff.mp (convert_isRoundingOf hfin)).1

theorem IsRoundingOf.isNaN_eq {y : Binary fmt} (h : y.IsRoundingOf q) : y.isNaN = false := by
  refine decide_eq_false (Nat.not_lt.mpr ?_)
  rw [(isRoundingOf_iff.mp h).1]
  exact fmt.nearestField_le_infinity _

/-- A rational that is rounded to the finer format is then rounded to what it is itself rounded to
    if its magnitude is. -/
theorem IsRoundingOf.convert_iff (h : fine.Refines coarse) {s : Binary fine}
    (hs : s.IsRoundingOf q) :
    (s.convert : Binary coarse).IsRoundingOf q ↔ coarse.RoundsThrough fine |q| := by
  obtain ⟨hfield, hsign⟩ := isRoundingOf_iff.mp hs
  have hmagnitude := convert_magnitude h hs.isNaN_eq
  rw [isRoundingOf_iff, hmagnitude, hfield, convert_negative]
  refine and_iff_left fun hne => hsign fun hzero => hne ?_
  rw [← hfield, hzero, fine.value_zero, Format.nearestField_zero]

theorem Attracts.nearestField_eq {x : Binary fmt} (hx : x.isFinite = true) (hq : 0 < q)
    (h : x.Attracts q) : fmt.nearestField q = x.magnitude.val := by
  have hpos : 0 < q.num.toNat := by
    have := Rat.num_pos.mpr hq
    omega
  exact Attracts.nearestMagnitude_eq hx hpos q.den_pos
    ((Format.toNat_num_div_den hq.le).symm ▸ h)

/-! ## Arithmetic on halves -/

section

variable {x y : Binary .half}

theorem half_significand_lt (x : Binary .half) : x.significand < 2 ^ 11 := x.fits.lt

theorem half_exponent (x : Binary .half) : x.exponent = -24 + x.steps := x.exponent_eq

theorem half_steps_le (hx : x.isFinite = true) : x.steps ≤ 30 :=
  Nat.le_of_lt_succ (Nat.lt_of_succ_lt_succ (steps_lt hx))

/-- A product has no more bits than a single. -/
theorem mul_roundsThrough (hx : x.isFinite = true) (hy : y.isFinite = true) :
    Format.half.RoundsThrough .single |x.toRat * y.toRat| := by
  have hxsteps := half_steps_le hx
  have hysteps := half_steps_le hy
  have hsmall : x.significand * y.significand < 2 ^ 24 :=
    (Nat.mul_lt_mul'' x.half_significand_lt y.half_significand_lt).trans_le (by decide)
  refine Format.roundsThrough_of_exact (Format.value_nearestField_number
    (k := 101 + x.steps + y.steps) hsmall (show 101 + x.steps + y.steps + 3 ≤ 256 by omega) ?_)
  have hexponent : Format.single.minExponent + ((101 + x.steps + y.steps : Nat) : ℤ) =
      x.exponent + y.exponent := by
    rw [half_exponent, half_exponent, show Format.single.minExponent = -149 from rfl]
    push_cast
    ring
  rw [abs_mul, abs_toRat_eq_value, abs_toRat_eq_value, value_magnitude, value_magnitude, hexponent,
    zpow_add₀ two_ne_zero]
  push_cast
  ring

theorem natAbs_signedSignificand (x : Binary fmt) : x.signedSignificand.natAbs = x.significand := by
  unfold signedSignificand
  split <;> simp

/-- A sum as a multiple of the smaller unit. -/
theorem toRat_add_toRat {x y : Binary fmt} (h : x.exponent ≤ y.exponent) :
    x.toRat + y.toRat = ((x.signedSignificand + y.signedSignificand *
      (2 ^ (y.exponent - x.exponent).toNat : Nat) : ℤ) : ℚ) * 2 ^ x.exponent := by
  rw [← y.toRat_at_scale h, toRat, ← add_mul, ← Int.cast_add]
  rfl

/-- Neither has a sum of terms whose exponents are near. -/
theorem add_roundsThrough_of_near (hx : x.isFinite = true) (hle : x.steps ≤ y.steps)
    (hnear : y.steps ≤ x.steps + 12) :
    Format.half.RoundsThrough .single |x.toRat + y.toRat| := by
  have hxsteps := half_steps_le hx
  have hxlt := x.half_significand_lt
  have hylt := y.half_significand_lt
  have hxexponent := x.half_exponent
  have hyexponent := y.half_exponent
  have hsum := toRat_add_toRat (x := x) (y := y) (by omega)
  have hgap : 2 ^ (y.exponent - x.exponent).toNat ≤ 2 ^ 12 :=
    Nat.pow_le_pow_right Nat.two_pos (by omega)
  generalize 2 ^ (y.exponent - x.exponent).toNat = gap at *
  have hsmall : (x.signedSignificand + y.signedSignificand * gap).natAbs < 2 ^ 24 := by
    have hproduct : y.significand * gap ≤ (2 ^ 11 - 1) * 2 ^ 12 := Nat.mul_le_mul (by omega) hgap
    have htriangle := Int.natAbs_add_le x.signedSignificand (y.signedSignificand * gap)
    rw [Int.natAbs_mul, Int.natAbs_natCast, natAbs_signedSignificand, natAbs_signedSignificand]
      at htriangle
    omega
  refine Format.roundsThrough_of_exact (Format.value_nearestField_number
    (k := 125 + x.steps) hsmall (show 125 + x.steps + 3 ≤ 256 by omega) ?_)
  have hexponent : Format.single.minExponent + ((125 + x.steps : Nat) : ℤ) = x.exponent := by
    rw [hxexponent, show Format.single.minExponent = -149 from rfl]
    push_cast
    ring
  have hunit : (0 : ℚ) < 2 ^ x.exponent := by positivity
  rw [hsum, abs_mul, hexponent, abs_of_pos hunit, Nat.cast_natAbs, Int.cast_abs]

/-- A term with a much smaller exponent is less than a quarter of a unit of the other one. -/
theorem value_le_of_far (h : x.steps + 13 ≤ y.steps) :
    |x.toRat| ≤ (2 ^ 11 - 1) * 2 ^ (y.exponent - 13) := by
  have hxlt : x.significand ≤ 2 ^ 11 - 1 := Nat.le_sub_one_of_lt x.half_significand_lt
  have hxlt' : (x.significand : ℚ) ≤ 2 ^ 11 - 1 := by
    have : (x.significand : ℚ) ≤ (2 ^ 11 - 1 : Nat) := by exact_mod_cast hxlt
    norm_num at this ⊢
    exact this
  have hexponent : (2 : ℚ) ^ x.exponent ≤ 2 ^ (y.exponent - 13) := by
    refine zpow_le_zpow_right₀ one_le_two ?_
    rw [half_exponent, half_exponent]
    omega
  rw [abs_toRat_eq_value, value_magnitude]
  gcongr

theorem two_zpow_exponent (y : Binary fmt) :
    (2 : ℚ) ^ y.exponent = 2 ^ 13 * 2 ^ (y.exponent - 13) := by
  rw [← zpow_natCast, ← zpow_add₀ two_ne_zero]
  congr 1
  push_cast
  ring

/-- What is that near to a half is rounded to it. -/
theorem nearestField_near_half (hy : y.isFinite = true) (hsteps : 13 ≤ y.steps)
    (h : |q - (|y.toRat|)| ≤ (2 ^ 11 - 1) * 2 ^ (y.exponent - 13)) :
    Format.half.nearestField q = y.magnitude.val := by
  have hfull : 2 ^ 10 ≤ y.significand := y.fits.full.resolve_left (by omega)
  have hfull' : (2 ^ 10 : ℚ) ≤ y.significand := by exact_mod_cast hfull
  have hunit : (0 : ℚ) < 2 ^ (y.exponent - 13) := by positivity
  rw [abs_toRat_eq_value, value_magnitude] at h
  refine Attracts.nearestField_eq hy ?_ (attracts_of_abs_lt (h.trans_lt ?_))
  · have hbelow := (abs_le.mp h).1
    rw [two_zpow_exponent] at hbelow
    nlinarith
  · rw [two_zpow_exponent]
    linarith

/-- In single precision it stays near, because the ends of the interval are singles. -/
theorem abs_sub_single_le (hy : y.isFinite = true) (hsteps : 13 ≤ y.steps) (hq : 0 ≤ q)
    (h : |q - (|y.toRat|)| ≤ (2 ^ 11 - 1) * 2 ^ (y.exponent - 13)) :
    |Format.single.value (Format.single.nearestField q) - (|y.toRat|)| ≤
      (2 ^ 11 - 1) * 2 ^ (y.exponent - 13) := by
  have hysteps := half_steps_le hy
  have hlt := y.half_significand_lt
  have hfull : 2 ^ 10 ≤ y.significand := y.fits.full.resolve_left (by omega)
  have hexponent : Format.single.minExponent + ((112 + y.steps : Nat) : ℤ) = y.exponent - 13 := by
    rw [half_exponent, show Format.single.minExponent = -149 from rfl]
    push_cast
    ring
  have hbound : 112 + y.steps + 3 ≤ 256 := by omega
  obtain ⟨low, hlow, hlowvalue⟩ := Format.single.exists_value
    (m := y.significand * 2 ^ 13 - (2 ^ 11 - 1)) (show _ < 2 ^ 24 by omega) hbound
  obtain ⟨high, hhigh, hhighvalue⟩ := Format.single.exists_value
    (m := y.significand * 2 ^ 13 + (2 ^ 11 - 1)) (show _ < 2 ^ 24 by omega) hbound
  rw [hexponent, Nat.cast_sub (by omega)] at hlowvalue
  rw [hexponent] at hhighvalue
  push_cast at hlowvalue hhighvalue
  rw [abs_toRat_eq_value, value_magnitude, two_zpow_exponent] at h ⊢
  obtain ⟨hbelow, habove⟩ := abs_le.mp h
  have hle : Format.single.value (Format.single.nearestField q) ≤ Format.single.value high :=
    Format.value_nearestField_le hq hhigh (by rw [hhighvalue]; linarith)
  have hge : Format.single.value low ≤ Format.single.value (Format.single.nearestField q) :=
    Format.le_value_nearestField hlow (by rw [hlowvalue]; linarith)
  rw [hhighvalue] at hle
  rw [hlowvalue] at hge
  exact abs_le.mpr ⟨by linarith, by linarith⟩

theorem roundsThrough_of_near_half (hy : y.isFinite = true) (hsteps : 13 ≤ y.steps) (hq : 0 ≤ q)
    (h : |q - (|y.toRat|)| ≤ (2 ^ 11 - 1) * 2 ^ (y.exponent - 13)) :
    Format.half.RoundsThrough .single q := by
  rw [Format.RoundsThrough, nearestField_near_half hy hsteps h,
    nearestField_near_half hy hsteps (abs_sub_single_le hy hsteps hq h)]

theorem add_roundsThrough (hx : x.isFinite = true) (hy : y.isFinite = true) :
    Format.half.RoundsThrough .single |x.toRat + y.toRat| := by
  -- the term with the smaller exponent comes first
  have hordered {x y : Binary .half} (hx : x.isFinite = true) (hy : y.isFinite = true)
      (hle : x.steps ≤ y.steps) : Format.half.RoundsThrough .single |x.toRat + y.toRat| := by
    rcases Nat.lt_or_ge (x.steps + 12) y.steps with hfar | hnear
    · refine roundsThrough_of_near_half hy (by omega) (abs_nonneg _) ?_
      refine (abs_abs_sub_abs_le_abs_sub _ _).trans ?_
      rw [add_sub_cancel_right]
      exact value_le_of_far hfar
    · exact add_roundsThrough_of_near hx hle hnear
  rcases Nat.le_total x.steps y.steps with hle | hle
  · exact hordered hx hy hle
  · rw [add_comm]
    exact hordered hy hx hle

/-- The midpoints of halves are not among the smallest singles. -/
theorem midpoint_normal {m n : Nat} (h : Format.single.value n = Format.half.midpoint m) :
    2 ^ 23 ≤ n := by
  have hfirst : Format.single.value (2 ^ 23) = 2 ^ (-126 : ℤ) := by
    have := Format.single.value_first 0
    rw [Nat.zero_mul, Nat.zero_add] at this
    refine this.trans ?_
    rw [show Format.single.minExponent + (0 : Nat) = -149 from rfl]
    norm_num [Format.single]
  refine Nat.not_lt.mp fun hlt => lt_irrefl ((2 : ℚ) ^ (-126 : ℤ)) ?_
  calc (2 : ℚ) ^ (-126 : ℤ) ≤ 1 * 2 ^ (Format.half.minExponent + Format.half.fieldSteps m - 1) := by
        rw [one_mul]
        refine zpow_le_zpow_right₀ one_le_two ?_
        rw [show Format.half.minExponent = -24 from rfl]
        omega
    _ ≤ Format.half.midpoint m := by
        rw [Format.midpoint_eq_mul]
        gcongr
        exact_mod_cast Nat.le_add_left 1 _
    _ = Format.single.value n := h.symm
    _ < Format.single.value (2 ^ 23) := Format.single.value_strictMono hlt
    _ = 2 ^ (-126 : ℤ) := hfirst

/-- A quotient of halves that is rounded to a midpoint is that midpoint. -/
theorem div_eq_midpoint {m : Nat} (hzero : y.isZero = false) (hm : m < Format.half.infinity)
    (h : Format.single.value (Format.single.nearestField |x.toRat / y.toRat|) =
      Format.half.midpoint m) : |x.toRat / y.toRat| = Format.half.midpoint m := by
  obtain ⟨n, hn, hmid⟩ := Format.single_refines_half.exists_midpoint hm
  have hfield : Format.single.nearestField |x.toRat / y.toRat| = n :=
    Format.single.value_strictMono.injective (h.trans hmid.symm)
  have hnear := Format.single.abs_sub_nearestField_mul_le (abs_nonneg (x.toRat / y.toRat))
    (hfield ▸ hn) (hfield ▸ midpoint_normal hmid)
  rw [h] at hnear
  have hpos : (0 : ℚ) < y.significand * 2 ^ y.exponent := by
    have : 0 < y.significand := by
      refine Nat.pos_of_ne_zero fun h => ?_
      rw [isZero, beq_eq_false_iff_ne] at hzero
      exact hzero (significand_eq_zero_iff.mp h)
    positivity
  have hquotient : |x.toRat / y.toRat| =
      x.significand * 2 ^ x.exponent / (y.significand * 2 ^ y.exponent) := by
    rw [abs_div, abs_toRat_eq_value, abs_toRat_eq_value, value_magnitude, value_magnitude]
  have hproduct : Format.half.midpoint m * (y.significand * 2 ^ y.exponent) =
      ((2 * Format.half.fieldSignificand m + 1) * y.significand : Nat) *
        2 ^ (Format.half.minExponent + Format.half.fieldSteps m - 1 + y.exponent) := by
    rw [Format.midpoint_eq_mul, zpow_add₀ two_ne_zero]
    push_cast
    ring
  rw [hquotient] at hnear ⊢
  rw [div_eq_iff hpos.ne', hproduct]
  refine mul_zpow_eq_of_near (x.half_significand_lt.trans (by decide)) ?_ ?_
  · have hlt : 2 * Format.half.fieldSignificand m + 1 < 2 ^ 12 := by
      have : Format.half.fieldSignificand m < 2 ^ 11 := (Format.half.fits_field m).lt
      omega
    exact (Nat.mul_lt_mul'' hlt y.half_significand_lt).trans_le (by decide)
  · have hscaled := mul_le_mul_of_nonneg_right hnear hpos.le
    rw [mul_right_comm] at hscaled
    nth_rewrite 2 [← abs_of_pos hpos] at hscaled
    rw [← abs_mul, sub_mul, div_mul_cancel₀ _ hpos.ne', hproduct] at hscaled
    exact hscaled

theorem div_roundsThrough (hzero : y.isZero = false) :
    Format.half.RoundsThrough .single |x.toRat / y.toRat| := by
  refine (Format.single_refines_half.roundsThrough_iff (abs_nonneg _)).mpr fun m hm h => ?_
  have hexact := div_eq_midpoint hzero hm h
  exact ⟨fun hgt => absurd hexact hgt.ne', fun hlt => absurd hexact hlt.ne⟩

end

theorem IsHalf.exists_half {x : Binary .single} (h : x.IsHalf) (hx : x.isFinite = true) :
    ∃ y : Binary .half, y.isFinite = true ∧ y.toRat = x.toRat := by
  rcases h with hnan | hinf | ⟨-, y, hy, -, hvalue⟩
  · simp [(isFinite_iff.mp hx).1] at hnan
  · simp [(isFinite_iff.mp hx).2] at hinf
  · exact ⟨y, hy, hvalue⟩

/-- Numbers of one format that are the same are equal, NaNs apart. -/
theorem Same.eq {x y : Binary fmt} (h : x.Same y) (hx : x.isNaN = false) : x = y := by
  have hfield : x.magnitude.val = y.magnitude.val := by
    rcases h.2 with ⟨hnan, -⟩ | ⟨hinf, hinf'⟩ | ⟨-, -, hvalue⟩
    · rw [hx] at hnan
      cases hnan
    · exact (beq_iff_eq.mp hinf).trans (beq_iff_eq.mp hinf').symm
    · refine fmt.value_strictMono.injective ?_
      rw [← abs_toRat_eq_value, ← abs_toRat_eq_value, hvalue]
  exact congrArg₂ mk h.1 (Fin.ext hfield)

theorem Same.symm {x : Binary fine} {y : Binary coarse} (h : x.Same y) : y.Same x := by
  refine ⟨h.1.symm, ?_⟩
  rcases h.2 with ⟨hx, hy⟩ | ⟨hx, hy⟩ | ⟨hx, hy, hvalue⟩
  · exact .inl ⟨hy, hx⟩
  · exact .inr (.inl ⟨hy, hx⟩)
  · exact .inr (.inr ⟨hy, hx, hvalue.symm⟩)

/-- A rational rounded to a finer format and then to half precision is rounded as if once, if its
    magnitude is. -/
theorem IsRoundingOf.isHalfOf_iff {s : Binary fine} (hs : s.IsRoundingOf q)
    (hfine : fine.Refines .half) (hround : s.roundHalf = (s.convert : Binary .half).convert) :
    s.roundHalf.IsHalfOf q ↔ Format.half.RoundsThrough fine |q| := by
  have hsame := same_convert Format.half_embeds_single (s.convert : Binary .half)
  rw [← hs.convert_iff hfine, hround]
  constructor
  · rintro ⟨h, hh, hsame'⟩
    rwa [← (hsame'.trans hsame.symm).eq hh.isNaN_eq]
  · exact fun h => ⟨s.convert, h, hsame⟩

end Binary

/-- The exact result of arithmetic; nothing is divided by zero. -/
def BinaryOp.exact? : BinaryOp → ℚ → ℚ → Option ℚ
  | .add, p, q => some (p + q)
  | .sub, p, q => some (p - q)
  | .mul, p, q => some (p * q)
  | .div, p, q => if q = 0 then none else some (p / q)
  | _, _, _ => none

namespace Binary

theorem isZero_eq_false {x : Binary fmt} (h : x.toRat ≠ 0) : x.isZero = false :=
  beq_eq_false_iff_ne.mpr (mt toRat_eq_zero_iff.mpr h)

theorem exact_roundsThrough {op : BinaryOp} {x y : Binary .half} {q : ℚ} (hx : x.isFinite = true)
    (hy : y.isFinite = true) (hq : op.exact? x.toRat y.toRat = some q) :
    Format.half.RoundsThrough .single |q| := by
  unfold BinaryOp.exact? at hq
  split at hq
  · exact Option.some.inj hq ▸ add_roundsThrough hx hy
  · rw [sub_eq_add_neg, ← toRat_neg] at hq
    exact Option.some.inj hq ▸ add_roundsThrough hx hy
  · exact Option.some.inj hq ▸ mul_roundsThrough hx hy
  · split at hq
    · cases hq
    · rename_i hzero
      exact Option.some.inj hq ▸ div_roundsThrough (isZero_eq_false hzero)
  · cases hq

/-- Arithmetic on halves is done in single precision, and the result is rounded again. -/
theorem binary_float16 {op : BinaryOp} {a b : Binary .single} {q : ℚ} (ha : a.isFinite = true)
    (hb : b.isFinite = true) (hq : op.exact? a.toRat b.toRat = some q) :
    ∃ s : Binary .single, s.IsRoundingOf q ∧
      Value.binary op (.float16 a) (.float16 b) = .ok (.float16 s.roundHalf) := by
  unfold BinaryOp.exact? at hq
  split at hq
  · exact ⟨_, Option.some.inj hq ▸ add_isRoundingOf ha hb, rfl⟩
  · exact ⟨_, Option.some.inj hq ▸ sub_isRoundingOf ha hb, rfl⟩
  · exact ⟨_, Option.some.inj hq ▸ mul_isRoundingOf ha hb, rfl⟩
  · split at hq
    · cases hq
    · rename_i hzero
      exact ⟨_, Option.some.inj hq ▸ div_isRoundingOf ha hb (isZero_eq_false hzero), rfl⟩
  · cases hq

/-- Arithmetic on finite halves is correctly rounded although it is rounded twice: the exact result
    is rounded to single precision, and whatever single it is rounded to, that one is rounded to the
    half nearest to the exact result, and to infinity from 65520 on. -/
theorem half_arithmetic_correct {op : BinaryOp} {a b : Binary .single} {q : ℚ} (ha : a.IsHalf)
    (hafin : a.isFinite = true) (hb : b.IsHalf) (hbfin : b.isFinite = true)
    (hq : op.exact? a.toRat b.toRat = some q) :
    (∃ s : Binary .single, s.IsRoundingOf q ∧
      Value.binary op (.float16 a) (.float16 b) = .ok (.float16 s.roundHalf)) ∧
    ∀ s : Binary .single, s.IsRoundingOf q →
      s.roundHalf.IsHalfOf q ∧ (s.roundHalf.isInfinite = true ↔ 65520 ≤ |q|) := by
  refine ⟨binary_float16 hafin hbfin hq, fun s hs => ?_⟩
  obtain ⟨x, hx, hxa⟩ := ha.exists_half hafin
  obtain ⟨y, hy, hyb⟩ := hb.exists_half hbfin
  rw [← hxa, ← hyb] at hq
  have hhalf := (hs.isHalfOf_iff Format.single_refines_half s.roundHalf_single).mpr
    (exact_roundsThrough hx hy hq)
  exact ⟨hhalf, hhalf.isInfinite_iff⟩

/-- The largest half and half a unit of it: their sum is the least that overflows. -/
theorem largest_half_add_sixteen :
    BinaryOp.add.exact? (ofBits 0x477fe000 : Binary .single).toRat
      (ofBits 0x41800000 : Binary .single).toRat = some 65520 ∧
    Value.binary .add (.float16 (ofBits 0x477fe000)) (.float16 (ofBits 0x41800000)) =
      .ok (.float16 (infinity false)) ∧
    ∀ s : Binary .single, s.IsRoundingOf 65520 → s.roundHalf.IsHalfOf 65520 := by
  have hhalf (x : Binary .single) (h : x = x.roundHalf) : x.IsHalf := h ▸ isHalf_roundHalf x
  have hlargest : (ofBits 0x477fe000 : Binary .single).toRat = 65504 := by
    rw [toRat, show (ofBits 0x477fe000 : Binary .single).signedSignificand = 65504 * 2 ^ 8 by
      decide +kernel, show (ofBits 0x477fe000 : Binary .single).exponent = -8 by decide +kernel]
    norm_num
  have hsixteen : (ofBits 0x41800000 : Binary .single).toRat = 16 := by
    rw [toRat, show (ofBits 0x41800000 : Binary .single).signedSignificand = 16 * 2 ^ 19 by
      decide +kernel, show (ofBits 0x41800000 : Binary .single).exponent = -19 by decide +kernel]
    norm_num
  have hsum : BinaryOp.add.exact? (ofBits 0x477fe000 : Binary .single).toRat
      (ofBits 0x41800000 : Binary .single).toRat = some 65520 := by
    rw [hlargest, hsixteen, BinaryOp.exact?]
    norm_num
  refine ⟨hsum, by rfl, fun s hs => ?_⟩
  exact ((half_arithmetic_correct (hhalf _ (by decide +kernel)) (by decide +kernel)
    (hhalf _ (by decide +kernel)) (by decide +kernel) hsum).2 s hs).1

end Binary

end ScalarLang
