import Mathlib
import ScalarLang.Binary.Arithmetic

/-
  What rounding leaves alone.
  A finite float denotes a rational number, its significand times a power of two. Each magnitude
  has one significand and one exponent that fit together, and rounding a quotient that is equal to
  such a product gives that magnitude back. Hence conversion to a format that has the number is
  exact, and a half stays what it is in single precision, whatever way it takes.
-/

namespace ScalarLang

/-! ## Powers of two -/

/-- A power as a quotient of powers, one of which is 1. -/
theorem zpow_eq_div (b : ℚ) (k : ℤ) : b ^ k = b ^ k.toNat / b ^ (-k).toNat := by
  rcases Int.le_total 0 k with hk | hk
  · obtain ⟨n, rfl⟩ := Int.eq_ofNat_of_zero_le hk
    have hneg : (-(n : ℤ)).toNat = 0 := by omega
    rw [hneg, Int.toNat_natCast, pow_zero, div_one, zpow_natCast]
  · obtain ⟨n, hn⟩ := Int.eq_ofNat_of_zero_le (Int.neg_nonneg_of_nonpos hk)
    obtain rfl : k = -(n : ℤ) := by omega
    have hpos : (-(n : ℤ)).toNat = 0 := by omega
    rw [hpos, neg_neg, Int.toNat_natCast, pow_zero, zpow_neg, zpow_natCast, one_div]

/-- Two numbers between consecutive powers of two have the powers in common. -/
theorem two_zpow_unique {q : ℚ} {j k : ℤ} (hj : (2 : ℚ) ^ j ≤ q) (hj' : q < 2 ^ (j + 1))
    (hk : (2 : ℚ) ^ k ≤ q) (hk' : q < 2 ^ (k + 1)) : j = k := by
  have hlt : j < k + 1 := (zpow_lt_zpow_iff_right₀ one_lt_two).mp (hj.trans_lt hk')
  have hgt : k < j + 1 := (zpow_lt_zpow_iff_right₀ one_lt_two).mp (hk.trans_lt hj')
  omega

theorem log2_bounds {n : Nat} (hn : 0 < n) :
    (2 : ℚ) ^ (n.log2 : ℤ) ≤ n ∧ (n : ℚ) < 2 ^ ((n.log2 : ℤ) + 1) := by
  have hlow := Nat.log2_self_le hn.ne'
  have hhigh := Nat.lt_log2_self (n := n)
  refine ⟨by exact_mod_cast hlow, ?_⟩
  rw [← Nat.cast_succ, zpow_natCast]
  exact_mod_cast hhigh

/-- The binary logarithm of a quotient. -/
theorem floorLog2Div_bounds {num den : Nat} (hnum : 0 < num) (hden : 0 < den) :
    (2 : ℚ) ^ floorLog2Div num den ≤ (num : ℚ) / den ∧
      (num : ℚ) / den < 2 ^ (floorLog2Div num den + 1) := by
  obtain ⟨hn, hn'⟩ := log2_bounds hnum
  obtain ⟨hd, hd'⟩ := log2_bounds hden
  have hden : (0 : ℚ) < den := by exact_mod_cast hden
  have htwo : (2 : ℚ) ≠ 0 := two_ne_zero
  set guess : ℤ := (num.log2 : ℤ) - den.log2 with hguess
  -- the guess is right or one too large
  have hhigh : (num : ℚ) / den < 2 ^ (guess + 1) := by
    rw [div_lt_iff₀ hden]
    calc (num : ℚ) < 2 ^ ((num.log2 : ℤ) + 1) := hn'
      _ = 2 ^ (guess + 1) * 2 ^ (den.log2 : ℤ) := by
          rw [← zpow_add₀ htwo]
          congr 1
          omega
      _ ≤ 2 ^ (guess + 1) * den := by gcongr
  have hlow : (2 : ℚ) ^ (guess - 1) ≤ (num : ℚ) / den := by
    rw [le_div_iff₀ hden]
    calc (2 : ℚ) ^ (guess - 1) * den ≤ 2 ^ (guess - 1) * 2 ^ ((den.log2 : ℤ) + 1) := by gcongr
      _ = 2 ^ (num.log2 : ℤ) := by
          rw [← zpow_add₀ htwo]
          congr 1
          omega
      _ ≤ num := hn
  have htest : den * Nat.pow 2 guess.toNat ≤ num * Nat.pow 2 (-guess).toNat ↔
      (2 : ℚ) ^ guess ≤ (num : ℚ) / den := by
    rw [zpow_eq_div, div_le_div_iff₀ (by positivity) hden, mul_comm den]
    simp only [Nat.pow_eq]
    exact_mod_cast Iff.rfl
  unfold floorLog2Div
  simp only [← hguess]
  split
  · rename_i h
    exact ⟨htest.mp h, hhigh⟩
  · rename_i h
    refine ⟨hlow, ?_⟩
    rw [sub_add_cancel]
    exact lt_of_not_ge fun hge => h (htest.mpr hge)

theorem divNearestEven_mul {den : Nat} (hden : 0 < den) (n : Nat) :
    divNearestEven (n * den) den = n := by
  have hmod : n * den % den = 0 := Nat.mul_mod_left n den
  simp only [divNearestEven, hmod, Nat.mul_zero, if_pos hden, Nat.mul_div_cancel n hden]

/-! ## Significands and exponents -/

namespace Format

/-- A significand and a number of steps above the least exponent that belong to one magnitude: no
    bit is missing in front unless the exponent is the least. -/
structure Fits (fmt : Format) (significand steps : Nat) : Prop where
  lt : significand < 2 ^ (fmt.fractionBits + 1)
  full : steps = 0 ∨ 2 ^ fmt.fractionBits ≤ significand

variable {fmt : Format} {significand steps num den : Nat}

/-- The place of the last bit, for a quotient between two powers of two. -/
theorem unitExponent_eq (hnum : 0 < num) (hden : 0 < den)
    (hlow : steps = 0 ∨ (2 : ℚ) ^ (fmt.minExponent + steps + fmt.fractionBits) ≤ (num : ℚ) / den)
    (hhigh : (num : ℚ) / den < 2 ^ (fmt.minExponent + steps + fmt.fractionBits + 1)) :
    fmt.unitExponent (floorLog2Div num den) = fmt.minExponent + steps := by
  obtain ⟨hlog, hlog'⟩ := floorLog2Div_bounds hnum hden
  have hle : floorLog2Div num den < fmt.minExponent + steps + fmt.fractionBits + 1 :=
    (zpow_lt_zpow_iff_right₀ one_lt_two).mp (hlog.trans_lt hhigh)
  unfold unitExponent
  rcases hlow with hsteps | hlow
  · omega
  · have htop := two_zpow_unique hlog hlog' hlow hhigh
    omega

/-- A quotient that is such a product is rounded to its own magnitude. -/
theorem Fits.nearestMagnitude_eq (h : fmt.Fits significand steps) (hden : 0 < den)
    (hvalue : (num : ℚ) / den = significand * 2 ^ (fmt.minExponent + steps)) :
    fmt.nearestMagnitude num den =
      min fmt.infinity (steps * 2 ^ fmt.fractionBits + significand) := by
  have hden' : (den : ℚ) ≠ 0 := by exact_mod_cast hden.ne'
  have hpow : (0 : ℚ) < 2 ^ (fmt.minExponent + steps) := by positivity
  unfold nearestMagnitude
  by_cases hnum : num = 0
  · have hzero : significand = 0 := by
      rw [hnum, Nat.cast_zero, zero_div] at hvalue
      exact_mod_cast (mul_eq_zero.mp hvalue.symm).resolve_right hpow.ne'
    have hsteps : steps = 0 := by
      refine h.full.resolve_right fun hle => ?_
      have := Nat.two_pow_pos fmt.fractionBits
      omega
    rw [if_pos hnum, hzero, hsteps, Nat.zero_mul, Nat.min_zero]
  · rw [if_neg hnum]
    have htop : (num : ℚ) / den < 2 ^ (fmt.minExponent + steps + fmt.fractionBits + 1) := by
      have hlt : (significand : ℚ) < 2 ^ ((fmt.fractionBits : ℤ) + 1) := by
        rw [← Nat.cast_succ, zpow_natCast]
        exact_mod_cast h.lt
      rw [hvalue]
      calc (significand : ℚ) * 2 ^ (fmt.minExponent + steps)
          < 2 ^ ((fmt.fractionBits : ℤ) + 1) * 2 ^ (fmt.minExponent + steps) := by gcongr
        _ = 2 ^ (fmt.minExponent + steps + fmt.fractionBits + 1) := by
            rw [← zpow_add₀ two_ne_zero]
            congr 1
            ring
    have hunit : fmt.unitExponent (floorLog2Div num den) = fmt.minExponent + steps := by
      refine unitExponent_eq (Nat.pos_of_ne_zero hnum) hden (h.full.imp_right fun hfull => ?_) htop
      rw [hvalue, zpow_add₀ two_ne_zero, mul_comm]
      gcongr
      rw [zpow_natCast]
      exact_mod_cast hfull
    have hexact : num * 2 ^ (-(fmt.minExponent + steps)).toNat =
        significand * (den * 2 ^ (fmt.minExponent + steps).toNat) := by
      rw [zpow_eq_div, ← mul_div_assoc, div_eq_div_iff hden' (by positivity)] at hvalue
      have hvalue : num * 2 ^ (-(fmt.minExponent + steps)).toNat =
          significand * 2 ^ (fmt.minExponent + steps).toNat * den := by exact_mod_cast hvalue
      rw [hvalue]
      ring
    have hdivisor : 0 < den * 2 ^ (fmt.minExponent + steps).toNat :=
      Nat.mul_pos hden (Nat.two_pow_pos _)
    simp only [hunit, Nat.pow_eq, hexact, divNearestEven_mul hdivisor, add_sub_cancel_left,
      Int.toNat_natCast]

/-- With more steps there is more, of the product and of the magnitude. -/
theorem Fits.lt_of_steps_lt {significand' steps' : Nat} (h : fmt.Fits significand steps)
    (h' : fmt.Fits significand' steps') (hlt : steps < steps') :
    significand * 2 ^ steps < significand' * 2 ^ steps' ∧
      steps * 2 ^ fmt.fractionBits + significand <
        steps' * 2 ^ fmt.fractionBits + significand' := by
  have hfull : 2 ^ fmt.fractionBits ≤ significand' := h'.full.resolve_left (by omega)
  constructor
  · calc significand * 2 ^ steps < 2 ^ (fmt.fractionBits + 1) * 2 ^ steps :=
          Nat.mul_lt_mul_of_pos_right h.lt (Nat.two_pow_pos _)
      _ = 2 ^ fmt.fractionBits * 2 ^ (steps + 1) := by ring
      _ ≤ significand' * 2 ^ steps' :=
          Nat.mul_le_mul hfull (Nat.pow_le_pow_right Nat.two_pos hlt)
  · calc steps * 2 ^ fmt.fractionBits + significand
        < steps * 2 ^ fmt.fractionBits + 2 ^ (fmt.fractionBits + 1) := Nat.add_lt_add_left h.lt _
      _ = (steps + 1) * 2 ^ fmt.fractionBits + 2 ^ fmt.fractionBits := by ring
      _ ≤ steps' * 2 ^ fmt.fractionBits + significand' :=
          Nat.add_le_add (Nat.mul_le_mul_right _ hlt) hfull

/-- Magnitudes are ordered as the products are. -/
theorem Fits.lt_iff {significand' steps' : Nat} (h : fmt.Fits significand steps)
    (h' : fmt.Fits significand' steps') :
    steps * 2 ^ fmt.fractionBits + significand < steps' * 2 ^ fmt.fractionBits + significand' ↔
      significand * 2 ^ steps < significand' * 2 ^ steps' := by
  rcases Nat.lt_trichotomy steps steps' with hlt | rfl | hgt
  · obtain ⟨hproduct, hmagnitude⟩ := h.lt_of_steps_lt h' hlt
    exact iff_of_true hmagnitude hproduct
  · rw [Nat.mul_lt_mul_right (Nat.two_pow_pos steps)]
    omega
  · obtain ⟨hproduct, hmagnitude⟩ := h'.lt_of_steps_lt h hgt
    exact iff_of_false (Nat.not_lt_of_gt hmagnitude) (Nat.not_lt_of_gt hproduct)

/-- Every product of a small significand and a power of two that is not below the least one can be
    brought into a form that fits. -/
theorem exists_fits (fmt : Format) {m : Nat} (hm : m < 2 ^ (fmt.fractionBits + 1)) (q : Nat) :
    ∃ significand steps, fmt.Fits significand steps ∧ steps ≤ q ∧
      m * 2 ^ q = significand * 2 ^ steps := by
  induction q generalizing m with
  | zero => exact ⟨m, 0, ⟨hm, Or.inl rfl⟩, Nat.le_refl _, rfl⟩
  | succ q ih =>
      by_cases hfull : 2 ^ fmt.fractionBits ≤ m
      · exact ⟨m, q + 1, ⟨hm, Or.inr hfull⟩, Nat.le_refl _, rfl⟩
      · obtain ⟨significand, steps, hfits, hle, heq⟩ := ih (m := 2 * m) (by rw [pow_succ]; omega)
        refine ⟨significand, steps, hfits, hle.trans (Nat.le_succ q), ?_⟩
        rw [← heq, pow_succ]
        ring

end Format

namespace Binary

variable {fmt target : Format}

/-- The number that a finite float denotes. -/
def toRat (x : Binary fmt) : ℚ := x.signedSignificand * 2 ^ x.exponent

/-- The steps from the least exponent to that of a float. -/
def steps (x : Binary fmt) : Nat := x.exponentField - 1

theorem exponent_eq (x : Binary fmt) : x.exponent = fmt.minExponent + x.steps := rfl

theorem fits (x : Binary fmt) : fmt.Fits x.significand x.steps := by
  have hlt : x.fractionField < 2 ^ fmt.fractionBits := Nat.mod_lt _ (Nat.two_pow_pos _)
  have hpow : 2 ^ (fmt.fractionBits + 1) = 2 ^ fmt.fractionBits + 2 ^ fmt.fractionBits := by
    rw [pow_succ]
    omega
  unfold significand steps
  simp only [Nat.pow_eq]
  split
  · exact ⟨by omega, Or.inl (by omega)⟩
  · exact ⟨by omega, Or.inr (Nat.le_add_right _ _)⟩

/-- A magnitude is put together from its significand and exponent. -/
theorem magnitude_eq (x : Binary fmt) :
    x.magnitude.val = x.steps * 2 ^ fmt.fractionBits + x.significand := by
  have hsplit : 2 ^ fmt.fractionBits * x.exponentField + x.fractionField = x.magnitude.val :=
    Nat.div_add_mod _ _
  unfold significand steps
  simp only [Nat.pow_eq]
  split
  · rename_i h
    rw [h, Nat.mul_zero, Nat.zero_add] at hsplit
    rw [h, ← hsplit]
    omega
  · rename_i h
    obtain ⟨k, hk⟩ := Nat.exists_eq_succ_of_ne_zero h
    rw [← hsplit, hk, Nat.succ_sub_one, Nat.mul_succ, Nat.mul_comm]
    omega

/-- And taken apart into them. -/
theorem of_magnitude_eq {x : Binary fmt} {significand steps : Nat} (h : fmt.Fits significand steps)
    (hx : x.magnitude.val = steps * 2 ^ fmt.fractionBits + significand) :
    x.significand = significand ∧ x.steps = steps := by
  have hpos := Nat.two_pow_pos fmt.fractionBits
  by_cases hfull : 2 ^ fmt.fractionBits ≤ significand
  · -- the leading bit of the significand is the last one of the exponent field
    obtain ⟨fraction, rfl⟩ := Nat.exists_eq_add_of_le hfull
    have hlt : fraction < 2 ^ fmt.fractionBits := by
      have := h.lt
      rw [pow_succ] at this
      omega
    have hsplit : x.magnitude.val = fraction + 2 ^ fmt.fractionBits * (steps + 1) := by
      rw [hx]
      ring
    have hexponent : x.exponentField = steps + 1 := by
      rw [exponentField, hsplit, Nat.pow_eq, Nat.add_mul_div_left _ _ hpos, Nat.div_eq_of_lt hlt,
        Nat.zero_add]
    have hfraction : x.fractionField = fraction := by
      rw [fractionField, hsplit, Nat.pow_eq, Nat.add_mul_mod_self_left, Nat.mod_eq_of_lt hlt]
    simp [Binary.significand, Binary.steps, hexponent, hfraction]
  · obtain rfl : steps = 0 := h.full.resolve_right hfull
    rw [Nat.zero_mul, Nat.zero_add] at hx
    have hlt : x.magnitude.val < 2 ^ fmt.fractionBits := by omega
    have hexponent : x.exponentField = 0 := Nat.div_eq_of_lt hlt
    have hfraction : x.fractionField = significand := (Nat.mod_eq_of_lt hlt).trans hx
    simp [Binary.significand, Binary.steps, hexponent, hfraction]

theorem toRat_eq (x : Binary fmt) :
    x.toRat = (if x.negative then -1 else 1) * (x.significand * 2 ^ x.exponent) := by
  unfold toRat signedSignificand
  split <;> push_cast <;> ring

theorem toRat_neg (x : Binary fmt) : x.neg.toRat = -x.toRat := by
  have hsign : x.neg.negative = !x.negative := rfl
  have hsignificand : x.neg.significand = x.significand := rfl
  have hexponent : x.neg.exponent = x.exponent := rfl
  rw [toRat_eq, toRat_eq, hsign, hsignificand, hexponent]
  cases x.negative <;> simp

theorem value_eq_of_toRat_eq {x : Binary fmt} {y : Binary target} (hsign : x.negative = y.negative)
    (h : x.toRat = y.toRat) :
    (x.significand : ℚ) * 2 ^ x.exponent = y.significand * 2 ^ y.exponent := by
  rw [toRat_eq, toRat_eq, hsign] at h
  split at h <;> linarith

/-- Rounding a quotient that a finite float denotes gives that float. -/
theorem nearest_eq {y : Binary fmt} (hy : y.isFinite = true) {num den : Nat} (hden : 0 < den)
    (hvalue : (num : ℚ) / den = y.significand * 2 ^ y.exponent) :
    nearest y.negative num den = y := by
  have hlt : y.magnitude.val < fmt.infinity := of_decide_eq_true hy
  have hmagnitude : fmt.nearestMagnitude num den = y.magnitude.val := by
    rw [y.fits.nearestMagnitude_eq hden hvalue, ← y.magnitude_eq, Nat.min_eq_right hlt.le]
  simp only [nearest, hmagnitude]

theorem nearestScaled_eq {y : Binary fmt} (hy : y.isFinite = true) {num : Nat} {scale : ℤ}
    (hvalue : (num : ℚ) * 2 ^ scale = y.significand * 2 ^ y.exponent) :
    nearestScaled y.negative num 1 scale = y := by
  refine nearest_eq hy (Nat.mul_pos Nat.one_pos (Nat.two_pow_pos _)) ?_
  rw [← hvalue, zpow_eq_div]
  simp only [Nat.pow_eq]
  push_cast
  ring

/-! ## The same number in two formats -/

/-- The two have one sign, and they are both NaNs, both infinite, or finite and the same number. -/
def Same (x : Binary fmt) (y : Binary target) : Prop :=
  x.negative = y.negative ∧
    ((x.isNaN = true ∧ y.isNaN = true) ∨ (x.isInfinite = true ∧ y.isInfinite = true) ∨
      (x.isFinite = true ∧ y.isFinite = true ∧ x.toRat = y.toRat))

theorem isFinite_iff {x : Binary fmt} :
    x.isFinite = true ↔ x.isNaN = false ∧ x.isInfinite = false := by
  simp only [isFinite, isNaN, isInfinite, decide_eq_true_eq, decide_eq_false_iff_not,
    beq_eq_false_iff_ne]
  omega

theorem isNaN_of_isInfinite {x : Binary fmt} (h : x.isInfinite = true) : x.isNaN = false := by
  simp only [isNaN, isInfinite, decide_eq_false_iff_not, beq_iff_eq] at h ⊢
  omega

theorem Same.trans {third : Format} {x : Binary fmt} {y : Binary target} {z : Binary third}
    (h : x.Same y) (h' : y.Same z) : x.Same z := by
  obtain ⟨hsign, hkind⟩ := h
  obtain ⟨hsign', hkind'⟩ := h'
  refine ⟨hsign.trans hsign', ?_⟩
  rcases hkind with ⟨hx, hy⟩ | ⟨hx, hy⟩ | ⟨hx, hy, hvalue⟩
  · rcases hkind' with ⟨-, hz⟩ | ⟨hy', -⟩ | ⟨hy', -⟩
    · exact Or.inl ⟨hx, hz⟩
    · simp [isNaN_of_isInfinite hy'] at hy
    · simp [(isFinite_iff.mp hy').1] at hy
  · rcases hkind' with ⟨hy', -⟩ | ⟨-, hz⟩ | ⟨hy', -⟩
    · simp [isNaN_of_isInfinite hy] at hy'
    · exact Or.inr (Or.inl ⟨hx, hz⟩)
    · simp [(isFinite_iff.mp hy').2] at hy
  · rcases hkind' with ⟨hy', -⟩ | ⟨hy', -⟩ | ⟨-, hz, hvalue'⟩
    · simp [(isFinite_iff.mp hy).1] at hy'
    · simp [(isFinite_iff.mp hy).2] at hy'
    · exact Or.inr (Or.inr ⟨hx, hz, hvalue.trans hvalue'⟩)

theorem convert_nan {x : Binary fmt} (h : x.isNaN = true) : x.Same (x.convert : Binary target) := by
  have hnan : (x.convert : Binary target) = { (nan : Binary target) with negative := x.negative } :=
    if_pos h
  rw [hnan]
  refine ⟨rfl, Or.inl ⟨h, decide_eq_true ?_⟩⟩
  exact Nat.lt_add_of_pos_right (Nat.two_pow_pos _)

theorem convert_infinite {x : Binary fmt} (h : x.isInfinite = true) :
    x.Same (x.convert : Binary target) := by
  have hnan := isNaN_of_isInfinite h
  have hinf : (x.convert : Binary target) = infinity x.negative := by
    rw [convert, hnan, h]
    rfl
  rw [hinf]
  exact ⟨rfl, Or.inr (Or.inl ⟨h, beq_self_eq_true _⟩)⟩

/-- Conversion to a format that has the number is exact. -/
theorem convert_finite {x : Binary fmt} {y : Binary target} (h : x.Same y)
    (hx : x.isFinite = true) : (x.convert : Binary target) = y := by
  obtain ⟨hnan, hinf⟩ := isFinite_iff.mp hx
  obtain ⟨hsign, hkind⟩ := h
  rw [hnan, hinf] at hkind
  simp only [Bool.false_eq_true, false_and, false_or] at hkind
  obtain ⟨-, hy, hvalue⟩ := hkind
  rw [convert, hnan, hinf, hsign]
  exact nearestScaled_eq hy (value_eq_of_toRat_eq hsign hvalue)

/-! ## Comparison -/

/-- Magnitudes are ordered as the numbers that they denote. -/
theorem magnitude_lt_iff (x y : Binary fmt) : x.magnitude.val < y.magnitude.val ↔
    (x.significand : ℚ) * 2 ^ x.exponent < y.significand * 2 ^ y.exponent := by
  have hpow : (0 : ℚ) < 2 ^ fmt.minExponent := by positivity
  rw [x.magnitude_eq, y.magnitude_eq, x.fits.lt_iff y.fits, exponent_eq, exponent_eq,
    zpow_add₀ two_ne_zero, zpow_add₀ two_ne_zero, mul_left_comm, mul_left_comm (y.significand : ℚ),
    mul_lt_mul_iff_right₀ hpow, zpow_natCast, zpow_natCast]
  exact_mod_cast Iff.rfl

/-- So the order of magnitudes is the same in every format. -/
theorem Same.magnitude_lt_iff {x y : Binary fmt} {x' y' : Binary target} (hx : x.Same x')
    (hy : y.Same y') (hnx : x.isNaN = false) (hny : y.isNaN = false) :
    x.magnitude.val < y.magnitude.val ↔ x'.magnitude.val < y'.magnitude.val := by
  obtain ⟨hsx, hx⟩ := hx
  obtain ⟨hsy, hy⟩ := hy
  rw [hnx] at hx
  rw [hny] at hy
  simp only [Bool.false_eq_true, false_and, false_or, isInfinite, isFinite, beq_iff_eq,
    decide_eq_true_eq] at hx hy
  rcases hx with ⟨hx, hx'⟩ | ⟨hx, hx', hvx⟩
  · rcases hy with ⟨hy, hy'⟩ | ⟨hy, hy', -⟩ <;> omega
  · rcases hy with ⟨hy, hy'⟩ | ⟨-, -, hvy⟩
    · omega
    · rw [Binary.magnitude_lt_iff, Binary.magnitude_lt_iff, value_eq_of_toRat_eq hsx hvx,
        value_eq_of_toRat_eq hsy hvy]

theorem isFinite_zero (fmt : Format) (negative : Bool) :
    (zero negative : Binary fmt).isFinite = true := by
  have hexponent := Nat.one_lt_two_pow fmt.exponentBits_pos.ne'
  refine decide_eq_true (Nat.mul_pos ?_ (Nat.two_pow_pos _))
  rw [Nat.pow_eq]
  omega

theorem toRat_zero (fmt : Format) (negative : Bool) : (zero negative : Binary fmt).toRat = 0 := by
  simp [toRat, signedSignificand, significand, exponentField, fractionField, zero]

theorem same_zero (fmt target : Format) (negative : Bool) :
    (zero negative : Binary fmt).Same (zero negative : Binary target) :=
  ⟨rfl, Or.inr (Or.inr ⟨isFinite_zero fmt negative, isFinite_zero target negative, by
    rw [toRat_zero, toRat_zero]⟩)⟩

theorem Same.isNaN_eq {x : Binary fmt} {y : Binary target} (h : x.Same y) : x.isNaN = y.isNaN := by
  rcases h.2 with ⟨hx, hy⟩ | ⟨hx, hy⟩ | ⟨hx, hy, -⟩
  · rw [hx, hy]
  · rw [isNaN_of_isInfinite hx, isNaN_of_isInfinite hy]
  · rw [(isFinite_iff.mp hx).1, (isFinite_iff.mp hy).1]

theorem Same.isInfinite_eq {x : Binary fmt} {y : Binary target} (h : x.Same y) :
    x.isInfinite = y.isInfinite := by
  have hnan {fmt : Format} {z : Binary fmt} (hz : z.isNaN = true) : z.isInfinite = false :=
    Bool.eq_false_iff.mpr fun hinf => by simp [isNaN_of_isInfinite hinf] at hz
  rcases h.2 with ⟨hx, hy⟩ | ⟨hx, hy⟩ | ⟨hx, hy, -⟩
  · rw [hnan hx, hnan hy]
  · rw [hx, hy]
  · rw [(isFinite_iff.mp hx).2, (isFinite_iff.mp hy).2]

theorem Same.rank_lt_iff {x y : Binary fmt} {x' y' : Binary target} (hx : x.Same x')
    (hy : y.Same y') (hnx : x.isNaN = false) (hny : y.isNaN = false) :
    x.rank < y.rank ↔ x'.rank < y'.rank := by
  have hnz := (isFinite_iff.mp (isFinite_zero fmt false)).1
  have hlt := hx.magnitude_lt_iff hy hnx hny
  have hgt := hy.magnitude_lt_iff hx hny hnx
  -- where signs differ it counts whether both are zeros
  have hxpos : 0 < x.magnitude.val ↔ 0 < x'.magnitude.val :=
    (same_zero fmt target false).magnitude_lt_iff hx hnz hnx
  have hypos : 0 < y.magnitude.val ↔ 0 < y'.magnitude.val :=
    (same_zero fmt target false).magnitude_lt_iff hy hnz hny
  unfold rank
  rw [hx.1, hy.1]
  split_ifs <;> omega

/-- Numbers compare in the same way in every format. -/
theorem Same.compare?_eq {x y : Binary fmt} {x' y' : Binary target} (hx : x.Same x')
    (hy : y.Same y') : x.compare? y = x'.compare? y' := by
  rw [compare?, compare?, ← hx.isNaN_eq, ← hy.isNaN_eq]
  split
  · rfl
  · rename_i h
    simp only [Bool.or_eq_true, not_or, Bool.not_eq_true] at h
    have hlt := hx.rank_lt_iff hy h.1 h.2
    have hgt := hy.rank_lt_iff hx h.2 h.1
    congr 1
    rcases lt_trichotomy x.rank y.rank with h | h | h
    · rw [compare_lt_iff_lt.mpr h, compare_lt_iff_lt.mpr (hlt.mp h)]
    · rw [compare_eq_iff_eq.mpr h, compare_eq_iff_eq.mpr (by omega)]
    · rw [compare_gt_iff_gt.mpr h, compare_gt_iff_gt.mpr (hgt.mp h)]

/-! ## Wider formats -/

/-- A small significand at an exponent of the range is a number. -/
theorem exists_number (fmt : Format) (negative : Bool) {m q : Nat}
    (hm : m < 2 ^ (fmt.fractionBits + 1)) (hq : q + 3 ≤ 2 ^ fmt.exponentBits) :
    ∃ x : Binary fmt, x.isFinite = true ∧ x.negative = negative ∧
      (x.significand : ℚ) * 2 ^ x.exponent = m * 2 ^ (fmt.minExponent + q) := by
  obtain ⟨significand, steps, hfits, hle, heq⟩ := fmt.exists_fits hm q
  have hbound : steps * 2 ^ fmt.fractionBits + significand < fmt.infinity := by
    calc steps * 2 ^ fmt.fractionBits + significand
        < steps * 2 ^ fmt.fractionBits + 2 ^ (fmt.fractionBits + 1) :=
          Nat.add_lt_add_left hfits.lt _
      _ = (steps + 2) * 2 ^ fmt.fractionBits := by ring
      _ ≤ (2 ^ fmt.exponentBits - 1) * 2 ^ fmt.fractionBits := Nat.mul_le_mul_right _ (by omega)
  have hproduct : (m : ℚ) * 2 ^ q = significand * 2 ^ steps := by exact_mod_cast heq
  let x : Binary fmt := ⟨negative, _, hbound.trans fmt.infinity_lt_magnitudes⟩
  obtain ⟨hs, hk⟩ := of_magnitude_eq (x := x) hfits rfl
  refine ⟨x, decide_eq_true hbound, rfl, ?_⟩
  rw [exponent_eq, hs, hk, zpow_add₀ two_ne_zero, zpow_add₀ two_ne_zero, zpow_natCast,
    zpow_natCast, mul_left_comm, ← hproduct, mul_left_comm]

end Binary

/-- The numbers of a format are numbers of another one: it has enough bits, starts as low and goes
    as high. -/
structure Format.Embeds (fmt target : Format) : Prop where
  bits : fmt.fractionBits ≤ target.fractionBits
  low : target.minExponent ≤ fmt.minExponent
  high : 2 ^ fmt.exponentBits + (fmt.minExponent - target.minExponent).toNat <
    2 ^ target.exponentBits

theorem Format.half_embeds_single : half.Embeds single := ⟨by decide, by decide, by decide⟩
theorem Format.single_embeds_double : single.Embeds double := ⟨by decide, by decide, by decide⟩

namespace Binary

variable {fmt target : Format}

theorem steps_lt {x : Binary fmt} (hfin : x.isFinite = true) :
    x.steps + 1 < 2 ^ fmt.exponentBits := by
  have hlt : x.steps * 2 ^ fmt.fractionBits + x.significand <
      (2 ^ fmt.exponentBits - 1) * 2 ^ fmt.fractionBits := by
    rw [← x.magnitude_eq]
    exact of_decide_eq_true hfin
  have hsteps : x.steps < 2 ^ fmt.exponentBits - 1 :=
    lt_of_mul_lt_mul_right (Nat.lt_of_le_of_lt (Nat.le_add_right _ _) hlt) (Nat.zero_le _)
  omega

theorem exists_same (h : fmt.Embeds target) {x : Binary fmt} (hx : x.isFinite = true) :
    ∃ y : Binary target, y.isFinite = true ∧ x.negative = y.negative ∧ x.toRat = y.toRat := by
  have hsteps := steps_lt hx
  have hhigh := h.high
  have hsmall : x.significand < 2 ^ (target.fractionBits + 1) :=
    x.fits.lt.trans_le (Nat.pow_le_pow_right Nat.two_pos (Nat.succ_le_succ h.bits))
  obtain ⟨y, hy, hsign, hvalue⟩ := exists_number target x.negative hsmall
    (q := x.steps + (fmt.minExponent - target.minExponent).toNat) (by omega)
  refine ⟨y, hy, hsign.symm, ?_⟩
  have hexponent : target.minExponent +
      ((x.steps + (fmt.minExponent - target.minExponent).toNat : Nat) : ℤ) = x.exponent := by
    have hlow := h.low
    rw [exponent_eq]
    omega
  rw [toRat_eq, toRat_eq, hsign, hvalue, hexponent]

/-- A number is the same in a wider format. -/
theorem same_convert (h : fmt.Embeds target) (x : Binary fmt) :
    x.Same (x.convert : Binary target) := by
  by_cases hnan : x.isNaN = true
  · exact convert_nan hnan
  by_cases hinf : x.isInfinite = true
  · exact convert_infinite hinf
  have hfin : x.isFinite = true := by simp [isFinite_iff, hnan, hinf]
  obtain ⟨y, hy, hsign, hvalue⟩ := exists_same h hfin
  have hsame : x.Same y := ⟨hsign, Or.inr (Or.inr ⟨hfin, hy, hvalue⟩)⟩
  rw [convert_finite hsame hfin]
  exact hsame

/-! ## Halves in single precision -/

/-- The single is a NaN, an infinity, or a number that half precision has. -/
def IsHalf (x : Binary .single) : Prop :=
  x.isNaN = true ∨ x.isInfinite = true ∨
    (x.isFinite = true ∧ ∃ h : Binary .half, h.isFinite = true ∧ h.negative = x.negative ∧
      h.toRat = x.toRat)

theorem Same.isHalf {h : Binary .half} {x : Binary .single} (hx : h.Same x) : x.IsHalf := by
  rcases hx.2 with ⟨-, hnan⟩ | ⟨-, hinf⟩ | ⟨hh, hfin, hvalue⟩
  · exact Or.inl hnan
  · exact Or.inr (Or.inl hinf)
  · exact Or.inr (Or.inr ⟨hfin, h, hh, hx.1, hvalue⟩)

namespace IsHalf

variable {x y : Binary .single}

theorem neg (h : x.IsHalf) : x.neg.IsHalf := by
  rcases h with hnan | hinf | ⟨hfin, y, hy, hsign, hvalue⟩
  · exact Or.inl hnan
  · exact Or.inr (Or.inl hinf)
  · refine Or.inr (Or.inr ⟨hfin, y.neg, hy, congrArg not hsign, ?_⟩)
    rw [toRat_neg, toRat_neg, hvalue]

/-- Going to half precision does not change the number. -/
theorem same_half (h : x.IsHalf) : x.Same (x.convert : Binary .half) := by
  rcases h with hnan | hinf | ⟨hfin, y, hy, hsign, hvalue⟩
  · exact convert_nan hnan
  · exact convert_infinite hinf
  · have hsame : x.Same y := ⟨hsign.symm, Or.inr (Or.inr ⟨hfin, hy, hvalue.symm⟩)⟩
    rw [convert_finite hsame hfin]
    exact hsame

end IsHalf

end Binary

end ScalarLang
