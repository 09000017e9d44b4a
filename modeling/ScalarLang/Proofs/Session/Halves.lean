import Mathlib
import ScalarLang.Proofs.Binary.TwiceRounded
import ScalarLang.Proofs.Session.Integers
import ScalarLang.Proofs.Token.Patterns

/-
  Half literals.
  A float is written with digits, a fraction and an exponent, and denotes a rational. The literal is
  the double nearest to it, and a half literal is that double, rounded again. So a half literal is
  the half nearest to the rational unless the double is halfway between two halves, the rational is
  not, and the tie goes to the half on the other side of the rational.
-/

namespace ScalarLang

/-! ## Written floats -/

/-- The mark of an exponent, a sign and digits. -/
structure ExponentPart where
  mark : Char
  sign : Option Char
  digits : List Char
  mark_eq : mark = 'e' ∨ mark = 'E'
  sign_eq : ∀ s ∈ sign, s = '+' ∨ s = '-'
  isNumeral : IsNumeral digits

namespace ExponentPart

def text (e : ExponentPart) : List Char := e.mark :: (e.sign.toList ++ e.digits)

def value (e : ExponentPart) : ℤ :=
  if e.sign = some '-' then -numeralValue e.digits else numeralValue e.digits

end ExponentPart

/-- Digits, digits after a point and an exponent, the last two of which may be missing. -/
structure FloatNumeral where
  whole : List Char
  fraction : Option (List Char)
  exponent : Option ExponentPart
  whole_isNumeral : IsNumeral whole
  fraction_isNumeral : ∀ ds ∈ fraction, IsNumeral ds

namespace FloatNumeral

def fractionText (n : FloatNumeral) : List Char := n.fraction.elim [] ('.' :: ·)

def exponentText (n : FloatNumeral) : List Char := n.exponent.elim [] ExponentPart.text

def text (n : FloatNumeral) : List Char := n.whole ++ (n.fractionText ++ n.exponentText)

/-- The number that the digits after the point stand for. -/
def fractionValue (ds : List Char) : ℚ := numeralValue ds / 10 ^ (ds.filter Char.isDigit).length

/-- The rational that is denoted. -/
def value (n : FloatNumeral) : ℚ :=
  (numeralValue n.whole + n.fraction.elim 0 fractionValue) *
    10 ^ n.exponent.elim 0 ExponentPart.value

end FloatNumeral

/-! ## Their patterns -/

section

variable {w u v : List Char} {letter : Char}

theorem mem_digits_iff : w ∈ Rule.digits.language ↔ IsNumeral w := Token.mem_digits_cons

theorem mem_exponent_iff : w ∈ Rule.exponent.language ↔ ∃ e : ExponentPart, e.text = w := by
  rw [Rule.language_exponent, Pattern.mem_single_mul]
  simp only [Language.mem_add, Pattern.mem_single_mul, mem_digits_iff, Bool.or_eq_true, beq_iff_eq]
  constructor
  · rintro ⟨mark, _, rfl, hmark, hds | ⟨sign, ds, rfl, hsign, hds⟩⟩
    · exact ⟨⟨mark, none, _, hmark, by simp, hds⟩, rfl⟩
    · exact ⟨⟨mark, some sign, ds, hmark, by simpa using hsign, hds⟩, rfl⟩
  · rintro ⟨⟨mark, sign, ds, hmark, hsign, hds⟩, rfl⟩
    refine ⟨mark, _, rfl, hmark, ?_⟩
    cases sign with
    | none => exact .inl hds
    | some s => exact .inr ⟨s, ds, rfl, hsign s rfl, hds⟩

theorem mem_optional_exponent_iff : w ∈ (Pattern.optional Rule.exponent).language ↔
    ∃ e : Option ExponentPart, e.elim [] ExponentPart.text = w := by
  rw [Pattern.mem_optional, mem_exponent_iff]
  constructor
  · rintro (rfl | ⟨e, rfl⟩)
    · exact ⟨none, rfl⟩
    · exact ⟨some e, rfl⟩
  · rintro ⟨_ | e, rfl⟩
    · exact .inl rfl
    · exact .inr ⟨e, rfl⟩

/-- A letter behind digits is no digit, so it is the suffix. -/
theorem suffix_eq (hletter : isFloatSuffix letter = true) {front ds : List Char}
    (hu : u = front ++ ds) (hds : IsNumeral ds) (hv : v ∈ (Pattern.optional Rule.suffix).language)
    (h : u ++ v = w ++ [letter]) : u = w ∧ v = [letter] := by
  rw [Pattern.mem_optional, Rule.language_suffix] at hv
  rcases hv with rfl | ⟨c, rfl, -⟩
  · have hlast : letter ∈ ds := by
      obtain ⟨d, rest, rfl, -⟩ := hds
      rw [List.append_nil, hu] at h
      have := congrArg List.getLast? h
      rw [List.getLast?_concat, List.getLast?_append_of_ne_nil _ (List.cons_ne_nil d rest)] at this
      exact List.mem_of_getLast? this
    have := hds.digitChars letter hlast
    rw [Token.isDigitChar_of_isFloatSuffix hletter] at this
    cases this
  · exact List.append_inj' h rfl

namespace FloatNumeral

/-- A float has a fraction, an exponent or a suffix, so that it cannot be taken for an integer. -/
theorem matches_iff : (∃ r ∈ Rule.numbers, r.kind = .float ∧ r.Matches w) ↔
    ∃ (n : FloatNumeral) (s : List Char), s ∈ (Pattern.optional Rule.suffix).language ∧
      n.text ++ s = w ∧ (n.fraction = none → n.exponent = none → s ≠ []) := by
  simp only [Rule.numbers, Rule.tails, List.map_cons, List.map_nil, List.mem_cons, List.not_mem_nil,
    or_false, exists_eq_or_imp, exists_eq_left, reduceCtorEq, false_and, false_or, true_and,
    Rule.Matches, Pattern.mem_seq, mem_digits_iff, mem_optional_exponent_iff, mem_exponent_iff]
  constructor
  · rintro
      (⟨whole, hwhole, _, ⟨_, rfl, _, ⟨ds, hds, _, ⟨_, ⟨e, rfl⟩, s, hs, rfl⟩, rfl⟩, rfl⟩, rfl⟩ |
      ⟨whole, hwhole, _, ⟨_, ⟨e, rfl⟩, s, hs, rfl⟩, rfl⟩ | ⟨whole, hwhole, s, hs, rfl⟩)
    · refine ⟨⟨whole, some ds, e, hwhole, by simpa using hds⟩, s, hs, ?_, by simp⟩
      simp [text, fractionText, exponentText]
    · refine ⟨⟨whole, none, some e, hwhole, by simp⟩, s, hs, ?_, by simp⟩
      simp [text, fractionText, exponentText]
    · have hne : s ≠ [] := by
        rw [Rule.language_suffix] at hs
        obtain ⟨c, rfl, -⟩ := hs
        exact List.cons_ne_nil c []
      refine ⟨⟨whole, none, none, hwhole, by simp⟩, s, Pattern.mem_optional.mpr (.inr hs), ?_,
        fun _ _ => hne⟩
      simp [text, fractionText, exponentText]
  · rintro ⟨⟨whole, fraction, exponent, hwhole, hfraction⟩, s, hs, rfl, hfloat⟩
    simp only [text, fractionText, exponentText, List.append_assoc]
    cases fraction with
    | some ds =>
        exact .inl ⟨whole, hwhole, _, ⟨['.'], rfl, _, ⟨ds, hfraction ds rfl, _,
          ⟨_, ⟨exponent, rfl⟩, s, hs, rfl⟩, rfl⟩, rfl⟩, rfl⟩
    | none =>
        cases exponent with
        | some e => exact .inr (.inl ⟨whole, hwhole, _, ⟨_, ⟨e, rfl⟩, s, hs, rfl⟩, rfl⟩)
        | none =>
            have hsuffix := (Pattern.mem_optional.mp hs).resolve_left (hfloat rfl rfl)
            exact .inr (.inr ⟨whole, hwhole, s, hsuffix, rfl⟩)

theorem exists_last_digits (n : FloatNumeral) :
    ∃ front ds, n.text = front ++ ds ∧ IsNumeral ds := by
  obtain ⟨whole, fraction, exponent, hwhole, hfraction⟩ := n
  cases exponent with
  | some e =>
      refine ⟨whole ++ (fraction.elim [] ('.' :: ·) ++ e.mark :: e.sign.toList), e.digits, ?_,
        e.isNumeral⟩
      simp [text, fractionText, exponentText, ExponentPart.text]
  | none =>
      cases fraction with
      | some ds =>
          refine ⟨whole ++ ['.'], ds, ?_, hfraction ds rfl⟩
          simp [text, fractionText, exponentText]
      | none => exact ⟨[], whole, by simp [text, fractionText, exponentText], hwhole⟩

/-- The floats with a suffix. -/
theorem matches_suffix_iff (hletter : isFloatSuffix letter = true) :
    (∃ r ∈ Rule.numbers, r.kind = .float ∧ r.Matches (w ++ [letter])) ↔
      ∃ n : FloatNumeral, n.text = w := by
  rw [matches_iff]
  constructor
  · rintro ⟨n, s, hs, h, -⟩
    obtain ⟨front, ds, htext, hds⟩ := n.exists_last_digits
    exact ⟨n, (suffix_eq hletter htext hds hs h).1⟩
  · rintro ⟨n, rfl⟩
    refine ⟨n, [letter], Pattern.mem_optional.mpr (.inr ?_), rfl, fun _ _ => List.cons_ne_nil _ _⟩
    rw [Rule.language_suffix]
    exact ⟨letter, rfl, hletter⟩

end FloatNumeral

end

/-! ## What is read -/

namespace IsNumeral

variable {cs : List Char}

theorem areDigits (h : IsNumeral cs) : AreDigits (cs.filter (· != '_')) := by
  rw [h.filter_eq]
  exact fun c hc => (List.mem_filter.mp hc).2

/-- The first digit is not left out. -/
theorem filter_eq_cons (h : IsNumeral cs) :
    ∃ d ds, cs.filter (· != '_') = d :: ds ∧ d ≠ '-' ∧ d ≠ '+' := by
  obtain ⟨d, ds, rfl, hd, -⟩ := h
  have hne (c : Char) (hc : c.isDigit = false) : d ≠ c := by
    rintro rfl
    rw [hc] at hd
    cases hd
  have hkeep : (d != '_') = true := bne_iff_ne.mpr (hne '_' rfl)
  exact ⟨d, _, by rw [List.filter_cons, if_pos hkeep], hne '-' rfl, hne '+' rfl⟩

end IsNumeral

theorem ExponentPart.mark_apart (e : ExponentPart) :
    e.mark.isDigit = false ∧ e.mark ≠ '.' ∧ (e.mark != '_') = true ∧
      (e.mark == 'e' || e.mark == 'E') = true := by
  rcases e.mark_eq with h | h <;> rw [h] <;> decide

theorem ExponentPart.filter_text (e : ExponentPart) :
    e.text.filter (· != '_') = e.mark :: (e.sign.toList ++ e.digits).filter (· != '_') := by
  rw [text, List.filter_cons, if_pos e.mark_apart.2.2.1]

theorem ExponentPart.readExponent_eq (e : ExponentPart) {rest : List Char}
    (hrest : ∀ c ∈ rest.head?, c.isDigit = false) :
    Decimal.readExponent (e.text.filter (· != '_') ++ rest) = e.value := by
  have hdigits := e.isNumeral
  have hmark := e.mark_apart.2.2.2
  have hread : Decimal.ofDigits ((e.digits.filter (· != '_') ++ rest).takeWhile Char.isDigit) =
      numeralValue e.digits := by
    rw [hdigits.areDigits.takeWhile hrest, hdigits.ofDigits_filter]
  rw [e.filter_text, List.filter_append, value]
  unfold Decimal.readExponent
  cases hsign : e.sign with
  | none =>
      obtain ⟨d, ds, hcons, hminus, hplus⟩ := hdigits.filter_eq_cons
      simp only [Option.toList_none, List.filter_nil, List.nil_append, hcons, List.cons_append,
        hmark, if_true, reduceCtorEq, if_false] at hread ⊢
      split
      · rename_i heq
        exact absurd (List.cons.inj heq).1 hminus
      · rename_i heq
        exact absurd (List.cons.inj heq).1 hplus
      · rw [hread]
  | some s =>
      rcases e.sign_eq s hsign with rfl | rfl
      · simp [hmark, hread]
      · simp [hmark, hread]

namespace FloatNumeral

variable {letter : Char} (hletter : isFloatSuffix letter = true)
include hletter

theorem readExponent_eq (n : FloatNumeral) :
    Decimal.readExponent (n.exponentText.filter (· != '_') ++ [letter]) =
      n.exponent.elim 0 ExponentPart.value := by
  have hapart := isFloatSuffix_apart hletter
  unfold exponentText
  cases n.exponent with
  | none => simp [Decimal.readExponent, hapart.2.2.2]
  | some e => exact e.readExponent_eq fun c hc => by cases hc; exact hapart.1

/-- What follows the digits does not go on with them. -/
theorem exponentText_head (n : FloatNumeral) :
    ∀ c ∈ (n.exponentText.filter (· != '_') ++ [letter]).head?, c.isDigit = false ∧ c ≠ '.' := by
  have hapart := isFloatSuffix_apart hletter
  unfold exponentText
  cases n.exponent with
  | none =>
      rintro c ⟨⟩
      exact ⟨hapart.1, hapart.2.1⟩
  | some e =>
      rw [Option.elim_some, e.filter_text]
      rintro c ⟨⟩
      exact ⟨e.mark_apart.1, e.mark_apart.2.1⟩

/-- A float is read as the decimal that it denotes. -/
theorem read_text (n : FloatNumeral) :
    (Decimal.read (NumberToken.withoutUnderscores (String.ofList (n.text ++ [letter])))).toRat =
      n.value := by
  have hhead := n.exponentText_head hletter
  have hexponent := n.readExponent_eq hletter
  have hwhole := n.whole_isNumeral
  have hsuffix : [letter].filter (· != '_') = [letter] := by
    rw [List.filter_cons, if_pos (bne_iff_ne.mpr (isFloatSuffix_apart hletter).2.2.1),
      List.filter_nil]
  rw [NumberToken.withoutUnderscores, String.toList_ofList, List.filter_append, hsuffix, text,
    List.filter_append, List.filter_append, List.append_assoc, List.append_assoc]
  unfold value fractionText
  cases hfraction : n.fraction with
  | none =>
      rw [Option.elim_none, List.filter_nil, List.nil_append,
        Decimal.read_whole hwhole.areDigits hhead, hexponent, hwhole.ofDigits_filter, Decimal.toRat,
        Option.elim_none, add_zero]
  | some ds =>
      have hds := n.fraction_isNumeral ds hfraction
      have hpoint : ('.' :: ds).filter (· != '_') = '.' :: ds.filter (· != '_') := rfl
      have hten : (10 : ℚ) ^ (ds.filter Char.isDigit).length ≠ 0 := by positivity
      rw [Option.elim_some, hpoint, List.cons_append, Decimal.read_fraction hwhole.areDigits
        hds.areDigits fun c hc => (hhead c hc).1, hexponent, Decimal.ofDigits_append,
        hwhole.ofDigits_filter, hds.ofDigits_filter, hds.filter_eq, Decimal.toRat, Option.elim_some,
        fractionValue, zpow_sub₀ (by norm_num), zpow_natCast]
      push_cast
      field_simp

end FloatNumeral

/-! ## Rounding of decimals -/

namespace Format

theorem overflow_le (fmt : Format) : fmt.overflow ≤ 2 ^ Decimal.exponentBound fmt := by
  have hexponent := Nat.one_lt_two_pow fmt.exponentBits_pos.ne'
  have hpos := fmt.infinity_pos
  obtain ⟨k, hk⟩ : ∃ k, 2 ^ fmt.exponentBits = k + 2 := ⟨2 ^ fmt.exponentBits - 2, by omega⟩
  have hinfinity : fmt.infinity = k * 2 ^ fmt.fractionBits + 2 ^ fmt.fractionBits := by
    rw [infinity, Nat.pow_eq, Nat.pow_eq, hk, show k + 2 - 1 = k + 1 from rfl, Nat.succ_mul]
  calc fmt.overflow ≤ fmt.value fmt.infinity := by
        have hlt := fmt.midpoint_lt_value_succ (fmt.infinity - 1)
        rw [Nat.sub_add_cancel hpos] at hlt
        exact hlt.le
    _ = 2 ^ (fmt.minExponent + k + fmt.fractionBits) := by
        rw [hinfinity, value_first, zpow_add₀ two_ne_zero _ (fmt.fractionBits : ℤ), zpow_natCast,
          mul_comm]
    _ ≤ 2 ^ (Decimal.exponentBound fmt : ℤ) := by
        refine zpow_le_zpow_right₀ one_le_two ?_
        have hpow := Nat.two_pow_pos (fmt.exponentBits - 1)
        rw [minExponent, Decimal.exponentBound]
        simp only [Nat.pow_eq]
        omega
    _ = 2 ^ Decimal.exponentBound fmt := zpow_natCast _ _

theorem le_midpoint_zero (fmt : Format) :
    (2 : ℚ) ^ (-(Decimal.exponentBound fmt : ℤ)) ≤ fmt.midpoint 0 := by
  have hpow : 2 ^ fmt.exponentBits = 2 * 2 ^ (fmt.exponentBits - 1) := by
    rw [← pow_succ', Nat.sub_add_cancel fmt.exponentBits_pos]
  have hsignificand : fmt.fieldSignificand 0 = 0 := Nat.zero_sub _
  have hsteps : fmt.fieldSteps 0 = 0 := by rw [fieldSteps, Nat.zero_div]
  rw [midpoint_eq_mul, hsignificand, hsteps, Nat.mul_zero, Nat.zero_add, Nat.cast_one, one_mul]
  refine zpow_le_zpow_right₀ one_le_two ?_
  rw [minExponent, Decimal.exponentBound]
  simp only [Nat.pow_eq]
  omega

end Format

/-- A decimal is read as the number nearest to it, also where its size alone decides. -/
theorem Decimal.toBinary_isRoundingOf {fmt : Format} (d : Decimal) :
    (d.toBinary : Binary fmt).IsRoundingOf d.toRat := by
  have hnonneg : 0 ≤ d.toRat := by
    unfold Decimal.toRat
    positivity
  unfold toBinary
  split
  · rename_i hdigits
    rw [Decimal.toRat, hdigits, Nat.cast_zero, zero_mul]
    exact Binary.zero_isRoundingOf false
  · rename_i hdigits
    rw [Binary.isRoundingOf_iff, abs_of_nonneg hnonneg, decide_eq_false (not_lt.mpr hnonneg)]
    split
    · rename_i hlarge
      refine ⟨Nat.le_antisymm ?_ (fmt.nearestField_le_infinity _), fun _ => rfl⟩
      refine Nat.not_lt.mp fun hlt => ?_
      have hlt := (Format.nearestField_lt_infinity_iff hnonneg).mp hlt
      exact absurd (fmt.overflow_le.trans (two_pow_le_toRat hdigits hlarge)) (not_le.mpr hlt)
    · split
      · rename_i hsmall
        refine ⟨Eq.symm (Nat.le_zero.mp ?_), fun _ => rfl⟩
        rw [Format.nearestField_le_iff hnonneg fmt.infinity_pos]
        refine .inl ((toRat_lt_two_zpow (by omega)).trans_le ?_)
        exact (zpow_le_zpow_right₀ one_le_two hsmall).trans fmt.le_midpoint_zero
      · refine ⟨?_, fun _ => rfl⟩
        rw [← d.num_div_den, ← Format.nearestMagnitude_eq_nearestField _ d.den_pos]
        rfl

/-! ## Half literals -/

theorem FloatNumeral.value_nonneg (n : FloatNumeral) : 0 ≤ n.value := by
  have hfraction : 0 ≤ n.fraction.elim 0 fractionValue := by
    cases n.fraction with
    | none => exact le_rfl
    | some ds =>
        show 0 ≤ fractionValue ds
        unfold fractionValue
        positivity
  unfold value
  positivity

/-- The double nearest to the rational is halfway between two halves, the rational is not, and the
    tie goes to the half on the other side of the rational. -/
def TieMisleads (q : ℚ) : Prop :=
  ∃ x : Binary .double, x.IsRoundingOf q ∧
    ∃ m < Format.half.infinity, x.toRat = Format.half.midpoint m ∧
      ((Format.half.midpoint m < q ∧ m % 2 = 0) ∨ (q < Format.half.midpoint m ∧ m % 2 = 1))

/-- This is when rounding to double precision first changes the result. -/
theorem tieMisleads_iff {q : ℚ} (hq : 0 ≤ q) {x : Binary .double} (hx : x.IsRoundingOf q) :
    TieMisleads q ↔ ¬ Format.half.RoundsThrough .double q := by
  have hvalue {y : Binary .double} (hy : y.IsRoundingOf q) :
      |y.toRat| = Format.double.value (Format.double.nearestField q) := by
    rw [Binary.abs_toRat_eq_value, (Binary.isRoundingOf_iff.mp hy).1, abs_of_nonneg hq]
  rw [Format.double_refines_half.roundsThrough_iff hq]
  constructor
  · rintro ⟨y, hy, m, hm, hmid, hside⟩ hties
    have hpos := Format.half.midpoint_pos m
    rw [← hvalue hy, hmid, abs_of_pos hpos] at hties
    obtain ⟨hodd, heven⟩ := hties m hm rfl
    rcases hside with ⟨hgt, hparity⟩ | ⟨hlt, hparity⟩
    · have := hodd hgt
      omega
    · have := heven hlt
      omega
  · intro hties
    simp only [not_forall, not_and_or] at hties
    obtain ⟨m, hm, hmid, hside⟩ := hties
    have hpos := Format.half.midpoint_pos m
    rw [← hvalue hx] at hmid
    refine ⟨x, hx, m, hm, ?_, ?_⟩
    · -- the double is not negative
      have hne : x.magnitude.val ≠ 0 := fun hzero => by
        rw [Binary.toRat_eq_zero_iff.mpr hzero, abs_zero] at hmid
        exact hpos.ne hmid
      have hsign := (Binary.isRoundingOf_iff.mp hx).2 hne
      rw [decide_eq_false (not_lt.mpr hq)] at hsign
      rw [← hmid, Binary.abs_toRat_eq_value, Binary.toRat_eq_value, hsign,
        if_neg Bool.false_ne_true]
    · rcases hside with ⟨hgt, hparity⟩ | ⟨hlt, hparity⟩
      · exact .inl ⟨hgt, by omega⟩
      · exact .inr ⟨hlt, by omega⟩

/-- No tie misleads where the double is exact. -/
theorem not_tieMisleads_toRat {z : Binary .double} (hz : z.isFinite = true) :
    ¬ TieMisleads z.toRat := by
  rintro ⟨x, hx, m, -, hmid, hside⟩
  rw [(hx.eq_of_toRat hz).2] at hmid
  rw [← hmid] at hside
  rcases hside with ⟨hlt, -⟩ | ⟨hlt, -⟩ <;> exact lt_irrefl _ hlt

section

variable (n : FloatNumeral) {letter : Char} (hletter : letter = 'h' ∨ letter = 'H')
include hletter

theorem isFloatSuffix_half : isFloatSuffix letter = true := by
  rcases hletter with rfl | rfl <;> rfl

/-- A half literal is read in double precision and rounded. -/
theorem FloatNumeral.exists_half : ∃ x : Binary .double, x.IsRoundingOf n.value ∧
    NumberToken.float (String.ofList (n.text ++ [letter])) = .float16 x.roundHalf := by
  have hsuffix := isFloatSuffix_half hletter
  have hread := n.read_text hsuffix
  set cs := NumberToken.withoutUnderscores (String.ofList (n.text ++ [letter])) with hcs
  have hlast : cs.getLast? = some letter := by
    have hkeep : (letter != '_') = true := bne_iff_ne.mpr (isFloatSuffix_apart hsuffix).2.2.1
    rw [hcs, NumberToken.withoutUnderscores, String.toList_ofList, List.filter_append,
      List.filter_cons, if_pos hkeep, List.filter_nil, List.getLast?_concat]
  refine ⟨(Decimal.read cs).toBinary, hread ▸ (Decimal.read cs).toBinary_isRoundingOf, ?_⟩
  rw [NumberToken.float]
  simp only [← hcs, hlast]
  rcases hletter with rfl | rfl <;> rfl

theorem FloatNumeral.scan_text : Token.scan (String.ofList (n.text ++ [letter])) =
    [⟨.float, ⟨0, byteLength (n.text ++ [letter])⟩, String.ofList (n.text ++ [letter])⟩] := by
  obtain ⟨r, hr, hkind, hmatch⟩ := (matches_suffix_iff (isFloatSuffix_half hletter)).mpr ⟨n, rfl⟩
  obtain ⟨d, ds, heq, hd, hmunch⟩ := Token.munchNumber_of_mem hr hmatch
  rw [hkind] at hmunch
  rw [Token.scan, String.toList_ofList, heq, Token.scanFrom_number hd hmunch, Nat.zero_add]

end

/-- Half literals are rounded twice. The floats with the suffix of halves are the numerals with it,
    and each is read, wherever it stands, as the double nearest to the rational that it denotes,
    rounded to half precision. This is the half nearest to the rational, ties to even, infinity from
    65520 on, if and only if no tie misleads. -/
theorem half_literals_nearest_iff {letter : Char} (hletter : letter = 'h' ∨ letter = 'H') :
    (∀ w, (∃ r ∈ Rule.numbers, r.kind = .float ∧ r.Matches (w ++ [letter])) ↔
      ∃ n : FloatNumeral, n.text = w) ∧
    ∀ n : FloatNumeral, ∃ v : Binary .single,
      (∀ source before t after, Token.significant source = before ++ t :: after →
        t.erase = ⟨.float, String.ofList (n.text ++ [letter])⟩ →
          Fragment.Reads source t t.span (.float16 v)) ∧
      Fragment.parse (String.ofList (n.text ++ [letter])) =
        .ok ⟨[.literal ⟨0, byteLength (n.text ++ [letter])⟩ (.float16 v)]⟩ ∧
      (∃ x : Binary .double, x.IsRoundingOf n.value ∧ v = x.roundHalf) ∧
      (v.IsHalfOf n.value ↔ ¬ TieMisleads n.value) := by
  refine ⟨fun w => FloatNumeral.matches_suffix_iff (isFloatSuffix_half hletter), fun n => ?_⟩
  obtain ⟨x, hx, hfloat⟩ := n.exists_half hletter
  refine ⟨x.roundHalf, fun source before t after htokens ht => ?_, ?_, ⟨x, hx, rfl⟩, ?_⟩
  · have hkind : t.kind = .float := congrArg Lexeme.kind ht
    have htext : t.lexeme = String.ofList (n.text ++ [letter]) := congrArg Lexeme.text ht
    obtain ⟨rest, hrest⟩ :=
      Token.tokens_of_significant htokens (by rw [hkind]; exact TokenKind.noConfusion)
    refine Fragment.reads_literal hrest ?_
    rw [Token.literal?, hkind, htext, ← hfloat]
  · rw [Fragment.parse_of_number (n.scan_text hletter) rfl, hfloat]
    rfl
  · have hvalue := n.value_nonneg
    rw [hx.isHalfOf_iff Format.double_refines_half x.roundHalf_double, abs_of_nonneg hvalue,
      tieMisleads_iff hvalue hx, not_not]

theorem isNumeral_cons {d : Char} (ds : List Char) (hd : d.isDigit = true)
    (hds : ds.all isDigitChar = true) : IsNumeral (d :: ds) :=
  ⟨d, ds, rfl, hd, List.all_eq_true.mp hds⟩

/-- The midpoint of 1 and the next half, with groups of digits and an exponent. -/
def oneMidpoint : FloatNumeral where
  whole := ['1', '0', '_']
  fraction := some "004_882_812_5".toList
  exponent := some ⟨'E', some '-', ['1'], .inr rfl, by simp, isNumeral_cons [] rfl rfl⟩
  whole_isNumeral := isNumeral_cons _ rfl rfl
  fraction_isNumeral := by
    rintro ds ⟨⟩
    exact isNumeral_cons "04_882_812_5".toList rfl (by decide +kernel)

theorem oneMidpoint_value : oneMidpoint.value = 2049 / 2048 := by
  have hwhole : numeralValue oneMidpoint.whole = 10 := by decide +kernel
  have hfraction : numeralValue "004_882_812_5".toList = 48828125 := by decide +kernel
  have hplaces : ("004_882_812_5".toList.filter Char.isDigit).length = 10 := by decide +kernel
  have hexponent : oneMidpoint.exponent.elim 0 ExponentPart.value = -1 := by decide +kernel
  rw [FloatNumeral.value, hwhole, hexponent]
  show ((10 : Nat) + FloatNumeral.fractionValue "004_882_812_5".toList) * (10 : ℚ) ^ (-1 : ℤ) = _
  rw [FloatNumeral.fractionValue, hfraction, hplaces]
  norm_num

/-- A tie that is written goes to the even half. -/
theorem tie_literal_nearest :
    oneMidpoint.value = 2049 / 2048 ∧
    Fragment.parse "10_.004_882_812_5E-1h" =
      .ok ⟨[.literal ⟨0, 21⟩ (.float16 (.ofBits 0x3f800000))]⟩ ∧
    (Binary.ofBits 0x3f800000 : Binary .single).IsHalfOf oneMidpoint.value := by
  have htext : String.ofList (oneMidpoint.text ++ ['h']) = "10_.004_882_812_5E-1h" := by
    decide +kernel
  have hlength : byteLength (oneMidpoint.text ++ ['h']) = 21 := by decide +kernel
  have hfloat : NumberToken.float (String.ofList (oneMidpoint.text ++ ['h'])) =
      .float16 (.ofBits 0x3f800000) := by decide +kernel
  have hparse : Fragment.parse "10_.004_882_812_5E-1h" =
      .ok ⟨[.literal ⟨0, 21⟩ (.float16 (.ofBits 0x3f800000))]⟩ := by
    rw [← htext, Fragment.parse_of_number (oneMidpoint.scan_text (.inl rfl)) rfl, hfloat, hlength]
    rfl
  obtain ⟨v, -, hparse', -, hiff⟩ := (half_literals_nearest_iff (.inl rfl)).2 oneMidpoint
  rw [htext, hparse, hlength] at hparse'
  cases hparse'
  have hdouble : (Binary.ofBits 0x3ff0020000000000 : Binary .double).toRat = oneMidpoint.value := by
    have hsignificand : (Binary.ofBits 0x3ff0020000000000 : Binary .double).signedSignificand =
        2049 * 2 ^ 41 := by decide +kernel
    have hexponent : (Binary.ofBits 0x3ff0020000000000 : Binary .double).exponent = -52 := by
      decide +kernel
    rw [oneMidpoint_value, Binary.toRat, hsignificand, hexponent]
    norm_num
  refine ⟨oneMidpoint_value, hparse, hiff.mpr ?_⟩
  rw [← hdouble]
  exact not_tieMisleads_toRat (by decide +kernel)

/-- A numeral just above that midpoint. -/
def aboveMidpoint : FloatNumeral where
  whole := ['1']
  fraction := some "00048828125000000000000000000000000000001_".toList
  exponent := none
  whole_isNumeral := isNumeral_cons _ rfl rfl
  fraction_isNumeral := by
    rintro ds ⟨⟩
    exact isNumeral_cons "0048828125000000000000000000000000000001_".toList rfl (by decide +kernel)

theorem aboveMidpoint_value : aboveMidpoint.value =
    (100048828125000000000000000000000000000001 : Nat) / (10 ^ 41 : Nat) := by
  have hwhole : numeralValue aboveMidpoint.whole = 1 := by decide +kernel
  have hfraction : numeralValue "00048828125000000000000000000000000000001_".toList =
      48828125000000000000000000000000000001 := by decide +kernel
  have hplaces : ("00048828125000000000000000000000000000001_".toList.filter Char.isDigit).length =
      41 := by decide +kernel
  rw [FloatNumeral.value, hwhole]
  show ((1 : Nat) + FloatNumeral.fractionValue _) * (10 : ℚ) ^ (0 : ℤ) = _
  rw [FloatNumeral.fractionValue, hfraction, hplaces]
  norm_num

/-- In double precision this numeral is the midpoint, and the tie goes down. -/
theorem above_midpoint_rounded_down :
    Fragment.parse "1.00048828125000000000000000000000000000001_H" =
      .ok ⟨[.literal ⟨0, 45⟩ (.float16 (.ofBits 0x3f800000))]⟩ ∧
    ¬ (Binary.ofBits 0x3f800000 : Binary .single).IsHalfOf aboveMidpoint.value ∧
    (Binary.ofBits 0x3f802000 : Binary .single).IsHalfOf aboveMidpoint.value := by
  have htext : String.ofList (aboveMidpoint.text ++ ['H']) =
      "1.00048828125000000000000000000000000000001_H" := by decide +kernel
  have hlength : byteLength (aboveMidpoint.text ++ ['H']) = 45 := by decide +kernel
  have hfloat : NumberToken.float (String.ofList (aboveMidpoint.text ++ ['H'])) =
      .float16 (.ofBits 0x3f800000) := by decide +kernel
  have hpos : 0 ≤ aboveMidpoint.value := aboveMidpoint.value_nonneg
  have hnearest : Format.half.nearestField |aboveMidpoint.value| = 0x3c01 := by
    rw [abs_of_nonneg hpos, aboveMidpoint_value,
      ← Format.nearestMagnitude_eq_nearestField _ (by norm_num)]
    decide +kernel
  have hnext : (Binary.ofBits 0x3f802000 : Binary .single).IsHalfOf aboveMidpoint.value := by
    refine ⟨.ofBits 0x3c01, Binary.isRoundingOf_iff.mpr ⟨hnearest.symm, fun _ => ?_⟩, ?_⟩
    · rw [decide_eq_false (not_lt.mpr hpos)]
      decide +kernel
    · have hconvert : ((Binary.ofBits 0x3c01 : Binary .half).convert : Binary .single) =
          .ofBits 0x3f802000 := by decide +kernel
      rw [← hconvert]
      exact Binary.same_convert Format.half_embeds_single _
  refine ⟨?_, fun hone => ?_, hnext⟩
  · rw [← htext, Fragment.parse_of_number (aboveMidpoint.scan_text (.inr rfl)) rfl, hfloat, hlength]
    rfl
  · have hsame := (hone.abs_toRat_eq (by decide +kernel)).trans
      (hnext.abs_toRat_eq (by decide +kernel)).symm
    rw [Binary.abs_toRat_eq_value, Binary.abs_toRat_eq_value] at hsame
    exact absurd (Format.single.value_strictMono.injective hsame) (by decide +kernel)

end ScalarLang
