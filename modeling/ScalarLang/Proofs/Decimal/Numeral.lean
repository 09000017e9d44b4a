import Mathlib
import ScalarLang.Decimal.Layout
import ScalarLang.Parse.Number
import ScalarLang.Proofs.Decimal.Shortest
import ScalarLang.Proofs.Token.Proper

/-
  Numerals: decimals as they are written.
  A numeral has digits, a fraction or an exponent, so that it cannot be taken for an integer. It is
  one token, also with a suffix that chooses a type, and it is read as its decimal. The text of a
  finite number is a numeral whose decimal the number attracts, so it is read as that number.
-/

namespace ScalarLang

/-! ## Digits -/

theorem Decimal.ofDigits_eq (cs : List Char) : ofDigits cs = Nat.ofDigitChars 10 cs 0 :=
  Nat.ofDigitChars_eq_foldl.symm

theorem Decimal.ofDigits_append (cs ds : List Char) :
    ofDigits (cs ++ ds) = 10 ^ ds.length * ofDigits cs + ofDigits ds := by
  rw [ofDigits_eq, ofDigits_eq, ofDigits_eq, Nat.ofDigitChars_append,
    Nat.ofDigitChars_eq_ofDigitChars_zero]

theorem Decimal.ofDigits_zeros (n : Nat) : ofDigits (List.replicate n '0') = 0 := by
  rw [ofDigits_eq, Nat.ofDigitChars_replicate_zero, Nat.mul_zero]

theorem Decimal.ofDigits_toDigits (n : Nat) : ofDigits (Nat.toDigits 10 n) = n := by
  rw [ofDigits_eq, Nat.ofDigitChars_ten_toDigits]

/-- Characters that are all digits. -/
def AreDigits (cs : List Char) : Prop := ∀ c ∈ cs, c.isDigit = true

namespace AreDigits

variable {cs ds rest : List Char}

theorem toDigits (n : Nat) : AreDigits (Nat.toDigits 10 n) :=
  fun _ hc => Nat.isDigit_of_mem_toDigits (by decide) (by decide) hc

theorem append (h : AreDigits cs) (h' : AreDigits ds) : AreDigits (cs ++ ds) :=
  fun c hc => (List.mem_append.mp hc).elim (h c) (h' c)

theorem zeros (n : Nat) : AreDigits (List.replicate n '0') :=
  fun c hc => by rw [List.eq_of_mem_replicate hc]; rfl

theorem sublist (h : AreDigits cs) (hds : ds.Sublist cs) : AreDigits ds :=
  fun c hc => h c (hds.subset hc)

theorem takeWhile (h : AreDigits cs) (hrest : ∀ c ∈ rest.head?, c.isDigit = false) :
    (cs ++ rest).takeWhile Char.isDigit = cs := by
  rw [Token.takeWhile_append_of_head hrest, List.takeWhile_eq_self_iff.mpr h]

theorem dropWhile (h : AreDigits cs) (hrest : ∀ c ∈ rest.head?, c.isDigit = false) :
    (cs ++ rest).dropWhile Char.isDigit = rest := by
  refine (List.append_right_inj cs).mp ?_
  nth_rewrite 1 [← h.takeWhile hrest]
  exact List.takeWhile_append_dropWhile

theorem digitRun (h : AreDigits cs) (rest : List Char) :
    Token.digitRun (cs ++ rest) = cs.length + Token.digitRun rest := by
  have hall : ∀ c ∈ cs, isDigitChar c = true := fun c hc => by simp [isDigitChar, h c hc]
  rw [Token.digitRun, List.takeWhile_append_of_pos hall, List.length_append]
  rfl

theorem digitsLength (h : AreDigits cs) (hne : cs ≠ []) (rest : List Char) :
    Token.digitsLength (cs ++ rest) = cs.length + Token.digitRun rest := by
  cases cs with
  | nil => exact absurd rfl hne
  | cons c cs =>
      have hcs : AreDigits cs := h.sublist (List.sublist_cons_self c cs)
      simp only [List.cons_append, Token.digitsLength, h c List.mem_cons_self, if_true,
        hcs.digitRun rest, List.length_cons]
      omega

theorem filter (h : AreDigits cs) : cs.filter (· != '_') = cs := by
  refine List.filter_eq_self.mpr fun c hc => bne_iff_ne.mpr fun hcu => ?_
  rw [hcu] at hc
  exact absurd (h _ hc) (by decide)

end AreDigits

/-- The digits of a number start with a digit, which is no sign. -/
theorem toDigits_eq_cons (n : Nat) : ∃ d ds, Nat.toDigits 10 n = d :: ds ∧ d ≠ '-' ∧ d ≠ '+' := by
  obtain ⟨d, ds, hd⟩ := List.exists_cons_of_ne_nil (Nat.toDigits_ne_nil (n := n) (b := 10))
  have hdigit : d.isDigit = true := AreDigits.toDigits n d (hd ▸ List.mem_cons_self)
  refine ⟨d, ds, hd, ?_, ?_⟩ <;> rintro rfl <;> exact absurd hdigit (by decide)

/-- An integer is written as the digits of its magnitude, after a minus if it is negative. -/
theorem toList_toString_int (k : ℤ) :
    (toString k).toList = (if k < 0 then ['-'] else []) ++ Nat.toDigits 10 k.natAbs := by
  rw [Int.toString_eq_repr]
  cases k with
  | ofNat m => simp [Int.repr]
  | negSucc m => simp [Int.repr, Int.negSucc_lt_zero]

/-! ## Numerals -/

/-- Digits, then a fraction, an exponent or both. -/
structure Numeral where
  whole : List Char
  fraction : List Char
  exponent : Option ℤ
  whole_ne_nil : whole ≠ []
  whole_digits : AreDigits whole
  fraction_digits : AreDigits fraction
  is_float : fraction ≠ [] ∨ exponent.isSome = true

namespace Numeral

/-- The point and the digits after it. -/
def pointText (n : Numeral) : List Char := if n.fraction = [] then [] else '.' :: n.fraction

def exponentText (n : Numeral) : List Char :=
  match n.exponent with
  | none => []
  | some k => 'e' :: (toString k).toList

def text (n : Numeral) : List Char := n.whole ++ (n.pointText ++ n.exponentText)

/-- The decimal that is written. -/
def decimal (n : Numeral) : Decimal :=
  ⟨Decimal.ofDigits (n.whole ++ n.fraction), n.exponent.getD 0 - n.fraction.length⟩

/-- The letter that chooses a type, if there is one, behind an underscore. -/
def suffixText (letter : Option Char) : List Char := letter.elim [] fun c => ['_', c]

end Numeral

/-! ## Reading -/

/-- The letter of a type has no part in the number before it. -/
theorem isFloatSuffix_apart {c : Char} (h : isFloatSuffix c = true) :
    c.isDigit = false ∧ c ≠ '.' ∧ c ≠ '_' ∧ (c == 'e' || c == 'E') = false := by
  simp only [isFloatSuffix, Bool.or_eq_true, beq_iff_eq, or_assoc] at h
  rcases h with rfl | rfl | rfl | rfl | rfl | rfl <;> decide

namespace Decimal

variable {whole fraction rest : List Char}

theorem read_whole (hwhole : AreDigits whole)
    (hrest : ∀ c ∈ rest.head?, c.isDigit = false ∧ c ≠ '.') :
    read (whole ++ rest) = ⟨ofDigits whole, readExponent rest⟩ := by
  have hhead : ∀ c ∈ rest.head?, c.isDigit = false := fun c hc => (hrest c hc).1
  unfold read
  rw [hwhole.takeWhile hhead, hwhole.dropWhile hhead]
  split
  · exact absurd rfl (hrest '.' rfl).2
  · rfl

theorem read_fraction (hwhole : AreDigits whole) (hfraction : AreDigits fraction)
    (hrest : ∀ c ∈ rest.head?, c.isDigit = false) :
    read (whole ++ '.' :: (fraction ++ rest)) =
      ⟨ofDigits (whole ++ fraction), readExponent rest - fraction.length⟩ := by
  have hpoint : ∀ c ∈ ('.' :: (fraction ++ rest)).head?, c.isDigit = false := by
    rintro c ⟨⟩
    rfl
  unfold read
  rw [hwhole.takeWhile hpoint, hwhole.dropWhile hpoint]
  simp only [hfraction.takeWhile hrest, hfraction.dropWhile hrest]

theorem readExponent_toString (k : ℤ) (hrest : ∀ c ∈ rest.head?, c.isDigit = false) :
    readExponent ('e' :: ((toString k).toList ++ rest)) = k := by
  have hdigits := AreDigits.toDigits k.natAbs
  have hread : ofDigits ((Nat.toDigits 10 k.natAbs ++ rest).takeWhile Char.isDigit) = k.natAbs := by
    rw [hdigits.takeWhile hrest, ofDigits_toDigits]
  rw [toList_toString_int]
  unfold readExponent
  by_cases hk : k < 0
  · simp only [beq_self_eq_true, Bool.true_or, if_true, if_pos hk, List.cons_append,
      List.nil_append, hread]
    omega
  · obtain ⟨d, ds, hd, hminus, hplus⟩ := toDigits_eq_cons k.natAbs
    rw [hd] at hread ⊢
    simp only [beq_self_eq_true, Bool.true_or, if_true, if_neg hk, List.nil_append,
      List.cons_append] at hread ⊢
    split
    · rename_i heq
      exact absurd (List.cons.inj heq).1 hminus
    · rename_i heq
      exact absurd (List.cons.inj heq).1 hplus
    · rw [hread]
      omega

end Decimal

namespace Numeral

variable (n : Numeral) {letter : Option Char} (hletter : ∀ c ∈ letter, isFloatSuffix c = true)
include hletter

theorem exponentText_head : ∀ c ∈ (n.exponentText ++ letter.toList).head?,
    c.isDigit = false ∧ c ≠ '.' := by
  unfold exponentText
  rcases n.exponent with _ | k
  · intro c hc
    have hsuffix := hletter c (by simpa [Option.head?_toList] using hc)
    exact ⟨(isFloatSuffix_apart hsuffix).1, (isFloatSuffix_apart hsuffix).2.1⟩
  · rintro c ⟨⟩
    decide

theorem readExponent_eq :
    Decimal.readExponent (n.exponentText ++ letter.toList) = n.exponent.getD 0 := by
  unfold exponentText
  rcases n.exponent with _ | k
  · rcases letter with _ | c
    · rfl
    · simp [Decimal.readExponent, (isFloatSuffix_apart (hletter c rfl)).2.2.2]
  · refine Decimal.readExponent_toString k fun c hc => ?_
    exact (isFloatSuffix_apart (hletter c (by simpa [Option.head?_toList] using hc))).1

/-- A numeral is read as its decimal. -/
theorem read_text : Decimal.read (n.text ++ letter.toList) = n.decimal := by
  have hhead := n.exponentText_head hletter
  unfold text pointText decimal
  by_cases hfraction : n.fraction = []
  · rw [if_pos hfraction, List.append_assoc, List.append_assoc, List.nil_append,
      Decimal.read_whole n.whole_digits hhead, n.readExponent_eq hletter]
    simp [hfraction]
  · rw [if_neg hfraction, List.append_assoc, List.append_assoc, List.cons_append,
      Decimal.read_fraction n.whole_digits n.fraction_digits fun c hc => (hhead c hc).1,
      n.readExponent_eq hletter]

end Numeral

/-! ## Scanning -/

/-- Digits are one token together with what follows them, if that ends a number. -/
theorem AreDigits.isProper {kind : TokenKind} {ds rest : List Char} (h : AreDigits ds)
    (hne : ds ≠ []) (htail : Token.numberTail (rest.drop (Token.digitRun rest)) =
      (kind, (rest.drop (Token.digitRun rest)).length)) :
    Lexeme.isProper ⟨kind, String.ofList (ds ++ rest)⟩ = true := by
  obtain ⟨c, cs, rfl⟩ := List.exists_cons_of_ne_nil hne
  have hdigit := h c List.mem_cons_self
  have hblank : isBlank c = false := by
    simp only [isBlank, Bool.or_eq_false_iff, beq_eq_false_iff_ne]
    refine ⟨⟨?_, ?_⟩, ?_⟩ <;> rintro rfl <;> exact absurd hdigit (by decide)
  have hrun := (h.sublist (List.sublist_cons_self c cs)).digitRun rest
  have hle := Token.digitRun_le rest
  have hmunch : Token.munch c (cs ++ rest) = (kind, (cs ++ rest).length) := by
    rw [Token.munch, if_pos hdigit, Token.munchNumber]
    simp only [hrun, List.drop_length_add_append, htail, List.length_drop, List.length_append]
    exact congrArg _ (by omega)
  simp [Lexeme.isProper, hblank, hmunch]

theorem Token.exponentLength_toString (k : ℤ) (rest : List Char) :
    exponentLength ('e' :: ((toString k).toList ++ rest)) =
      1 + (toString k).toList.length + digitRun rest := by
  have hlength := (AreDigits.toDigits k.natAbs).digitsLength Nat.toDigits_ne_nil rest
  rw [toList_toString_int]
  obtain ⟨d, ds, hd, hminus, hplus⟩ := toDigits_eq_cons k.natAbs
  rw [hd] at hlength ⊢
  have hpos : (d :: ds).length + digitRun rest ≠ 0 := by simp
  have he : ('e' == 'e' || 'e' == 'E') = true := rfl
  by_cases hk : k < 0
  · have hsign : ('-' == '+' || '-' == '-') = true := rfl
    simp only [if_pos hk, List.cons_append, List.nil_append, exponentLength] at hlength ⊢
    rw [if_pos he, if_pos hsign, hlength, if_neg hpos]
    simp only [List.length_cons]
    omega
  · have hsign : (d == '+' || d == '-') = false := by simp [hminus, hplus]
    simp only [if_neg hk, List.cons_append, List.nil_append, exponentLength, hsign] at hlength ⊢
    rw [if_pos he, if_neg Bool.false_ne_true, hlength, if_neg hpos]
    omega

namespace Numeral

variable (n : Numeral) {letter : Option Char} (hletter : ∀ c ∈ letter, isFloatSuffix c = true)
include hletter

theorem drop_suffixText : (suffixText letter).drop (Token.digitRun (suffixText letter)) =
    letter.toList := by
  rcases letter with _ | c
  · rfl
  · have hapart := isFloatSuffix_apart (hletter c rfl)
    simp [suffixText, Token.digitRun, isDigitChar, hapart.1, hapart.2.2.1]

theorem suffixLength_letter : Token.suffixLength letter.toList = letter.toList.length := by
  rcases letter with _ | c
  · rfl
  · simp [Token.suffixLength, hletter c rfl]

/-- The digits that are left, the exponent and the suffix are all that is there. -/
theorem scaleLength_exponentText :
    let rest := n.exponentText ++ suffixText letter
    Token.digitRun rest + Token.scaleLength (rest.drop (Token.digitRun rest)) = rest.length := by
  have hdrop := drop_suffixText hletter
  have hrun := Token.digitRun_le (suffixText letter)
  have hlength := congrArg List.length hdrop
  rw [List.length_drop, ← suffixLength_letter hletter] at hlength
  unfold exponentText
  rcases n.exponent with _ | k
  · have hexponent : Token.exponentLength letter.toList = 0 := by
      rcases letter with _ | c
      · rfl
      · simp [Token.exponentLength, (isFloatSuffix_apart (hletter c rfl)).2.2.2]
    simp only [List.nil_append, hdrop, Token.scaleLength, hexponent, List.drop_zero]
    omega
  · have hexponent := Token.exponentLength_toString k (suffixText letter)
    have hrest : ('e' :: ((toString k).toList ++ suffixText letter)).drop
        (1 + (toString k).toList.length + Token.digitRun (suffixText letter)) = letter.toList := by
      rw [Nat.add_assoc, Nat.add_comm 1, List.drop_succ_cons, List.drop_length_add_append, hdrop]
    have hnone : Token.digitRun ('e' :: ((toString k).toList ++ suffixText letter)) = 0 := rfl
    simp only [List.cons_append, hnone, List.drop_zero, Token.scaleLength, hexponent, hrest,
      List.length_cons, List.length_append]
    omega

/-- After the first digits, the rest of a numeral and its suffix end the number. -/
theorem numberTail_text :
    let rest := n.pointText ++ n.exponentText ++ suffixText letter
    Token.numberTail rest = (.float, rest.length) ∧ Token.digitRun rest = 0 := by
  have hscale := n.scaleLength_exponentText hletter
  unfold pointText
  by_cases hfraction : n.fraction = []
  · obtain ⟨k, hk⟩ := Option.isSome_iff_exists.mp (n.is_float.resolve_left (not_not.mpr hfraction))
    have hexponent := Token.exponentLength_toString k (suffixText letter)
    simp only [if_pos hfraction, List.nil_append, exponentText, hk, List.cons_append] at hscale ⊢
    refine ⟨?_, rfl⟩
    rw [Token.numberTail_exponent (by decide) (by decide) (by rw [hexponent]; omega), ← hscale]
    exact congrArg _ (Nat.zero_add _).symm
  · have hdigits := n.fraction_digits.digitsLength hfraction (n.exponentText ++ suffixText letter)
    have hpos := List.length_pos_iff.mpr hfraction
    simp only [if_neg hfraction, List.cons_append, List.append_assoc]
    refine ⟨?_, rfl⟩
    rw [Token.numberTail_fraction (by rw [hdigits]; omega), hdigits, List.drop_length_add_append,
      List.length_cons, List.length_append, ← hscale]
    exact congrArg _ (by omega)

/-- A numeral with a suffix is one token. -/
theorem isProper :
    Lexeme.isProper ⟨.float, String.ofList (n.text ++ suffixText letter)⟩ = true := by
  obtain ⟨htail, hnone⟩ := n.numberTail_text hletter
  rw [text, List.append_assoc]
  refine n.whole_digits.isProper n.whole_ne_nil ?_
  rw [hnone, List.drop_zero, htail]

end Numeral

/-! ## Literals -/

namespace Numeral

variable (n : Numeral)

theorem underscore_not_mem_text : '_' ∉ n.text := by
  have hwhole : '_' ∉ n.whole := fun h => absurd (n.whole_digits _ h) (by decide)
  have hfraction : '_' ∉ n.fraction := fun h => absurd (n.fraction_digits _ h) (by decide)
  have hpoint : '_' ∉ n.pointText := by
    unfold pointText
    split <;> simp [hfraction]
  have hexponent : '_' ∉ n.exponentText := by
    unfold exponentText
    rcases n.exponent with _ | k
    · simp
    · have hdigits : '_' ∉ Nat.toDigits 10 k.natAbs := Nat.underscore_not_in_toDigits
      simp only [toList_toString_int]
      by_cases hk : k < 0 <;> simp [hk, hdigits]
  simp [text, hwhole, hpoint, hexponent]

theorem withoutUnderscores_text {letter : Option Char}
    (hletter : ∀ c ∈ letter, isFloatSuffix c = true) :
    NumberToken.withoutUnderscores (String.ofList (n.text ++ suffixText letter)) =
      n.text ++ letter.toList := by
  have htext : n.text.filter (· != '_') = n.text :=
    List.filter_eq_self.mpr fun c hc => bne_iff_ne.mpr fun h => n.underscore_not_mem_text (h ▸ hc)
  have hsuffix : (suffixText letter).filter (· != '_') = letter.toList := by
    rcases letter with _ | c
    · rfl
    · simp [suffixText, (isFloatSuffix_apart (hletter c rfl)).2.2.1]
  rw [NumberToken.withoutUnderscores, String.toList_ofList, List.filter_append, htext, hsuffix]

/-- A numeral ends with a digit. -/
theorem getLast?_text : ∃ d, n.text.getLast? = some d ∧ d.isDigit = true := by
  have hlast {before ds : List Char} (hds : AreDigits ds) (hne : ds ≠ []) :
      ∃ d, (before ++ ds).getLast? = some d ∧ d.isDigit = true := by
    refine ⟨ds.getLast hne, ?_, hds _ (List.getLast_mem hne)⟩
    rw [List.getLast?_append_of_ne_nil _ hne, List.getLast?_eq_some_getLast hne]
  unfold text exponentText
  rcases hexponent : n.exponent with _ | k
  · have hfraction : n.fraction ≠ [] := n.is_float.resolve_right (by simp [hexponent])
    rw [pointText, if_neg hfraction, List.append_nil, List.append_cons]
    exact hlast n.fraction_digits hfraction
  · simp only [toList_toString_int, ← List.append_assoc, ← List.cons_append]
    exact hlast (AreDigits.toDigits _) Nat.toDigits_ne_nil

/-- The literal of a decimal, of the type that a letter chooses. -/
def literalOf (letter : Option Char) (d : Decimal) : Literal :=
  match letter with
  | some 'f' | some 'F' => .float32 d.toBinary
  | some 'h' | some 'H' => .float16 (d.toBinary : Binary .double).roundHalf
  | _ => .float64 d.toBinary

/-- A numeral with a suffix is a literal of its decimal. -/
theorem float_text {letter : Option Char} (hletter : ∀ c ∈ letter, isFloatSuffix c = true) :
    NumberToken.float (String.ofList (n.text ++ suffixText letter)) =
      literalOf letter n.decimal := by
  have hread := n.read_text hletter
  have hwithout := n.withoutUnderscores_text hletter
  unfold NumberToken.float
  simp only [hwithout, hread]
  rcases letter with _ | c
  · -- a digit chooses nothing
    obtain ⟨d, hlast, hdigit⟩ := n.getLast?_text
    rw [Option.toList_none, List.append_nil, hlast]
    split
    case h_5 => rfl
    all_goals
      rename_i heq
      cases heq
      exact absurd hdigit (by decide)
  · rw [Option.toList_some, List.getLast?_concat]
    rfl

end Numeral

/-! ## Writing -/

namespace Numeral

section Positional

variable {ds : List Char} (hds : AreDigits ds) (hne : ds ≠ [])

/-- Zeros between the point and the digits. -/
def below (zeros : Nat) : Numeral where
  whole := ['0']
  fraction := List.replicate zeros '0' ++ ds
  exponent := none
  whole_ne_nil := List.cons_ne_nil _ _
  whole_digits := .zeros 1
  fraction_digits := (AreDigits.zeros zeros).append hds
  is_float := Or.inl (List.append_ne_nil_of_right_ne_nil _ hne)

/-- Zeros between the digits and the point. -/
def above (zeros : Nat) : Numeral where
  whole := ds ++ List.replicate zeros '0'
  fraction := ['0']
  exponent := none
  whole_ne_nil := List.append_ne_nil_of_left_ne_nil hne _
  whole_digits := hds.append (.zeros zeros)
  fraction_digits := .zeros 1
  is_float := Or.inl (List.cons_ne_nil _ _)

/-- The point among the digits. -/
def among {point : Nat} (hpos : 0 < point) (hlt : point < ds.length) : Numeral where
  whole := ds.take point
  fraction := ds.drop point
  exponent := none
  whole_ne_nil := List.ne_nil_of_length_pos (by rw [List.length_take]; omega)
  whole_digits := hds.sublist (List.take_sublist _ _)
  fraction_digits := hds.sublist (List.drop_sublist _ _)
  is_float := Or.inl (List.ne_nil_of_length_pos (by rw [List.length_drop]; omega))

theorem below_text (zeros : Nat) :
    (below hds hne zeros).text = '0' :: '.' :: (List.replicate zeros '0' ++ ds) := by
  simp [below, text, pointText, exponentText, hne]

theorem below_toRat (zeros : Nat) :
    (below hds hne zeros).decimal.toRat = Decimal.ofDigits ds * 10 ^ (-zeros - ds.length : ℤ) := by
  have hdigits : (below hds hne zeros).decimal.digits = Decimal.ofDigits ds := by
    have hzero : Decimal.ofDigits ['0'] = 0 := rfl
    simp only [below, decimal, Decimal.ofDigits_append, Decimal.ofDigits_zeros, hzero, Nat.mul_zero,
      Nat.zero_add]
  have hexponent : (below hds hne zeros).decimal.exponent = -zeros - ds.length := by
    simp only [below, decimal, Option.getD_none, List.length_append, List.length_replicate]
    omega
  rw [Decimal.toRat, hdigits, hexponent]

theorem above_text (zeros : Nat) :
    (above hds hne zeros).text = ds ++ List.replicate zeros '0' ++ ['.', '0'] := by
  simp [above, text, pointText, exponentText]

theorem above_toRat (zeros : Nat) :
    (above hds hne zeros).decimal.toRat = Decimal.ofDigits ds * 10 ^ zeros := by
  have hdigits : (above hds hne zeros).decimal.digits = 10 ^ zeros * Decimal.ofDigits ds * 10 := by
    have hzero : Decimal.ofDigits ['0'] = 0 := rfl
    simp only [above, decimal, Decimal.ofDigits_append, Decimal.ofDigits_zeros, hzero,
      List.length_replicate, List.length_singleton]
    ring
  have hexponent : (above hds hne zeros).decimal.exponent = -1 := rfl
  rw [Decimal.toRat, hdigits, hexponent]
  push_cast
  ring

variable {point : Nat} (hpos : 0 < point) (hlt : point < ds.length)

theorem among_text : (among hds hpos hlt).text = ds.take point ++ '.' :: ds.drop point := by
  have hfraction : ds.drop point ≠ [] := List.ne_nil_of_length_pos (by rw [List.length_drop]; omega)
  simp [among, text, pointText, exponentText, hfraction]

theorem among_toRat :
    (among hds hpos hlt).decimal.toRat = Decimal.ofDigits ds * 10 ^ (point - ds.length : ℤ) := by
  have hdigits : (among hds hpos hlt).decimal.digits = Decimal.ofDigits ds := by
    simp only [among, decimal, List.take_append_drop]
  have hexponent : (among hds hpos hlt).decimal.exponent = point - ds.length := by
    simp only [among, decimal, Option.getD_none, List.length_drop]
    omega
  rw [Decimal.toRat, hdigits, hexponent]

end Positional

section Scientific

variable {d : Char} {ds : List Char} (hds : AreDigits (d :: ds)) (k : ℤ)

/-- The point after the first digit, and an exponent. -/
def scientific : Numeral where
  whole := [d]
  fraction := ds
  exponent := some k
  whole_ne_nil := List.cons_ne_nil _ _
  whole_digits := hds.sublist (List.singleton_sublist.mpr List.mem_cons_self)
  fraction_digits := hds.sublist (List.sublist_cons_self d ds)
  is_float := Or.inr rfl

theorem scientific_text :
    (scientific hds k).text = Decimal.scientificText .result (d :: ds) k := by
  have hmark : NumberStyle.result.exponentMark.toList = ['e'] := rfl
  cases ds <;>
    simp [scientific, text, pointText, exponentText, Decimal.scientificText, hmark]

theorem scientific_toRat : (scientific hds k).decimal.toRat =
    Decimal.ofDigits (d :: ds) * 10 ^ (k + 1 - (d :: ds).length : ℤ) := by
  have hexponent : (scientific hds k).decimal.exponent = k + 1 - (d :: ds).length := by
    simp only [scientific, decimal, Option.getD_some, List.length_cons]
    omega
  rw [Decimal.toRat, hexponent]
  rfl

end Scientific

end Numeral

namespace Decimal

/-- Positional text is a numeral. -/
theorem plainText_numeral {ds : List Char} (hds : AreDigits ds) (hne : ds ≠ []) (point : ℤ) :
    ∃ n : Numeral, n.text = plainText ds point ∧
      n.decimal.toRat = ofDigits ds * 10 ^ (point - ds.length) := by
  unfold plainText
  split_ifs with hpoint hlength
  · refine ⟨.below hds hne (-point).toNat, Numeral.below_text hds hne _, ?_⟩
    rw [Numeral.below_toRat, show -((-point).toNat : ℤ) = point by omega]
  · refine ⟨.above hds hne (point.toNat - ds.length), Numeral.above_text hds hne _, ?_⟩
    rw [Numeral.above_toRat, ← zpow_natCast,
      show ((point.toNat - ds.length : ℕ) : ℤ) = point - ds.length by omega]
  · have hpos : 0 < point.toNat := by omega
    have hlt : point.toNat < ds.length := by omega
    refine ⟨.among hds hpos hlt, Numeral.among_text hds hpos hlt, ?_⟩
    rw [Numeral.among_toRat, show (point.toNat : ℤ) = point by omega]

/-- The text of a decimal is a numeral for it. -/
theorem text_numeral (d : Decimal) :
    ∃ n : Numeral, n.text = d.text .result ∧ n.decimal.toRat = d.toRat := by
  have hds := AreDigits.toDigits d.digits
  have hne : Nat.toDigits 10 d.digits ≠ [] := Nat.toDigits_ne_nil
  unfold text
  dsimp only
  split
  · obtain ⟨n, htext, hvalue⟩ := plainText_numeral hds hne _
    refine ⟨n, htext, ?_⟩
    rw [hvalue, ofDigits_toDigits, toRat]
    congr 2
    omega
  · obtain ⟨c, cs, hcons⟩ := List.exists_cons_of_ne_nil hne
    have hcs : AreDigits (c :: cs) := hcons ▸ hds
    refine ⟨.scientific hcs (d.exponent + (Nat.toDigits 10 d.digits).length - 1), ?_, ?_⟩
    · rw [Numeral.scientific_text, ← hcons]
    · rw [Numeral.scientific_toRat, ← hcons, ofDigits_toDigits, toRat]
      congr 2
      omega

end Decimal

namespace Binary

variable {fmt : Format} {x : Binary fmt}

theorem significand_pos_of_ne_zero (h : x.isZero = false) : 0 < x.significand := by
  have hmagnitude : x.magnitude.val ≠ 0 := by simpa [isZero] using h
  have hsplit := Nat.div_add_mod x.magnitude.val (2 ^ fmt.fractionBits)
  have hpow := Nat.two_pow_pos fmt.fractionBits
  unfold significand
  split_ifs with hfield
  · simp only [exponentField, fractionField, Nat.pow_eq] at hfield ⊢
    rw [hfield, Nat.mul_zero] at hsplit
    omega
  · simp only [Nat.pow_eq]
    omega

theorem abs_eq {y : Binary fmt} (h : x.magnitude.val = y.magnitude.val) : x.abs = y.abs := by
  rw [abs, abs, Fin.ext h]

theorem abs_of_isZero (h : x.isZero = true) : x.abs = .zero false := by
  have hmagnitude : x.magnitude.val = 0 := by simpa [isZero] using h
  exact abs_eq (y := .zero false) hmagnitude

theorem abs_of_isInfinite (h : x.isInfinite = true) : x.abs = .infinity false := by
  have hmagnitude : x.magnitude.val = fmt.infinity := by simpa [isInfinite] using h
  exact abs_eq (y := .infinity false) hmagnitude

/-- The text of a finite number is a numeral. It stands for zero if the number is zero, and else
    for a decimal that the number attracts. -/
theorem magnitudeText_numeral (hfin : x.isFinite = true) :
    ∃ n : Numeral, n.text = x.magnitudeText .result ∧
      (if x.isZero then n.decimal.digits = 0 else x.Attracts n.decimal.toRat) := by
  unfold magnitudeText
  rw [if_neg (by simp [(isFinite_iff.mp hfin).2])]
  rcases hzero : x.isZero with _ | _
  · obtain ⟨n, htext, hvalue⟩ := (Decimal.shortest x).text_numeral
    refine ⟨n, by simpa using htext, ?_⟩
    rw [if_neg Bool.false_ne_true, hvalue]
    exact Decimal.shortest_attracts (significand_pos_of_ne_zero hzero)
  · exact ⟨⟨['0'], ['0'], none, by simp, .zeros 1, .zeros 1, Or.inl (by simp)⟩, rfl, rfl⟩

/-- The text of a finite number is read as the number without its sign. -/
theorem toBinary_numeral (hfin : x.isFinite = true) :
    ∃ n : Numeral, n.text = x.magnitudeText .result ∧ n.decimal.toBinary = x.abs := by
  obtain ⟨n, htext, hvalue⟩ := magnitudeText_numeral hfin
  refine ⟨n, htext, ?_⟩
  split_ifs at hvalue with hzero
  · rw [Decimal.toBinary, if_pos hvalue, abs_of_isZero hzero]
  · exact Decimal.toBinary_eq hfin (significand_pos_of_ne_zero (by simpa using hzero)) hvalue

/-- The text of a finite half, read in double precision and rounded, is the half without its
    sign. -/
theorem roundHalf_numeral {x : Binary .single} (hhalf : x.IsHalf) (hfin : x.isFinite = true) :
    ∃ n : Numeral, n.text = x.magnitudeText .result ∧
      (n.decimal.toBinary : Binary .double).roundHalf = x.abs := by
  obtain ⟨n, htext, hvalue⟩ := magnitudeText_numeral hfin
  refine ⟨n, htext, ?_⟩
  split_ifs at hvalue with hzero
  · rw [Decimal.toBinary, if_pos hvalue, abs_of_isZero hzero]
    decide +kernel
  · have hpos := significand_pos_of_ne_zero (x := x) (by simpa using hzero)
    exact Decimal.roundHalf_toBinary hhalf hfin hpos hvalue

end Binary

end ScalarLang
