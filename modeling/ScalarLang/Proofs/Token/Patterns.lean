import Mathlib
import ScalarLang.Proofs.Token.Lossless
import ScalarLang.Proofs.Token.Proper

/-
  The patterns of tokens.
  Each kind of token has patterns, which are texts or regular expressions, and scanning computes
  the longest match. A text is matched by some pattern exactly if the scanner, given that text
  alone, takes all of it. Given more text it never takes less, so no longer text at the same place
  is matched. Where texts and expressions are equally long the text comes first: a keyword is no
  identifier.
-/

namespace ScalarLang

open scoped Computability

/-- A range of characters, by its first and its last one. -/
structure CharRange where
  first : Char
  last : Char
deriving DecidableEq, Repr

namespace CharRange

/-- The range of one character. -/
def only (c : Char) : CharRange := ⟨c, c⟩

def contains (r : CharRange) (c : Char) : Bool := decide (r.first ≤ c) && decide (c ≤ r.last)

@[simp] theorem contains_only (c d : Char) : (only d).contains c = (c == d) := by
  rw [Bool.eq_iff_iff, beq_iff_eq, contains, Bool.and_eq_true, decide_eq_true_eq,
    decide_eq_true_eq]
  exact ⟨fun h => le_antisymm h.2 h.1, fun h => ⟨h.ge, h.le⟩⟩

@[simp] theorem contains_digit (c : Char) : (mk '0' '9').contains c = c.isDigit := by
  simp [contains, Char.isDigit, Char.le_def]

@[simp] theorem contains_lower (c : Char) : (mk 'a' 'z').contains c = c.isLower := by
  simp [contains, Char.isLower, Char.le_def]

@[simp] theorem contains_upper (c : Char) : (mk 'A' 'Z').contains c = c.isUpper := by
  simp [contains, Char.isUpper, Char.le_def]

end CharRange

/-- A regular expression. -/
inductive Pattern where
  | exact (text : String)
  | oneOf (ranges : List CharRange)
  | noneOf (ranges : List CharRange)
  | seq (first second : Pattern)
  | optional (pattern : Pattern)
  | many (pattern : Pattern)
deriving DecidableEq, Repr

namespace Pattern

/-- The texts of one character that has the property. -/
def single (p : Char → Bool) : Language Char := {w | ∃ c, w = [c] ∧ p c = true}

/-- The texts that match. -/
def language : Pattern → Language Char
  | exact text => {text.toList}
  | oneOf ranges => single fun c => ranges.any (·.contains c)
  | noneOf ranges => single fun c => !ranges.any (·.contains c)
  | seq first second => first.language * second.language
  | optional p => 1 + p.language
  | many p => p.language∗

end Pattern

/-- A kind of token, and a pattern for it. -/
structure Rule where
  kind : TokenKind
  pattern : Pattern
deriving DecidableEq

namespace Rule

open CharRange (only)
open Pattern (exact oneOf noneOf seq optional many)

/-- The text matches the pattern. -/
def Matches (r : Rule) (w : List Char) : Prop := w ∈ r.pattern.language

def digits : Pattern := seq (oneOf [⟨'0', '9'⟩]) (many (oneOf [⟨'0', '9'⟩, only '_']))

def exponent : Pattern :=
  seq (oneOf [only 'e', only 'E']) (seq (optional (oneOf [only '+', only '-'])) digits)

def suffix : Pattern :=
  oneOf [only 'f', only 'F', only 'h', only 'H', only 'd', only 'D']

/-- The characters between tokens. -/
def blanks : Pattern :=
  seq (oneOf [only ' ', only '\t', only '\r']) (many (oneOf [only ' ', only '\t', only '\r']))

/-- An identifier, or a text that looks like one. -/
def word : Pattern :=
  seq (oneOf [⟨'a', 'z'⟩, ⟨'A', 'Z'⟩, only '_'])
    (many (oneOf [⟨'a', 'z'⟩, ⟨'A', 'Z'⟩, ⟨'0', '9'⟩, only '_']))

def comment : Pattern := seq (exact "//") (many (noneOf [only '\n']))

/-- The kinds that have fixed texts, with these. -/
def spellings : List (TokenKind × String) :=
  [(.defWord, "def"), (.ifWord, "if"), (.whenWord, "when"), (.elseWord, "else"),
   (.trueWord, "True"), (.falseWord, "False"), (.nanWord, "NaN"), (.infinityWord, "inf"),
   (.infinityWord, "Infinity"), (.plus, "+"), (.minus, "-"), (.star, "*"), (.slash, "/"),
   (.eqEq, "=="), (.notEq, "!="), (.lt, "<"), (.gt, ">"), (.ltEq, "<="), (.gtEq, ">="),
   (.ampersand, "&"), (.pipe, "|"), (.caret, "^"), (.shl, "<<"), (.shr, ">>"), (.lParen, "("),
   (.rParen, ")"), (.lBrace, "\x7b"), (.rBrace, "\x7d"), (.comma, ","), (.semicolon, ";"),
   (.newline, "\n")]

def literals : List Rule := spellings.map fun (kind, text) => ⟨kind, exact text⟩

/-- What may follow the first digits of a number, by the kind of the number. -/
def tails : List Rule :=
  [⟨.unsigned, oneOf [only 'u', only 'U']⟩,
   ⟨.float, seq (exact ".") (seq digits (seq (optional exponent) (optional suffix)))⟩,
   ⟨.float, seq exponent (optional suffix)⟩,
   ⟨.float, suffix⟩]

def numbers : List Rule :=
  ⟨.int, digits⟩ :: tails.map fun tail => ⟨tail.kind, seq digits tail.pattern⟩

def declared : List Rule := literals ++ numbers ++ [⟨.ident, word⟩, ⟨.comment, comment⟩]

/-- The kind is the one for the text: its rule matches, and any other rule that does is the one for
    identifiers, where the kind has this very text. -/
def Chooses (w : List Char) (kind : TokenKind) : Prop :=
  (∃ r ∈ declared, r.kind = kind ∧ r.Matches w) ∧
    ∀ r ∈ declared, r.Matches w → r.kind = kind ∨
      r.kind = .ident ∧ ∃ l ∈ literals, l.kind = kind ∧ l.Matches w

end Rule

/-! ## Languages -/

namespace Pattern

variable {p q : Pattern} {w : List Char}

theorem mem_seq : w ∈ (seq p q).language ↔ ∃ u ∈ p.language, ∃ v ∈ q.language, u ++ v = w :=
  Language.mem_mul

theorem mem_optional : w ∈ (optional p).language ↔ w = [] ∨ w ∈ p.language := Iff.rfl

theorem mem_single_mul {p : Char → Bool} {l : Language Char} :
    w ∈ single p * l ↔ ∃ c v, w = c :: v ∧ p c = true ∧ v ∈ l := by
  rw [Language.mem_mul]
  constructor
  · rintro ⟨_, ⟨c, rfl, hc⟩, v, hv, rfl⟩
    exact ⟨c, v, rfl, hc, hv⟩
  · rintro ⟨c, v, rfl, hc, hv⟩
    exact ⟨[c], ⟨c, rfl, hc⟩, v, hv, rfl⟩

theorem mem_kstar_single {p : Char → Bool} : w ∈ (single p)∗ ↔ ∀ c ∈ w, p c = true := by
  rw [Language.mem_kstar]
  constructor
  · rintro ⟨us, rfl, hus⟩ c hc
    obtain ⟨u, hu, hcu⟩ := List.mem_flatten.mp hc
    obtain ⟨d, rfl, hd⟩ := hus u hu
    rwa [List.mem_singleton.mp hcu]
  · intro h
    refine ⟨w.map fun c => [c], ?_, fun u hu => ?_⟩
    · rw [← List.flatMap_def, List.flatMap_singleton']
    · obtain ⟨c, hc, rfl⟩ := List.mem_map.mp hu
      exact ⟨c, rfl, h c hc⟩

end Pattern

namespace Rule

open Pattern (single)

theorem language_digits : digits.language = single Char.isDigit * (single isDigitChar)∗ := by
  simp only [digits, Pattern.language, List.any_cons, List.any_nil, Bool.or_false,
    CharRange.contains_digit, CharRange.contains_only]
  rfl

theorem language_suffix : suffix.language = single isFloatSuffix := by
  simp only [suffix, Pattern.language, List.any_cons, List.any_nil, Bool.or_false,
    CharRange.contains_only, ← Bool.or_assoc]
  rfl

theorem language_unsigned :
    (Pattern.oneOf [.only 'u', .only 'U']).language = single fun c => c == 'u' || c == 'U' := by
  simp only [Pattern.language, List.any_cons, List.any_nil, Bool.or_false, CharRange.contains_only]

theorem language_exponent : exponent.language =
    single (fun e => e == 'e' || e == 'E') *
      (digits.language + single (fun s => s == '+' || s == '-') * digits.language) := by
  simp only [exponent, Pattern.language, List.any_cons, List.any_nil, Bool.or_false,
    CharRange.contains_only, add_mul, one_mul]

end Rule

namespace Token

variable {c : Char} {cs w : List Char} {n : Nat}

open Rule (digits exponent suffix)
open Pattern (mem_seq mem_optional mem_single_mul mem_kstar_single)

/-! ## Numbers -/

theorem length_takeWhile_eq {p : Char → Bool} :
    (w.takeWhile p).length = w.length ↔ ∀ d ∈ w, p d = true := by
  rw [← List.takeWhile_eq_self_iff]
  exact ⟨fun h => (List.takeWhile_prefix _).eq_of_length h, fun h => by rw [h]⟩

theorem digitRun_eq_length : digitRun w = w.length ↔ ∀ d ∈ w, isDigitChar d = true :=
  length_takeWhile_eq

theorem digitRun_append_of_head {ds rest : List Char} (hds : ∀ d ∈ ds, isDigitChar d = true)
    (hrest : ∀ d ∈ rest.head?, isDigitChar d = false) : digitRun (ds ++ rest) = ds.length := by
  rw [digitRun, takeWhile_append_of_head hrest]
  exact digitRun_eq_length.mpr hds

theorem mem_digits : w ∈ digits.language ↔ w ≠ [] ∧ digitsLength w = w.length := by
  rw [Rule.language_digits, mem_single_mul]
  cases w with
  | nil => simp
  | cons d ds =>
      simp only [List.cons.injEq, mem_kstar_single, ← digitRun_eq_length, digitsLength,
        List.length_cons]
      constructor
      · rintro ⟨_, _, ⟨rfl, rfl⟩, hd, hds⟩
        rw [if_pos hd, hds, Nat.add_comm]
        exact ⟨List.cons_ne_nil _ _, rfl⟩
      · rintro ⟨-, h⟩
        split at h
        · exact ⟨d, ds, ⟨rfl, rfl⟩, ‹_›, by omega⟩
        · omega

theorem digitsLength_of_sign {s : Char} (hs : (s == '+' || s == '-') = true) (ds : List Char) :
    digitsLength (s :: ds) = 0 := by
  rcases Bool.or_eq_true_iff.mp hs with hs | hs <;> rw [eq_of_beq hs] <;> rfl

theorem mem_exponent : w ∈ exponent.language ↔ w ≠ [] ∧ exponentLength w = w.length := by
  rw [Rule.language_exponent, mem_single_mul]
  simp only [Language.mem_add, mem_single_mul, mem_digits]
  constructor
  · rintro ⟨e, v, rfl, he, ⟨hne, hv⟩ | ⟨s, ds, rfl, hs, hne, hds⟩⟩
    · obtain ⟨d, ds, rfl⟩ := List.exists_cons_of_ne_nil hne
      have hd : ¬ (d == '+' || d == '-') = true := fun hd => by
        rw [digitsLength_of_sign hd] at hv
        cases hv
      refine ⟨List.cons_ne_nil _ _, ?_⟩
      rw [exponentLength, if_pos he, if_neg hd, hv, if_neg (by simp), Nat.add_comm]
      rfl
    · have hlen := List.length_pos_iff.mpr hne
      refine ⟨List.cons_ne_nil _ _, ?_⟩
      rw [exponentLength, if_pos he, if_pos hs, if_neg (by omega), hds, Nat.add_comm]
      rfl
  · rintro ⟨hne, h⟩
    obtain ⟨e, cs, rfl⟩ := List.exists_cons_of_ne_nil hne
    cases cs with
    | nil => simp [exponentLength] at h
    | cons s ds =>
        rw [exponentLength, List.length_cons, List.length_cons] at h
        split_ifs at h with he hs hzero hzero
        · refine ⟨e, _, rfl, he, .inr ⟨s, ds, rfl, hs, ?_, by omega⟩⟩
          rintro rfl
          exact hzero rfl
        · exact ⟨e, _, rfl, he, .inl ⟨List.cons_ne_nil _ _, by rw [List.length_cons]; omega⟩⟩

theorem mem_optional_suffix :
    w ∈ (Pattern.optional suffix).language ↔ suffixLength w = w.length := by
  rw [mem_optional, Rule.language_suffix]
  constructor
  · rintro (rfl | ⟨c, rfl, hc⟩)
    · rfl
    · rw [suffixLength, if_pos hc, List.length_singleton]
  · intro h
    cases w with
    | nil => exact .inl rfl
    | cons c cs =>
        rw [suffixLength, List.length_cons] at h
        split at h
        · obtain rfl : cs = [] := List.length_eq_zero_iff.mp (by omega)
          exact .inr ⟨c, rfl, ‹_›⟩
        · omega

theorem isDigitChar_of_isFloatSuffix (h : isFloatSuffix c = true) : isDigitChar c = false := by
  simp only [isFloatSuffix, Bool.or_eq_true, beq_iff_eq] at h
  rcases h with ((((rfl | rfl) | rfl) | rfl) | rfl) | rfl <;> rfl

theorem isFloatSuffix_of_isDigitChar (h : isDigitChar c = true) : isFloatSuffix c = false := by
  rw [← Bool.not_eq_true]
  intro hsuffix
  rw [isDigitChar_of_isFloatSuffix hsuffix] at h
  cases h

/-- The characters besides suffixes that what follows the digits of a number may start with. -/
def tailStarts : List Char := ['.', 'u', 'U', 'e', 'E']

theorem beq_of_isDigitChar (h : isDigitChar c = true) {d : Char} (hd : d ∈ tailStarts) :
    (c == d) = false := by
  have hstarts : tailStarts.all (fun e => !isDigitChar e) = true := by decide
  refine beq_false_of_ne ?_
  rintro rfl
  have hc := List.all_eq_true.mp hstarts c hd
  rw [h] at hc
  cases hc

theorem scaleLength_of_isDigitChar (h : isDigitChar c = true) (cs : List Char) :
    scaleLength (c :: cs) = 0 := by
  have he := beq_of_isDigitChar h (d := 'e') (by decide)
  have hE := beq_of_isDigitChar h (d := 'E') (by decide)
  simp [scaleLength, exponentLength, suffixLength, he, hE, isFloatSuffix_of_isDigitChar h]

/-- No digit comes next. -/
def NoDigit (rest : List Char) : Prop := ∀ d ∈ rest.head?, isDigitChar d = false

theorem noDigit_of_scale (h : scaleLength w = w.length) : NoDigit w := by
  intro d hd
  rw [← Bool.not_eq_true]
  intro hdigit
  cases w with
  | nil => cases hd
  | cons c cs =>
      obtain rfl : c = d := Option.some.inj hd
      rw [scaleLength_of_isDigitChar hdigit] at h
      cases h

theorem digitsLength_append_of_head {rest : List Char} (h : NoDigit rest) :
    digitsLength (cs ++ rest) = digitsLength cs := by
  cases cs with
  | cons d cs =>
      rw [List.cons_append, digitsLength, digitsLength, digitRun, takeWhile_append_of_head h]
      rfl
  | nil =>
      cases rest with
      | nil => rfl
      | cons d rest =>
          have hd := h d rfl
          rw [isDigitChar, Bool.or_eq_false_iff] at hd
          simp [digitsLength, hd.1]

theorem exponentLength_append_of_head {rest : List Char} (h : NoDigit rest)
    (hcs : exponentLength cs ≠ 0) : exponentLength (cs ++ rest) = exponentLength cs := by
  match cs with
  | [] | [_] => exact absurd (by simp [exponentLength]) hcs
  | e :: s :: ds =>
      have hds : digitsLength (ds ++ rest) = digitsLength ds := digitsLength_append_of_head h
      have hall : digitsLength (s :: ds ++ rest) = digitsLength (s :: ds) :=
        digitsLength_append_of_head h
      simp only [List.cons_append, exponentLength] at hall ⊢
      rw [hds, hall]

/-- A suffix by itself has no exponent. -/
theorem exponentLength_of_suffix (h : suffixLength w = w.length) : exponentLength w = 0 := by
  match w with
  | [] | [_] => simp [exponentLength]
  | c :: d :: ds =>
      rw [suffixLength] at h
      split at h <;> simp at h

theorem noDigit_of_suffix (h : suffixLength w = w.length) : NoDigit w := by
  refine noDigit_of_scale ?_
  rw [scaleLength, exponentLength_of_suffix h, List.drop_zero, h, Nat.zero_add]

theorem mem_scale : w ∈ (Pattern.seq (.optional exponent) (.optional suffix)).language ↔
    scaleLength w = w.length := by
  rw [mem_seq]
  constructor
  · rintro ⟨u, hu, v, hv, rfl⟩
    have hv := mem_optional_suffix.mp hv
    have hexponent : exponentLength (u ++ v) = u.length := by
      rcases mem_optional.mp hu with rfl | hu
      · exact exponentLength_of_suffix hv
      · obtain ⟨hne, hu⟩ := mem_exponent.mp hu
        have hpos := List.length_pos_iff.mpr hne
        rw [exponentLength_append_of_head (noDigit_of_suffix hv) (by omega), hu]
    rw [scaleLength, hexponent, List.drop_left, hv, List.length_append]
  · intro h
    have hle := exponentLength_le w
    refine ⟨w.take (exponentLength w), ?_, w.drop (exponentLength w), ?_,
      List.take_append_drop _ _⟩
    · rw [mem_optional, mem_exponent, exponentLength_take le_rfl, List.length_take,
        Nat.min_eq_left hle]
      exact (eq_or_ne _ _).imp_right fun hne => ⟨hne, rfl⟩
    · rw [mem_optional_suffix, List.length_drop]
      rw [scaleLength] at h
      omega

/-- A tail that is taken as a whole does not go on with the digits before it. -/
theorem noDigit_of_numberTail (h : (numberTail w).2 = w.length) : NoDigit w := by
  intro d hd
  rw [← Bool.not_eq_true]
  intro hdigit
  cases w with
  | nil => cases hd
  | cons c cs =>
      obtain rfl : c = d := Option.some.inj hd
      have hscale := scaleLength_of_isDigitChar hdigit cs
      have hexponent : exponentLength (c :: cs) = 0 := Nat.eq_zero_of_add_eq_zero_right hscale
      have hdot := beq_of_isDigitChar hdigit (d := '.') (by decide)
      have hu := beq_of_isDigitChar hdigit (d := 'u') (by decide)
      have hU := beq_of_isDigitChar hdigit (d := 'U') (by decide)
      simp [numberTail, hdot, hu, hU, hexponent, isFloatSuffix_of_isDigitChar hdigit] at h

/-- An exponent starts as no other tail does. -/
theorem start_of_exponent (h : exponentLength (c :: cs) ≠ 0) :
    c ≠ '.' ∧ ¬ (c == 'u' || c == 'U') = true := by
  have he : (c == 'e' || c == 'E') = true := by
    by_contra he
    exact h (by simp [exponentLength, he])
  rcases Bool.or_eq_true_iff.mp he with he | he <;> rw [eq_of_beq he] <;> decide

theorem start_of_suffix (h : isFloatSuffix c = true) :
    c ≠ '.' ∧ ¬ (c == 'u' || c == 'U') = true := by
  simp only [isFloatSuffix, Bool.or_eq_true, beq_iff_eq] at h
  rcases h with ((((rfl | rfl) | rfl) | rfl) | rfl) | rfl <;> decide

theorem numberTail_unsigned (h : (c == 'u' || c == 'U') = true) :
    numberTail (c :: cs) = (.unsigned, 1) := by
  rcases Bool.or_eq_true_iff.mp h with h | h <;> rw [eq_of_beq h] <;> rfl

theorem numberTail_suffix (hexponent : exponentLength (c :: cs) = 0)
    (h : isFloatSuffix c = true) : numberTail (c :: cs) = (.float, 1) := by
  obtain ⟨hdot, hunsigned⟩ := start_of_suffix h
  simp [numberTail, hdot, hunsigned, hexponent, h]

/-- Nothing else follows the digits of a number. -/
theorem numberTail_none (hdot : c = '.' → digitsLength cs = 0)
    (hunsigned : ¬ (c == 'u' || c == 'U') = true) (hexponent : exponentLength (c :: cs) = 0)
    (hsuffix : ¬ isFloatSuffix c = true) : numberTail (c :: cs) = (.int, 0) := by
  by_cases hc : c = '.' <;> simp_all [numberTail]

theorem numberTail_of_mem {tail : Rule} (htail : tail ∈ Rule.tails) (h : tail.Matches w) :
    w ≠ [] ∧ numberTail w = (tail.kind, w.length) := by
  simp only [Rule.tails, List.mem_cons, List.not_mem_nil, or_false] at htail
  rcases htail with rfl | rfl | rfl | rfl
  · rw [Rule.Matches, Rule.language_unsigned] at h
    obtain ⟨c, rfl, hc⟩ := h
    exact ⟨List.cons_ne_nil _ _, numberTail_unsigned hc⟩
  · obtain ⟨_, rfl, _, hfraction, rfl⟩ := mem_seq.mp h
    obtain ⟨ds, hds, v, hv, rfl⟩ := mem_seq.mp hfraction
    obtain ⟨hne, hds⟩ := mem_digits.mp hds
    have hv := mem_scale.mp hv
    have hlen := List.length_pos_iff.mpr hne
    have hdigits : digitsLength (ds ++ v) = ds.length := by
      rw [digitsLength_append_of_head (noDigit_of_scale hv), hds]
    have htail : numberTail ('.' :: (ds ++ v)) = _ := numberTail_fraction (by omega)
    rw [hdigits, List.drop_left, hv, ← List.length_append] at htail
    exact ⟨List.cons_ne_nil _ _, htail⟩
  · obtain ⟨u, hu, v, hv, rfl⟩ := mem_seq.mp h
    have hscale := mem_scale.mp (mem_seq.mpr ⟨u, mem_optional.mpr (.inr hu), v, hv, rfl⟩)
    obtain ⟨hne, hu⟩ := mem_exponent.mp hu
    have hlen := List.length_pos_iff.mpr hne
    have hv := noDigit_of_suffix (mem_optional_suffix.mp hv)
    obtain ⟨e, ds, rfl⟩ := List.exists_cons_of_ne_nil hne
    have hexponent : exponentLength (e :: ds ++ v) ≠ 0 := by
      rw [exponentLength_append_of_head hv] <;> omega
    obtain ⟨hdot, hunsigned⟩ := start_of_exponent hexponent
    refine ⟨List.cons_ne_nil _ _, (numberTail_exponent hdot hunsigned hexponent).trans ?_⟩
    rw [← hscale]
    rfl
  · rw [Rule.Matches, Rule.language_suffix] at h
    obtain ⟨c, rfl, hc⟩ := h
    exact ⟨List.cons_ne_nil _ _, numberTail_suffix (by simp [exponentLength]) hc⟩

theorem mem_of_numberTail {kind : TokenKind} (hne : w ≠ [])
    (h : numberTail w = (kind, w.length)) :
    ∃ tail ∈ Rule.tails, tail.kind = kind ∧ tail.Matches w := by
  obtain ⟨c, cs, rfl⟩ := List.exists_cons_of_ne_nil hne
  by_cases hunsigned : (c == 'u' || c == 'U') = true
  · rw [numberTail_unsigned hunsigned, Prod.mk.injEq, List.length_cons] at h
    obtain rfl : cs = [] := List.length_eq_zero_iff.mp (by omega)
    refine ⟨_, List.mem_cons_self, h.1, ?_⟩
    rw [Rule.Matches, Rule.language_unsigned]
    exact ⟨c, rfl, hunsigned⟩
  by_cases hexponent : exponentLength (c :: cs) = 0
  swap
  · obtain ⟨hdot, hunsigned⟩ := start_of_exponent hexponent
    rw [numberTail_exponent hdot hunsigned hexponent, Prod.mk.injEq] at h
    obtain ⟨u, hu, v, hv, huv⟩ := mem_seq.mp (mem_scale.mpr h.2)
    refine ⟨_, List.mem_of_mem_drop (i := 2) List.mem_cons_self, h.1,
      mem_seq.mpr ⟨u, ?_, v, hv, huv⟩⟩
    refine (mem_optional.mp hu).resolve_left ?_
    rintro rfl
    rw [← huv] at hexponent
    exact hexponent (exponentLength_of_suffix (mem_optional_suffix.mp hv))
  by_cases hsuffix : isFloatSuffix c = true
  · rw [numberTail_suffix hexponent hsuffix, Prod.mk.injEq, List.length_cons] at h
    obtain rfl : cs = [] := List.length_eq_zero_iff.mp (by omega)
    refine ⟨_, List.mem_of_mem_drop (i := 3) List.mem_cons_self, h.1, ?_⟩
    rw [Rule.Matches, Rule.language_suffix]
    exact ⟨c, rfl, hsuffix⟩
  by_cases hdot : c = '.' ∧ digitsLength cs ≠ 0
  · obtain ⟨rfl, hfraction⟩ := hdot
    rw [numberTail_fraction hfraction, Prod.mk.injEq, List.length_cons] at h
    have hle := digitsLength_le cs
    refine ⟨_, List.mem_of_mem_drop (i := 1) List.mem_cons_self, h.1, mem_seq.mpr
      ⟨['.'], rfl, cs, mem_seq.mpr ⟨cs.take (digitsLength cs), mem_digits.mpr ?_,
        cs.drop (digitsLength cs), mem_scale.mpr ?_, List.take_append_drop _ _⟩, rfl⟩⟩
    · rw [digitsLength_take, Nat.min_self, List.length_take, Nat.min_eq_left hle]
      exact ⟨List.ne_nil_of_length_pos (by rw [List.length_take]; omega), rfl⟩
    · rw [List.length_drop]
      omega
  · rw [numberTail_none (by simpa using hdot) hunsigned hexponent hsuffix] at h
    cases h

theorem mem_digits_cons : w ∈ digits.language ↔
    ∃ c cs, w = c :: cs ∧ c.isDigit = true ∧ ∀ d ∈ cs, isDigitChar d = true := by
  rw [Rule.language_digits, mem_single_mul]
  simp only [mem_kstar_single]

/-- The digits end where they do not go on. -/
theorem munchNumber_append_tail {ds tail : List Char} (hds : ∀ d ∈ ds, isDigitChar d = true)
    (htail : NoDigit tail) :
    munchNumber (ds ++ tail) = ((numberTail tail).1, ds.length + (numberTail tail).2) := by
  simp only [munchNumber]
  rw [digitRun_append_of_head hds htail, List.drop_left]

theorem munchNumber_of_mem {r : Rule} (hr : r ∈ Rule.numbers) (h : r.Matches w) :
    ∃ c cs, w = c :: cs ∧ c.isDigit = true ∧ munchNumber cs = (r.kind, cs.length) := by
  rcases List.mem_cons.mp hr with rfl | hr
  · obtain ⟨c, cs, rfl, hc, hcs⟩ := mem_digits_cons.mp h
    have hnumber : munchNumber (cs ++ []) = _ := munchNumber_append_tail hcs (by simp [NoDigit])
    rw [List.append_nil] at hnumber
    exact ⟨c, cs, rfl, hc, hnumber⟩
  · obtain ⟨tail, htail, rfl⟩ := List.mem_map.mp hr
    obtain ⟨_, hds, v, hv, rfl⟩ := mem_seq.mp h
    obtain ⟨c, ds, rfl, hc, hds⟩ := mem_digits_cons.mp hds
    obtain ⟨-, hv⟩ := numberTail_of_mem htail hv
    refine ⟨c, ds ++ v, rfl, hc, ?_⟩
    rw [munchNumber_append_tail hds (noDigit_of_numberTail (by rw [hv])), hv, List.length_append]

theorem mem_of_munchNumber {kind : TokenKind} (hc : c.isDigit = true)
    (h : munchNumber cs = (kind, cs.length)) :
    ∃ r ∈ Rule.numbers, r.kind = kind ∧ r.Matches (c :: cs) := by
  have hdigits : c :: cs.takeWhile isDigitChar ∈ digits.language :=
    mem_digits_cons.mpr ⟨c, _, rfl, hc, fun d hd => List.mem_takeWhile_imp hd⟩
  have hcs : cs.takeWhile isDigitChar ++ cs.drop (digitRun cs) = cs := by
    rw [List.prefix_iff_eq_take.mp (List.takeWhile_prefix isDigitChar)]
    exact List.take_append_drop _ _
  simp only [munchNumber, Prod.mk.injEq] at h
  by_cases hrest : cs.drop (digitRun cs) = []
  · rw [hrest, List.append_nil] at hcs
    rw [hrest] at h
    rw [hcs] at hdigits
    exact ⟨_, List.mem_cons_self, h.1, hdigits⟩
  · have htail : numberTail (cs.drop (digitRun cs)) = (kind, (cs.drop (digitRun cs)).length) := by
      refine Prod.ext h.1 ?_
      rw [List.length_drop]
      omega
    obtain ⟨tail, hmem, hkind, hmatch⟩ := mem_of_numberTail hrest htail
    refine ⟨_, List.mem_cons_of_mem _ (List.mem_map_of_mem hmem), hkind,
      mem_seq.mpr ⟨_, hdigits, _, hmatch, ?_⟩⟩
    rw [List.cons_append, hcs]

/-! ## Words, comments and fixed texts -/

/-- The kind of a text that is taken as a whole. -/
def wholeKind? : List Char → Option TokenKind
  | [] => none
  | c :: cs => if (munch c cs).2 = cs.length then some (munch c cs).1 else none

theorem wholeKind?_cons {kind : TokenKind} :
    wholeKind? (c :: w) = some kind ↔ munch c w = (kind, w.length) := by
  rw [wholeKind?, Prod.ext_iff]
  split <;> simp_all

theorem isDigit_of_isWordStart (h : isWordStart c = true) : c.isDigit = false := by
  rw [← Bool.not_eq_true]
  intro hdigit
  rcases Bool.or_eq_true_iff.mp h with halpha | hunderscore
  · simp only [Char.isAlpha, Char.isUpper, Char.isLower, Char.isDigit, Bool.or_eq_true,
      Bool.and_eq_true, decide_eq_true_eq, ge_iff_le, UInt32.le_iff_toNat_le] at halpha hdigit
    simp at halpha hdigit
    omega
  · rw [eq_of_beq hunderscore] at hdigit
    cases hdigit

theorem mem_word : w ∈ Rule.word.language ↔ ∃ c cs, w = c :: cs ∧ isWordStart c = true ∧
    ∀ d ∈ cs, isWordChar d = true := by
  have hstart : (fun c : Char => c.isLower || (c.isUpper || c == '_')) = isWordStart := by
    funext c
    simp only [isWordStart, Char.isAlpha]
    ac_rfl
  have hchar : (fun c : Char => c.isLower || (c.isUpper || (c.isDigit || c == '_'))) =
      isWordChar := by
    funext c
    simp only [isWordChar, Char.isAlphanum, Char.isAlpha]
    ac_rfl
  simp only [Rule.word, Pattern.language, List.any_cons, List.any_nil, Bool.or_false,
    CharRange.contains_lower, CharRange.contains_upper, CharRange.contains_digit,
    CharRange.contains_only, hstart, hchar, mem_single_mul, mem_kstar_single]

theorem mem_comment : w ∈ Rule.comment.language ↔
    ∃ cs, w = '/' :: '/' :: cs ∧ ∀ d ∈ cs, (d != '\n') = true := by
  simp only [Rule.comment, Pattern.language, List.any_cons, List.any_nil, Bool.or_false,
    CharRange.contains_only, Language.mem_mul, mem_kstar_single]
  constructor
  · rintro ⟨_, rfl, cs, hcs, rfl⟩
    exact ⟨cs, rfl, hcs⟩
  · rintro ⟨cs, rfl, hcs⟩
    exact ⟨_, rfl, cs, hcs, rfl⟩

theorem wholeKind?_spelling : ∀ s ∈ Rule.spellings, wholeKind? s.2.toList = some s.1 := by
  decide

theorem munch_of_isDigit (h : c.isDigit = true) (cs : List Char) :
    munch c cs = munchNumber cs := if_pos h

theorem munch_of_isWordStart (h : isWordStart c = true) (cs : List Char) :
    munch c cs = munchWord c cs := by
  rw [munch, isDigit_of_isWordStart h, if_neg Bool.false_ne_true, if_pos h]

theorem munchWord_all (h : ∀ d ∈ w, isWordChar d = true) :
    munchWord c w = (wordKind (c :: w), w.length) := by
  rw [munchWord, List.takeWhile_eq_self_iff.mpr h]

theorem munchSymbol_comment (h : ∀ d ∈ w, (d != '\n') = true) :
    munch '/' ('/' :: w) = (.comment, ('/' :: w).length) := by
  have hall : ∀ d ∈ '/' :: w, (d != '\n') = true := List.forall_mem_cons.mpr ⟨rfl, h⟩
  exact Prod.ext rfl (length_takeWhile_eq.mpr hall)

/-- A text that matches a rule is taken as a whole, as a token of this rule's kind or as a keyword
    that looks like an identifier. -/
theorem wholeKind?_of_matches {r : Rule} (hr : r ∈ Rule.declared) (h : r.Matches w) :
    wholeKind? w = some r.kind ∨ r.kind = .ident ∧ wholeKind? w = some (wordKind w) := by
  rw [Rule.declared, List.append_assoc, List.mem_append, List.mem_append] at hr
  rcases hr with hr | hr | hr
  · obtain ⟨s, hs, rfl⟩ := List.mem_map.mp hr
    obtain rfl : w = s.2.toList := h
    exact .inl (wholeKind?_spelling s hs)
  · obtain ⟨c, cs, rfl, hc, hnumber⟩ := munchNumber_of_mem hr h
    rw [wholeKind?_cons, munch_of_isDigit hc]
    exact .inl hnumber
  · simp only [List.mem_cons, List.not_mem_nil, or_false] at hr
    rcases hr with rfl | rfl
    · obtain ⟨c, cs, rfl, hc, hcs⟩ := mem_word.mp h
      exact .inr ⟨rfl, wholeKind?_cons.mpr ((munch_of_isWordStart hc cs).trans (munchWord_all hcs))⟩
    · obtain ⟨cs, rfl, hcs⟩ := mem_comment.mp h
      exact .inl (wholeKind?_cons.mpr (munchSymbol_comment hcs))

theorem mem_literals {kind : TokenKind} {text : String} (h : (kind, text) ∈ Rule.spellings) :
    ∃ r ∈ Rule.literals, r.kind = kind ∧ r.Matches text.toList :=
  ⟨_, List.mem_map_of_mem h, rfl, rfl⟩

theorem mem_reserved_of_wordKind (h : wordKind w ≠ .ident) : (w, wordKind w) ∈ reserved := by
  cases hlookup : reserved.lookup w with
  | none => exact absurd (by rw [wordKind, hlookup]; rfl) h
  | some kind =>
      obtain ⟨before, after, hsplit, -⟩ := List.lookup_eq_some_iff.mp hlookup
      rw [wordKind, hlookup, hsplit]
      simp

/-- A word that is no identifier is one of the fixed texts. -/
theorem mem_literals_of_wordKind (h : wordKind w ≠ .ident) :
    ∃ r ∈ Rule.literals, r.kind = wordKind w ∧ r.Matches w := by
  have hreserved : ∀ entry ∈ reserved, (entry.2, String.ofList entry.1) ∈ Rule.spellings := by
    decide
  simpa using mem_literals (hreserved _ (mem_reserved_of_wordKind h))

theorem mem_literals_of_isFixed {kind : TokenKind} (h : kind.isFixed = true) :
    (kind, kind.text) ∈ Rule.spellings := by
  revert h
  cases kind <;> decide

theorem oneOrTwo_kind {two one : TokenKind} (htwo : two.isFixed = true)
    (hone : one.isFixed = true ∨ one = .unknown) (next : Char) (cs : List Char) :
    (oneOrTwo next two one cs).1.isFixed = true ∨ (oneOrTwo next two one cs).1 = .unknown := by
  unfold oneOrTwo
  split
  · split
    · exact .inl htwo
    · exact hone
  · exact hone

/-- The tokens that start neither as numbers nor as words have fixed texts, or are comments. -/
theorem munchSymbol_kind (c : Char) (cs : List Char) :
    ((munchSymbol c cs).1.isFixed = true ∨ (munchSymbol c cs).1 = .unknown) ∨
      c = '\n' ∧ munchSymbol c cs = (.newline, 0) ∨
      c = '/' ∧ cs.head? = some '/' ∧
        munchSymbol c cs = (.comment, (cs.takeWhile (· != '\n')).length) := by
  unfold munchSymbol
  split
  case h_4 =>
    split
    · exact .inr (.inr ⟨rfl, by simp_all, rfl⟩)
    · exact .inl (.inl rfl)
  case h_5 | h_6 => exact .inl (oneOrTwo_kind rfl (.inr rfl) _ _)
  case h_7 | h_8 =>
    split
    · exact .inl (.inl rfl)
    · exact .inl (oneOrTwo_kind rfl (.inl rfl) _ _)
  case h_18 => exact .inr (.inl ⟨rfl, rfl⟩)
  case h_19 => exact .inl (.inr rfl)
  all_goals exact .inl (.inl rfl)

theorem matches_of_munchSymbol {kind : TokenKind} (hkind : kind ≠ .unknown)
    (h : munchSymbol c w = (kind, w.length)) :
    ∃ r ∈ Rule.declared, r.kind = kind ∧ r.Matches (c :: w) := by
  have hliteral (hmem : (kind, String.ofList (c :: w)) ∈ Rule.spellings) :
      ∃ r ∈ Rule.declared, r.kind = kind ∧ r.Matches (c :: w) := by
    obtain ⟨r, hr, hmatch⟩ := mem_literals hmem
    rw [String.toList_ofList] at hmatch
    exact ⟨r, List.mem_append_left _ (List.mem_append_left _ hr), hmatch⟩
  rcases munchSymbol_kind c w with (hfixed | hunknown) | ⟨rfl, hnewline⟩ | ⟨rfl, hhead, hcomment⟩
  · have hspells := munchSymbol_spells c w hfixed
    rw [h, List.take_length] at hspells
    rw [h] at hfixed
    exact hliteral (hspells ▸ mem_literals_of_isFixed hfixed)
  · rw [h] at hunknown
    exact absurd hunknown hkind
  · rw [h, Prod.mk.injEq] at hnewline
    obtain ⟨rfl, hlen⟩ := hnewline
    obtain rfl := List.length_eq_zero_iff.mp hlen
    exact hliteral (by decide)
  · rw [h, Prod.mk.injEq] at hcomment
    obtain ⟨rfl, hlen⟩ := hcomment
    have hall := length_takeWhile_eq.mp hlen.symm
    obtain ⟨cs, rfl⟩ := List.head?_eq_some_iff.mp hhead
    refine ⟨⟨.comment, Rule.comment⟩, by simp [Rule.declared], rfl, mem_comment.mpr ⟨cs, rfl, ?_⟩⟩
    exact fun d hd => hall d (List.mem_cons_of_mem _ hd)

/-- Whatever is taken as a whole, unknown characters apart, matches a rule of its kind. -/
theorem matches_of_wholeKind? {kind : TokenKind} (hkind : kind ≠ .unknown)
    (h : wholeKind? w = some kind) : ∃ r ∈ Rule.declared, r.kind = kind ∧ r.Matches w := by
  cases w with
  | nil => cases h
  | cons c cs =>
      rw [wholeKind?_cons, munch] at h
      split_ifs at h with hdigit hword
      · obtain ⟨r, hr, hmatch⟩ := mem_of_munchNumber hdigit h
        exact ⟨r, List.mem_append_left _ (List.mem_append_right _ hr), hmatch⟩
      · have hall := length_takeWhile_eq.mp (congrArg Prod.snd h)
        rw [munchWord_all hall, Prod.mk.injEq] at h
        obtain ⟨rfl, -⟩ := h
        by_cases hident : wordKind (c :: cs) = .ident
        · rw [hident]
          exact ⟨⟨.ident, Rule.word⟩, by simp [Rule.declared], rfl,
            mem_word.mpr ⟨c, cs, rfl, hword, hall⟩⟩
        · obtain ⟨r, hr, hmatch⟩ := mem_literals_of_wordKind hident
          exact ⟨r, List.mem_append_left _ (List.mem_append_left _ hr), hmatch⟩
      · exact matches_of_munchSymbol hkind h

/-- The kind of a text that is taken as a whole is the one for it. -/
theorem chooses_of_wholeKind? {kind : TokenKind} (hkind : kind ≠ .unknown)
    (h : wholeKind? w = some kind) : Rule.Chooses w kind := by
  refine ⟨matches_of_wholeKind? hkind h, fun r hr hmatch => ?_⟩
  rcases wholeKind?_of_matches hr hmatch with hr | ⟨hident, hr⟩
  · rw [h] at hr
    exact .inl (Option.some.inj hr).symm
  · rw [h] at hr
    obtain rfl := Option.some.inj hr
    by_cases hword : wordKind w = .ident
    · exact .inl (hident.trans hword.symm)
    · exact .inr ⟨hident, mem_literals_of_wordKind hword⟩

end Token
end ScalarLang
