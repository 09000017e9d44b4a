import Mathlib
import ScalarLang.Proofs.Token.Patterns

/-
  Scanning takes the longest match.
  With less text after its first character the scanner takes no more: if it takes all of a part of
  the text, then at least as much of the whole text. So no text that matches a rule is longer than
  the token at its place.
-/

namespace ScalarLang
namespace Token

variable {c : Char} {cs w : List Char} {n : Nat}

/-! ## Longer texts -/

theorem suffixLength_mono (h : suffixLength (cs.take n) = n) : n ≤ suffixLength cs := by
  match cs, n with
  | _, 0 => exact Nat.zero_le _
  | [], _ + 1 => simp [suffixLength] at h
  | _ :: _, _ + 1 => exact h.ge

theorem exponentLength_take_of_ne (h : exponentLength (cs.take n) ≠ 0) :
    exponentLength (cs.take n) = min n (exponentLength cs) := by
  match cs, n with
  | [], _ | _ :: _, 0 | [_], _ + 1 | _ :: _ :: _, 1 => exact absurd (by simp [exponentLength]) h
  | e :: s :: ds, n + 2 =>
      have hds := digitsLength_take n ds
      have hcs := digitsLength_take (n + 1) (s :: ds)
      simp only [exponentLength, List.take_succ_cons] at h hcs ⊢
      rw [hds, hcs] at h ⊢
      split_ifs at h ⊢ <;> omega

theorem scaleLength_mono (h : scaleLength (cs.take n) = n) : n ≤ scaleLength cs := by
  rw [scaleLength] at h ⊢
  by_cases hexponent : exponentLength (cs.take n) = 0
  · -- At most a suffix was read, and the exponent in its place is as long.
    rw [hexponent, List.drop_zero, Nat.zero_add] at h
    by_cases hzero : exponentLength cs = 0
    · rw [hzero, List.drop_zero, Nat.zero_add]
      exact suffixLength_mono h
    · have hone : suffixLength (cs.take n) ≤ 1 := by
        cases cs.take n with
        | nil => exact Nat.zero_le _
        | cons d ds =>
            rw [suffixLength]
            split <;> omega
      omega
  · have hmin := exponentLength_take_of_ne hexponent
    by_cases hn : n ≤ exponentLength cs
    · omega
    · rw [hmin, Nat.min_eq_right (by omega), List.drop_take] at h
      have hsuffix : n - exponentLength cs ≤ suffixLength (cs.drop (exponentLength cs)) :=
        suffixLength_mono (by omega)
      omega

theorem numberTail_mono (h : (numberTail (cs.take n)).2 = n) : n ≤ (numberTail cs).2 := by
  match cs, n with
  | _, 0 => exact Nat.zero_le _
  | [], _ + 1 => cases h
  | c :: cs, n + 1 =>
      rw [List.take_succ_cons] at h
      by_cases hunsigned : (c == 'u' || c == 'U') = true
      · rw [numberTail_unsigned hunsigned] at h ⊢
        exact h.ge
      by_cases hexponent : exponentLength (c :: cs.take n) = 0
      swap
      · obtain ⟨hdot, hunsigned⟩ := start_of_exponent hexponent
        have htake : exponentLength ((c :: cs).take (n + 1)) = _ :=
          exponentLength_take_of_ne hexponent
        rw [List.take_succ_cons] at htake
        rw [numberTail_exponent hdot hunsigned hexponent, ← List.take_succ_cons] at h
        rw [numberTail_exponent hdot hunsigned (by omega)]
        exact scaleLength_mono h
      by_cases hsuffix : isFloatSuffix c = true
      · rw [numberTail_suffix hexponent hsuffix] at h
        obtain ⟨hdot, hunsigned⟩ := start_of_suffix hsuffix
        by_cases hzero : exponentLength (c :: cs) = 0
        · rw [numberTail_suffix hzero hsuffix]
          exact h.ge
        · rw [numberTail_exponent hdot hunsigned hzero, scaleLength]
          omega
      by_cases hdot : c = '.' ∧ digitsLength (cs.take n) ≠ 0
      · obtain ⟨rfl, hfraction⟩ := hdot
        rw [numberTail_fraction hfraction] at h
        rw [digitsLength_take] at h hfraction
        rw [numberTail_fraction (by omega)]
        by_cases hn : n ≤ digitsLength cs
        · omega
        · rw [Nat.min_eq_right (by omega), List.drop_take] at h
          have hscale : n - digitsLength cs ≤ scaleLength (cs.drop (digitsLength cs)) :=
            scaleLength_mono (by omega)
          omega
      · rw [numberTail_none (by simpa using hdot) hunsigned hexponent hsuffix] at h
        cases h

theorem munchNumber_mono (h : (munchNumber (cs.take n)).2 = n) : n ≤ (munchNumber cs).2 := by
  simp only [munchNumber, digitRun_take, List.drop_take] at h ⊢
  by_cases hn : n ≤ digitRun cs
  · omega
  · rw [Nat.min_eq_right (by omega)] at h
    have htail : n - digitRun cs ≤ (numberTail (cs.drop (digitRun cs))).2 :=
      numberTail_mono (by omega)
    omega

theorem length_takeWhile_mono {p : Char → Bool} (h : ((cs.take n).takeWhile p).length = n) :
    n ≤ (cs.takeWhile p).length := by
  rw [← List.take_takeWhile, List.length_take] at h
  omega

theorem munchSymbol_mono (h : (munchSymbol c (cs.take n)).2 = n) : n ≤ (munchSymbol c cs).2 := by
  match cs, n with
  | _, 0 => exact Nat.zero_le _
  | [], _ + 1 =>
      rw [List.take_nil] at h
      exact h.ge
  | d :: cs, n + 1 =>
      by_cases hc : c = '/' ∧ d = '/'
      · obtain ⟨rfl, rfl⟩ := hc
        exact length_takeWhile_mono h
      · -- Outside comments the next character alone decides.
        have hnext (rest : List Char) : munchSymbol c (d :: rest) = munchSymbol c [d] := by
          unfold munchSymbol
          split <;> simp_all [oneOrTwo]
        rw [List.take_succ_cons, hnext] at h
        rw [hnext]
        exact h.ge

theorem munch_mono (h : (munch c (cs.take n)).2 = n) : n ≤ (munch c cs).2 := by
  unfold munch at h ⊢
  split_ifs at h ⊢
  · exact munchNumber_mono h
  · exact length_takeWhile_mono h
  · exact munchSymbol_mono h

/-! ## Matches -/

theorem kind_of_matches {r : Rule} (hr : r ∈ Rule.declared) (h : r.Matches w) :
    ∃ kind, wholeKind? w = some kind ∧ kind ≠ .unknown := by
  have hdeclared : ∀ r ∈ Rule.declared, r.kind ≠ .unknown := by decide
  rcases wholeKind?_of_matches hr h with hwhole | ⟨-, hwhole⟩
  · exact ⟨_, hwhole, hdeclared r hr⟩
  · refine ⟨_, hwhole, fun hunknown => ?_⟩
    obtain ⟨l, hl, hkind, -⟩ := mem_literals_of_wordKind (w := w) (by rw [hunknown]; decide)
    exact hdeclared l (List.mem_append_left _ (List.mem_append_left _ hl)) (hkind.trans hunknown)

theorem isBlank_of_mem_blanks (h : c :: w ∈ Rule.blanks.language) : isBlank c = true := by
  have hblank : (fun c : Char => c == ' ' || (c == '\t' || c == '\r')) = isBlank := by
    funext c
    rw [isBlank, Bool.or_assoc]
  simp only [Rule.blanks, Pattern.language, List.any_cons, List.any_nil, Bool.or_false,
    CharRange.contains_only, hblank, Pattern.mem_single_mul] at h
  obtain ⟨d, v, hd, hblank, -⟩ := h
  rwa [(List.cons.inj hd).1]

/-- The token is the longest match at the start of the text. If it is of unknown kind then nothing
    there matches, and no blank comes first. -/
structure IsLongestMatch (text : List Char) (t : Token) : Prop where
  start : t.lexeme.toList <+: text
  chosen : t.kind ≠ .unknown → Rule.Chooses t.lexeme.toList t.kind
  longest : t.kind ≠ .unknown → ∀ w, w <+: text → t.lexeme.toList.length < w.length →
    ∀ r ∈ Rule.declared, ¬ r.Matches w
  unmatched : t.kind = .unknown → ∀ w, w <+: text → w ≠ [] →
    (∀ r ∈ Rule.declared, ¬ r.Matches w) ∧ w ∉ Rule.blanks.language

/-- What matches at the start of a text is no longer than the token there. -/
theorem length_le_munch {r : Rule} (hr : r ∈ Rule.declared) (h : r.Matches (c :: w))
    (hw : w <+: cs) : w.length ≤ (munch c cs).2 := by
  obtain ⟨kind, hwhole, -⟩ := kind_of_matches hr h
  have hmunch := congrArg Prod.snd (wholeKind?_cons.mp hwhole)
  refine munch_mono (c := c) ?_
  rwa [← List.prefix_iff_eq_take.mp hw]

theorem munch_isLongestMatch (c : Char) (cs : List Char) (hc : isBlank c = false) (span : Span) :
    IsLongestMatch (c :: cs)
      ⟨(munch c cs).1, span, String.ofList (c :: cs.take (munch c cs).2)⟩ := by
  have hlen : (cs.take (munch c cs).2).length = (munch c cs).2 := by
    rw [List.length_take, Nat.min_eq_left (munch_le c cs)]
  refine ⟨?_, ?_, ?_, ?_⟩ <;> simp only [String.toList_ofList]
  · exact List.cons_prefix_cons.mpr ⟨rfl, List.take_prefix _ _⟩
  · intro hkind
    refine chooses_of_wholeKind? hkind (wholeKind?_cons.mpr ?_)
    rw [munch_take, hlen]
  · intro _ w hw hlt r hr hmatch
    match w, hw with
    | d :: v, hw =>
        obtain ⟨rfl, hv⟩ := List.cons_prefix_cons.mp hw
        have hle := length_le_munch hr hmatch hv
        rw [List.length_cons, List.length_cons, hlen] at hlt
        omega
  · intro hkind w hw hne
    obtain ⟨d, v, rfl⟩ := List.exists_cons_of_ne_nil hne
    obtain ⟨rfl, hv⟩ := List.cons_prefix_cons.mp hw
    refine ⟨fun r hr hmatch => ?_, fun hblank => ?_⟩
    · have hzero : (munch d cs).2 = 0 := munch_lone d cs hkind
      have hle := length_le_munch hr hmatch hv
      obtain rfl := List.length_eq_zero_iff.mp (Nat.le_zero.mp (hzero ▸ hle))
      obtain ⟨kind, hwhole, hknown⟩ := kind_of_matches hr hmatch
      have htake := munch_take d cs
      rw [hzero, List.take_zero, wholeKind?_cons.mp hwhole] at htake
      rw [← htake] at hkind
      exact hknown hkind
    · rw [isBlank_of_mem_blanks hblank] at hc
      cases hc

/-- Each token was found at its place. -/
theorem scanFrom_origin (pos : Nat) (cs : List Char) :
    ∀ t ∈ scanFrom pos cs, ∃ before c rest, cs = before ++ c :: rest ∧ isBlank c = false ∧
      t.span.start = pos + byteLength before ∧
      t = ⟨(munch c rest).1, t.span, String.ofList (c :: rest.take (munch c rest).2)⟩ := by
  fun_induction scanFrom pos cs with
  | case1 pos => simp
  | case2 pos c cs hc ih =>
      intro t ht
      obtain ⟨before, d, rest, rfl, hd, hstart, heq⟩ := ih t ht
      refine ⟨c :: before, d, rest, rfl, hd, ?_, heq⟩
      rw [hstart, Nat.add_assoc]
      rfl
  | case3 pos c cs hc kind more hm lexeme stop ih =>
      refine List.forall_mem_cons.mpr ⟨?_, fun t ht => ?_⟩
      · refine ⟨[], c, cs, rfl, Bool.eq_false_of_not_eq_true hc, rfl, ?_⟩
        rw [hm]
      · obtain ⟨before, d, rest, hdrop, hd, hstart, heq⟩ := ih t ht
        refine ⟨lexeme ++ before, d, rest, ?_, hd, ?_, heq⟩
        · rw [List.append_assoc, ← hdrop, List.cons_append, List.take_append_drop]
        · rw [hstart, byteLength_append, Nat.add_assoc]

end Token

/-- Each token but the one at the end is the longest match at the place where it starts. -/
theorem scanning_takes_longest_matches (source : String) :
    ∀ t ∈ Token.tokenize source, t.kind ≠ .eof →
      t.IsLongestMatch (Span.slice source ⟨t.span.start, source.utf8ByteSize⟩).toList := by
  intro t ht hkind
  rcases List.mem_append.mp ht with ht | ht
  · obtain ⟨before, c, rest, hsource, hc, hstart, heq⟩ := Token.scanFrom_origin 0 _ t ht
    have hslice := Span.slice_between before (c :: rest) []
    rw [List.append_nil, ← hsource, byteLength_toList, String.ofList_toList] at hslice
    rw [hstart, Nat.zero_add, hslice, String.toList_ofList, heq]
    exact Token.munch_isLongestMatch c rest hc t.span
  · rw [List.mem_singleton.mp ht] at hkind
    exact absurd rfl hkind

/-- In `1e+x` the exponent has no digits, and the number ends before it. -/
theorem unfinished_exponent_longest_match :
    (⟨.int, ⟨3, 4⟩, "1"⟩ : Token) ∈ Token.tokenize "é 1e+x" ∧
      Token.IsLongestMatch "1e+x".toList ⟨.int, ⟨3, 4⟩, "1"⟩ := by
  have hmem : (⟨.int, ⟨3, 4⟩, "1"⟩ : Token) ∈ Token.tokenize "é 1e+x" := by
    decide +kernel
  exact ⟨hmem, scanning_takes_longest_matches "é 1e+x" _ hmem (by decide)⟩

end ScalarLang
