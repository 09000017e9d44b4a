import Mathlib
import ScalarLang.Proofs.Token.Layout

/-
  The lexemes of a scan, by themselves.
  What follows a token decides where it ends, but not what it is: scanned alone, the lexeme of a
  token is one token of the same kind. Keywords, operators and punctuation have one spelling each.
-/

namespace ScalarLang

/-- Kinds with one spelling, which is their text. -/
def TokenKind.isFixed : TokenKind → Bool
  | int | unsigned | float | ident | infinityWord | comment | newline | eof | unknown => false
  | _ => true

namespace Token

variable {c : Char} {cs : List Char} {n : Nat}

/-! ## Lengths -/

theorem suffixLength_le (cs : List Char) : suffixLength cs ≤ cs.length := by
  cases cs with
  | nil => exact Nat.le_refl _
  | cons c cs =>
      simp only [suffixLength, List.length_cons]
      split <;> omega

theorem numberTail_le (cs : List Char) : (numberTail cs).2 ≤ cs.length := by
  cases cs with
  | nil => exact Nat.le_refl _
  | cons c cs =>
      have hdigits := digitsLength_le cs
      have hexponent := exponentLength_le (cs.drop (digitsLength cs))
      have hsuffix := suffixLength_le ((cs.drop (digitsLength cs)).drop
        (exponentLength (cs.drop (digitsLength cs))))
      have hexponent' := exponentLength_le (c :: cs)
      have hsuffix' := suffixLength_le ((c :: cs).drop (exponentLength (c :: cs)))
      simp only [List.length_drop, List.length_cons] at hexponent hsuffix hexponent' hsuffix'
      simp only [numberTail, List.length_cons]
      split_ifs <;> simp only <;> omega

theorem oneOrTwo_le (next : Char) (two one : TokenKind) (cs : List Char) :
    (oneOrTwo next two one cs).2 ≤ cs.length := by
  unfold oneOrTwo
  split
  · split <;> simp
  · exact Nat.le_refl _

theorem munchSymbol_le (c : Char) (cs : List Char) : (munchSymbol c cs).2 ≤ cs.length := by
  have hshift (d : Char) (kind : TokenKind) (r : TokenKind × Nat) (hr : r.2 ≤ cs.length) :
      (if cs.head? == some d then (kind, 1) else r).2 ≤ cs.length := by
    cases cs with
    | nil => exact hr
    | cons e cs => split <;> simp_all
  unfold munchSymbol
  split
  case h_4 =>
    split
    · exact (List.takeWhile_prefix _).length_le
    · exact Nat.zero_le _
  case h_5 | h_6 => exact oneOrTwo_le _ _ _ _
  case h_7 | h_8 => exact hshift _ _ _ (oneOrTwo_le _ _ _ _)
  all_goals exact Nat.zero_le _

/-- A token takes no more characters than there are. -/
theorem munch_le (c : Char) (cs : List Char) : (munch c cs).2 ≤ cs.length := by
  unfold munch
  split
  · have hrun := digitRun_le cs
    have htail := numberTail_le (cs.drop (digitRun cs))
    rw [List.length_drop] at htail
    simp only [munchNumber]
    omega
  · split
    · exact (List.takeWhile_prefix _).length_le
    · exact munchSymbol_le c cs

/-! ## Numbers -/

theorem digitRun_take (n : Nat) (cs : List Char) : digitRun (cs.take n) = min n (digitRun cs) := by
  rw [digitRun, ← List.take_takeWhile, List.length_take]
  rfl

theorem digitsLength_take (n : Nat) (cs : List Char) :
    digitsLength (cs.take n) = min n (digitsLength cs) := by
  cases n with
  | zero => simp [digitsLength]
  | succ n =>
      cases cs with
      | nil => simp [digitsLength]
      | cons d cs =>
          rw [List.take_succ_cons, digitsLength, digitsLength]
          split
          · rw [digitRun_take]
            omega
          · simp

theorem suffixLength_take (h : suffixLength cs ≤ n) :
    suffixLength (cs.take n) = suffixLength cs := by
  cases cs with
  | nil => simp
  | cons d cs =>
      cases n with
      | zero => exact (Nat.le_zero.mp h).symm
      | succ n => rfl

theorem exponentLength_take (h : exponentLength cs ≤ n) :
    exponentLength (cs.take n) = exponentLength cs := by
  match cs, n with
  | [], _ => simp
  | _ :: _, 0 => exact (Nat.le_zero.mp h).symm
  | [_], _ + 1 => simp
  | e :: s :: ds, 1 =>
      simp only [exponentLength, List.take_succ_cons, List.take_zero] at h ⊢
      split_ifs at h ⊢ <;> omega
  | e :: s :: ds, n + 2 =>
      have hds := digitsLength_take n ds
      have hcs := digitsLength_take (n + 1) (s :: ds)
      simp only [exponentLength, List.take_succ_cons] at h hcs ⊢
      rw [hds, hcs]
      split_ifs at h ⊢ <;> omega

theorem scaleLength_take (cs : List Char) :
    scaleLength (cs.take (scaleLength cs)) = scaleLength cs := by
  have hexponent : exponentLength (cs.take (scaleLength cs)) = exponentLength cs :=
    exponentLength_take (Nat.le_add_right _ _)
  rw [scaleLength, hexponent, List.drop_take, scaleLength, Nat.add_sub_cancel_left,
    suffixLength_take le_rfl]

theorem numberTail_fraction (hfraction : digitsLength cs ≠ 0) :
    numberTail ('.' :: cs) =
      (.float, digitsLength cs + scaleLength (cs.drop (digitsLength cs)) + 1) := by
  simp only [numberTail, if_neg hfraction, scaleLength]
  rw [if_pos (beq_self_eq_true '.'), Prod.mk.injEq]
  exact ⟨rfl, by omega⟩

theorem numberTail_exponent (hdot : c ≠ '.') (hunsigned : ¬ (c == 'u' || c == 'U') = true)
    (hexponent : exponentLength (c :: cs) ≠ 0) :
    numberTail (c :: cs) = (.float, scaleLength (c :: cs)) := by
  simp only [numberTail, if_neg hunsigned, if_neg hexponent, scaleLength]
  rw [if_neg (by simpa using hdot)]

theorem numberTail_take (cs : List Char) :
    numberTail (cs.take (numberTail cs).2) = numberTail cs := by
  cases cs with
  | nil => rfl
  | cons c cs =>
      by_cases hdot : c = '.'
      · subst hdot
        by_cases hfraction : digitsLength cs = 0
        · simp [numberTail, hfraction]
        · have hdigits : digitsLength (cs.take (digitsLength cs +
              scaleLength (cs.drop (digitsLength cs)))) = digitsLength cs := by
            rw [digitsLength_take, Nat.min_eq_right (Nat.le_add_right _ _)]
          rw [numberTail_fraction hfraction, List.take_succ_cons,
            numberTail_fraction (by rwa [hdigits]), hdigits, List.drop_take,
            Nat.add_sub_cancel_left, scaleLength_take]
      · by_cases hunsigned : (c == 'u' || c == 'U') = true
        · simp [numberTail, hdot, hunsigned]
        · by_cases hexponent : exponentLength (c :: cs) = 0
          · by_cases hsuffix : isFloatSuffix c = true
            · have hone : exponentLength [c] = 0 := by simp [exponentLength]
              simp [numberTail, hdot, hunsigned, hexponent, hsuffix, hone]
            · simp [numberTail, hdot, hunsigned, hexponent, hsuffix]
          · have hscale := scaleLength_take (c :: cs)
            have htake : exponentLength ((c :: cs).take (scaleLength (c :: cs))) ≠ 0 := by
              rwa [exponentLength_take (show _ ≤ scaleLength _ from Nat.le_add_right _ _)]
            have hpos : scaleLength (c :: cs) ≠ 0 := by
              rw [scaleLength]
              omega
            obtain ⟨m, hm⟩ := Nat.exists_eq_succ_of_ne_zero hpos
            rw [hm, List.take_succ_cons] at htake hscale
            rw [numberTail_exponent hdot hunsigned hexponent, hm, List.take_succ_cons,
              numberTail_exponent hdot hunsigned htake, hscale]

theorem munchNumber_take (cs : List Char) :
    munchNumber (cs.take (munchNumber cs).2) = munchNumber cs := by
  simp only [munchNumber]
  rw [digitRun_take, Nat.min_eq_right (Nat.le_add_right _ _), List.drop_take,
    Nat.add_sub_cancel_left, numberTail_take]

/-! ## Words and symbols -/

theorem munchWord_take (c : Char) (cs : List Char) :
    munchWord c (cs.take (munchWord c cs).2) = munchWord c cs := by
  simp only [munchWord, ← List.take_takeWhile, List.take_length]

theorem oneOrTwo_take (next : Char) (two one : TokenKind) (cs : List Char) :
    oneOrTwo next two one (cs.take (oneOrTwo next two one cs).2) = oneOrTwo next two one cs := by
  cases cs with
  | nil => rfl
  | cons d cs =>
      by_cases h : (d == next) = true
      · simp only [oneOrTwo, if_pos h, List.take_succ_cons]
      · simp only [oneOrTwo, if_neg h, List.take_zero]

theorem shift_take (c : Char) (shift two one : TokenKind) (cs : List Char) :
    let r : List Char → TokenKind × Nat := fun cs =>
      if cs.head? == some c then (shift, 1) else oneOrTwo '=' two one cs
    r (cs.take (r cs).2) = r cs := by
  intro r
  by_cases hhead : (cs.head? == some c) = true
  · have hr : r cs = (shift, 1) := if_pos hhead
    rw [hr]
    refine if_pos ?_
    cases cs <;> simp_all
  · have hr : r cs = oneOrTwo '=' two one cs := if_neg hhead
    have htake : ∀ n, ¬ ((cs.take n).head? == some c) = true := by
      intro n
      rw [List.head?_take]
      split
      · simp
      · exact hhead
    rw [hr]
    exact (if_neg (htake _)).trans (oneOrTwo_take '=' two one cs)

theorem munchSymbol_take (c : Char) (cs : List Char) :
    munchSymbol c (cs.take (munchSymbol c cs).2) = munchSymbol c cs := by
  unfold munchSymbol
  split
  case h_4 =>
    cases cs with
    | nil => rfl
    | cons d cs => by_cases hd : d = '/' <;> simp [hd, ← List.take_takeWhile]
  case h_5 | h_6 => exact oneOrTwo_take _ _ _ cs
  case h_7 | h_8 => exact shift_take _ _ _ _ cs
  all_goals rfl

theorem munch_take (c : Char) (cs : List Char) : munch c (cs.take (munch c cs).2) = munch c cs := by
  unfold munch
  split
  · exact munchNumber_take cs
  · split
    · exact munchWord_take c cs
    · exact munchSymbol_take c cs

/-! ## Tokens -/

/-- Scanned alone, a lexeme is the token that it was found as. -/
theorem scanFrom_proper (pos : Nat) (cs : List Char) :
    ∀ t ∈ scanFrom pos cs, t.erase.isProper = true := by
  fun_induction scanFrom pos cs with
  | case1 pos => simp
  | case2 pos c cs hc ih => exact ih
  | case3 pos c cs hc kind more hm lexeme stop ih =>
      refine List.forall_mem_cons.mpr ⟨?_, ih⟩
      have hlen : (cs.take more).length = more := by
        have hle := munch_le c cs
        rw [hm] at hle
        rw [List.length_take, Nat.min_eq_left hle]
      have htake := munch_take c cs
      rw [hm] at htake
      unfold erase Lexeme.isProper
      simp [lexeme, htake, hlen, hc]

/-- If the kind has one spelling then the token that starts with `c` is spelled so. -/
def Spells (c : Char) (cs : List Char) (r : TokenKind × Nat) : Prop :=
  r.1.isFixed = true → String.ofList (c :: cs.take r.2) = r.1.text

theorem munchNumber_spells (c : Char) (cs : List Char) : Spells c cs (munchNumber cs) := by
  intro h
  rcases numberTail_kind (cs.drop (digitRun cs)) with hkind | hkind | hkind <;>
    simp [munchNumber, hkind, TokenKind.isFixed] at h

theorem wordKind_text {word : List Char} (h : (wordKind word).isFixed = true) :
    String.ofList word = (wordKind word).text := by
  have hall : ∀ entry ∈ reserved, entry.2.isFixed = true →
      String.ofList entry.1 = entry.2.text := by decide
  cases hlookup : reserved.lookup word with
  | none => rw [wordKind, hlookup] at h; cases h
  | some kind =>
      rw [wordKind, hlookup] at h ⊢
      obtain ⟨before, after, hsplit, -⟩ := List.lookup_eq_some_iff.mp hlookup
      exact hall (word, kind) (by simp [hsplit]) h

theorem munchWord_spells (c : Char) (cs : List Char) : Spells c cs (munchWord c cs) := by
  intro h
  have htake : cs.take (cs.takeWhile isWordChar).length = cs.takeWhile isWordChar :=
    (List.prefix_iff_eq_take.mp (List.takeWhile_prefix _)).symm
  rw [munchWord, htake]
  exact wordKind_text h

theorem oneOrTwo_spells {c next : Char} {two one : TokenKind} (hone : Spells c cs (one, 0))
    (htwo : String.ofList [c, next] = two.text) : Spells c cs (oneOrTwo next two one cs) := by
  cases cs with
  | nil => exact hone
  | cons d cs =>
      rw [oneOrTwo]
      split
      · rename_i hd
        obtain rfl : d = next := by simpa using hd
        exact fun _ => htwo
      · exact hone

theorem munchSymbol_spells (c : Char) (cs : List Char) : Spells c cs (munchSymbol c cs) := by
  have hshift {c d : Char} {kind : TokenKind} {r : TokenKind × Nat} (hr : Spells c cs r)
      (htwo : String.ofList [c, d] = kind.text) :
      Spells c cs (if cs.head? == some d then (kind, 1) else r) := by
    cases cs with
    | nil => exact hr
    | cons e cs =>
        split
        · rename_i he
          obtain rfl : e = d := by simpa using he
          exact fun _ => htwo
        · exact hr
  unfold munchSymbol
  split
  case h_4 =>
    split
    · exact fun h => nomatch h
    · exact fun _ => rfl
  case h_5 | h_6 => exact oneOrTwo_spells (fun h => nomatch h) rfl
  case h_7 | h_8 => exact hshift (oneOrTwo_spells (fun _ => rfl) rfl) rfl
  case h_18 | h_19 => exact fun h => nomatch h
  all_goals exact fun _ => rfl

theorem munch_spells (c : Char) (cs : List Char) : Spells c cs (munch c cs) := by
  unfold munch
  split
  · exact munchNumber_spells c cs
  · split
    · exact munchWord_spells c cs
    · exact munchSymbol_spells c cs

theorem scanFrom_spells (pos : Nat) (cs : List Char) :
    ∀ t ∈ scanFrom pos cs, t.kind.isFixed = true → t.lexeme = t.kind.text := by
  fun_induction scanFrom pos cs with
  | case1 pos => simp
  | case2 pos c cs hc ih => exact ih
  | case3 pos c cs hc kind more hm lexeme stop ih =>
      have hspells := munch_spells c cs
      rw [hm] at hspells
      exact List.forall_mem_cons.mpr ⟨hspells, ih⟩

end Token

end ScalarLang
