import Mathlib
import ScalarLang.Token.Scan

/-
  Texts laid out from lexemes.
  A lexeme is a token without its place. Scanning takes as many characters as belong together, so
  a lexeme in front of other text is found again if the character after it cannot become a part of
  it. Lexemes written one after the other, with blanks between them at least where two would run
  together, are therefore scanned as those lexemes.
-/

namespace ScalarLang

/-- What a token is and how it is spelled. -/
structure Lexeme where
  kind : TokenKind
  text : String
deriving DecidableEq

def Token.erase (t : Token) : Lexeme := ⟨t.kind, t.lexeme⟩

/-- Scanned alone, the text is one token of the kind. -/
def Lexeme.isProper (l : Lexeme) : Bool :=
  match l.text.toList with
  | [] => false
  | c :: cs => !isBlank c && decide (Token.munch c cs = (l.kind, cs.length))

/-- Characters that, directly after a token of the kind, might become a part of it. -/
def TokenKind.joins : TokenKind → Char → Bool
  | int, c | unsigned, c | float, c => isWordChar c || c == '.'
  | defWord, c | ifWord, c | whenWord, c | elseWord, c | trueWord, c | falseWord, c | nanWord, c
  | infinityWord, c | ident, c => isWordChar c
  | slash, c => c == '/'
  | lt, c => c == '<' || c == '='
  | gt, c => c == '>' || c == '='
  | comment, c => c != '\n'
  | unknown, c => c == '='
  | _, _ => false

/-- The text does not go on with a character that might join the kind. -/
def TokenKind.Apart (kind : TokenKind) (rest : List Char) : Prop :=
  ∀ d ∈ rest.head?, kind.joins d = false

/-! ## Numbers -/

namespace Token

variable {c : Char} {cs rest : List Char}

theorem takeWhile_append_of_head {p : Char → Bool} (h : ∀ d ∈ rest.head?, p d = false) :
    (cs ++ rest).takeWhile p = cs.takeWhile p := by
  have hrest : rest.takeWhile p = [] := by
    cases rest with
    | nil => rfl
    | cons d rest => rw [List.takeWhile_cons, h d rfl]; rfl
  rw [List.takeWhile_append, hrest, List.append_nil]
  split
  · rename_i hall
    exact ((List.takeWhile_prefix p).eq_of_length hall).symm
  · rfl

/-- The text does not go on with a character that a number may have. -/
def NoNumber (rest : List Char) : Prop := ∀ d ∈ rest.head?, isWordChar d = false ∧ d ≠ '.'

theorem isDigitChar_isWordChar (h : isWordChar c = false) : isDigitChar c = false := by
  simp only [isWordChar, Char.isAlphanum, isDigitChar, Bool.or_eq_false_iff] at h ⊢
  exact ⟨h.1.2, h.2⟩

theorem beq_of_isWordChar (h : isWordChar c = false) (d : Char) (hd : isWordChar d = true) :
    (c == d) = false := by
  refine beq_false_of_ne fun hcd => ?_
  rw [hcd, hd] at h
  cases h

theorem isFloatSuffix_isWordChar (h : isWordChar c = false) : isFloatSuffix c = false := by
  simp only [isFloatSuffix, beq_of_isWordChar h 'f' (by decide),
    beq_of_isWordChar h 'F' (by decide), beq_of_isWordChar h 'h' (by decide),
    beq_of_isWordChar h 'H' (by decide), beq_of_isWordChar h 'd' (by decide),
    beq_of_isWordChar h 'D' (by decide), Bool.or_self]

theorem digitRun_append (h : NoNumber rest) : digitRun (cs ++ rest) = digitRun cs := by
  rw [digitRun, takeWhile_append_of_head fun d hd => isDigitChar_isWordChar (h d hd).1]
  rfl

theorem digitRun_le (cs : List Char) : digitRun cs ≤ cs.length :=
  (List.takeWhile_prefix _).length_le

theorem digitsLength_append (h : NoNumber rest) : digitsLength (cs ++ rest) = digitsLength cs := by
  cases cs with
  | cons d cs => simp only [List.cons_append, digitsLength, digitRun_append h]
  | nil =>
      cases rest with
      | nil => rfl
      | cons d rest =>
          have hd := isDigitChar_isWordChar (h d rfl).1
          simp only [isDigitChar, Bool.or_eq_false_iff] at hd
          simp [digitsLength, hd.1]

theorem digitsLength_le (cs : List Char) : digitsLength cs ≤ cs.length := by
  cases cs with
  | nil => exact Nat.le_refl _
  | cons d cs =>
      have hrun := digitRun_le cs
      simp only [digitsLength, List.length_cons]
      split <;> omega

theorem suffixLength_append (h : NoNumber rest) : suffixLength (cs ++ rest) = suffixLength cs := by
  cases cs with
  | cons d cs => rfl
  | nil =>
      cases rest with
      | nil => rfl
      | cons d rest => simp [suffixLength, isFloatSuffix_isWordChar (h d rfl).1]

/-- An `e` at the very end may be the start of an exponent that comes after it. -/
theorem exponentLength_append (h : NoNumber rest) (hcs : ∀ e, cs = [e] → e ≠ 'e' ∧ e ≠ 'E') :
    exponentLength (cs ++ rest) = exponentLength cs := by
  match cs with
  | [] =>
      cases rest with
      | nil => rfl
      | cons d rest =>
          have hword := (h d rfl).1
          simp [exponentLength, beq_of_isWordChar hword 'e' (by decide),
            beq_of_isWordChar hword 'E' (by decide)]
  | [e] =>
      obtain ⟨he, hE⟩ := hcs e rfl
      simp [exponentLength, he, hE]
  | e :: s :: ds =>
      have hds : digitsLength (ds ++ rest) = digitsLength ds := digitsLength_append h
      have hsds : digitsLength (s :: (ds ++ rest)) = digitsLength (s :: ds) := by
        rw [← List.cons_append, digitsLength_append h]
      simp only [List.cons_append, exponentLength, hds, hsds]

theorem exponentLength_le (cs : List Char) : exponentLength cs ≤ cs.length := by
  match cs with
  | [] => exact Nat.le_refl _
  | [e] => simp [exponentLength]
  | e :: s :: ds =>
      have hds := digitsLength_le ds
      have hsds := digitsLength_le (s :: ds)
      simp only [exponentLength, List.length_cons] at hsds ⊢
      split_ifs <;> omega

/-- The length of an exponent part and a suffix. -/
def scaleLength (cs : List Char) : Nat :=
  exponentLength cs + suffixLength (cs.drop (exponentLength cs))

theorem scaleLength_append (h : NoNumber rest) (hfull : scaleLength cs = cs.length) :
    exponentLength (cs ++ rest) = exponentLength cs ∧
      suffixLength ((cs ++ rest).drop (exponentLength cs)) =
        suffixLength (cs.drop (exponentLength cs)) := by
  refine ⟨exponentLength_append h fun e he => ?_, ?_⟩
  · subst he
    constructor
    · rintro rfl
      exact absurd hfull (by decide)
    · rintro rfl
      exact absurd hfull (by decide)
  · rw [List.drop_append_of_le_length (exponentLength_le cs)]
    exact suffixLength_append h

theorem numberTail_of_noNumber (h : NoNumber rest) : numberTail rest = (.int, 0) := by
  cases rest with
  | nil => rfl
  | cons d rest =>
      obtain ⟨hword, hdot⟩ := h d rfl
      have hexponent : exponentLength ([] ++ d :: rest) = 0 :=
        exponentLength_append h fun e he => nomatch he
      rw [List.nil_append] at hexponent
      simp [numberTail, hdot, beq_of_isWordChar hword 'u' (by decide),
        beq_of_isWordChar hword 'U' (by decide), hexponent, isFloatSuffix_isWordChar hword]

theorem numberTail_append (h : NoNumber rest) (hfull : (numberTail cs).2 = cs.length) :
    numberTail (cs ++ rest) = numberTail cs := by
  cases cs with
  | nil => exact numberTail_of_noNumber h
  | cons c cs =>
      simp only [numberTail, List.length_cons] at hfull
      simp only [numberTail, List.cons_append]
      split_ifs at hfull with hdot hfraction hunsigned hexponent hsuffix
      · have hle := digitsLength_le cs
        have hscale : scaleLength (cs.drop (digitsLength cs)) =
            (cs.drop (digitsLength cs)).length := by
          rw [scaleLength, List.length_drop]
          omega
        obtain ⟨he, hs⟩ := scaleLength_append h hscale
        rw [if_pos hdot, if_pos hdot, digitsLength_append h, if_neg hfraction, if_neg hfraction,
          List.drop_append_of_le_length hle, he, hs]
      · rw [if_neg hdot, if_neg hdot, if_pos hunsigned, if_pos hunsigned]
      · have he : exponentLength (c :: (cs ++ rest)) = exponentLength (c :: cs) := by
          rw [← List.cons_append]
          refine exponentLength_append h fun e he => ?_
          obtain rfl : c = e := (List.cons.inj he).1
          constructor <;> rintro rfl <;> cases hsuffix
        rw [if_neg hdot, if_neg hdot, he, if_pos hexponent, if_pos hexponent]
      · have hscale : scaleLength (c :: cs) = (c :: cs).length := hfull
        obtain ⟨he, hs⟩ := scaleLength_append h hscale
        rw [List.cons_append] at he hs
        rw [if_neg hdot, if_neg hdot, he, hs]

theorem numberTail_kind (cs : List Char) :
    (numberTail cs).1 = .int ∨ (numberTail cs).1 = .unsigned ∨ (numberTail cs).1 = .float := by
  cases cs with
  | nil => exact .inl rfl
  | cons c cs =>
      simp only [numberTail]
      split_ifs <;> simp

theorem munchNumber_append (hfull : (munchNumber cs).2 = cs.length)
    (h : (munchNumber cs).1.Apart rest) : munchNumber (cs ++ rest) = munchNumber cs := by
  have hrest : NoNumber rest := by
    intro d hd
    have hd := h d hd
    rcases numberTail_kind (cs.drop (digitRun cs)) with hkind | hkind | hkind <;>
      simpa [munchNumber, hkind, TokenKind.joins] using hd
  have hle := digitRun_le cs
  have htail : (numberTail (cs.drop (digitRun cs))).2 = (cs.drop (digitRun cs)).length := by
    simp only [munchNumber] at hfull
    rw [List.length_drop]
    omega
  simp only [munchNumber, digitRun_append hrest, List.drop_append_of_le_length hle,
    numberTail_append hrest htail]

/-! ## Words and symbols -/

theorem wordKind_joins (word : List Char) (d : Char) : (wordKind word).joins d = isWordChar d := by
  unfold wordKind reserved
  simp only [List.lookup]
  repeat' split
  all_goals rfl

theorem munchWord_append (h : (munchWord c cs).1.Apart rest) :
    munchWord c (cs ++ rest) = munchWord c cs := by
  have hstop : ∀ d ∈ rest.head?, isWordChar d = false := by
    intro d hd
    have hd := h d hd
    rwa [munchWord, wordKind_joins] at hd
  simp only [munchWord, takeWhile_append_of_head hstop]

theorem oneOrTwo_append {next : Char} {two one : TokenKind}
    (hone : one.joins next = true) (h : (oneOrTwo next two one cs).1.Apart rest) :
    oneOrTwo next two one (cs ++ rest) = oneOrTwo next two one cs := by
  cases cs with
  | cons d cs => rfl
  | nil =>
      cases rest with
      | nil => rfl
      | cons d rest =>
          have hd : one.joins d = false := h d rfl
          have hne : (d == next) = false := beq_false_of_ne fun he => by
            rw [he, hone] at hd
            cases hd
          simp [oneOrTwo, hne]

theorem shift_append {c : Char} {shift two one : TokenKind} (hc : one.joins c = true)
    (hone : one.joins '=' = true)
    (h : (if cs.head? == some c then (shift, 1) else oneOrTwo '=' two one cs).1.Apart rest) :
    (if (cs ++ rest).head? == some c then (shift, 1) else oneOrTwo '=' two one (cs ++ rest)) =
      if cs.head? == some c then (shift, 1) else oneOrTwo '=' two one cs := by
  cases cs with
  | cons d cs => rfl
  | nil =>
      have hhead : rest.head? ≠ some c := fun hd => by
        have hjoins : one.joins c = false := h c hd
        rw [hc] at hjoins
        cases hjoins
      have hone : oneOrTwo '=' two one ([] ++ rest) = oneOrTwo '=' two one [] :=
        oneOrTwo_append hone h
      rw [List.nil_append, if_neg (by simpa using hhead)]
      exact hone

theorem munchSlash_append (h : (munchSymbol '/' cs).1.Apart rest) :
    munchSymbol '/' (cs ++ rest) = munchSymbol '/' cs := by
  cases cs with
  | nil =>
      have hhead : rest.head? ≠ some '/' := fun hd => nomatch h '/' hd
      simp [munchSymbol, hhead]
  | cons d cs =>
      by_cases hd : d = '/'
      · subst hd
        have hstop : ∀ d ∈ rest.head?, (d != '\n') = false := h
        simp only [munchSymbol, List.cons_append, List.head?_cons, beq_self_eq_true, if_true]
        rw [← List.cons_append, takeWhile_append_of_head hstop]
      · simp [munchSymbol, hd]

theorem munchSymbol_append (h : (munchSymbol c cs).1.Apart rest) :
    munchSymbol c (cs ++ rest) = munchSymbol c cs := by
  unfold munchSymbol at h ⊢
  split
  case h_4 => exact munchSlash_append h
  case h_5 => exact oneOrTwo_append rfl h
  case h_6 => exact oneOrTwo_append rfl h
  case h_7 => exact shift_append rfl rfl h
  case h_8 => exact shift_append rfl rfl h
  all_goals rfl

/-- A token that takes all characters there are takes no more of them if others follow. -/
theorem munch_append (hfull : (munch c cs).2 = cs.length) (h : (munch c cs).1.Apart rest) :
    munch c (cs ++ rest) = munch c cs := by
  unfold munch at hfull h ⊢
  split
  · rename_i hdigit
    rw [if_pos hdigit] at hfull h
    exact munchNumber_append hfull h
  · rename_i hdigit
    rw [if_neg hdigit] at h
    split
    · rename_i hstart
      rw [if_pos hstart] at h
      exact munchWord_append h
    · rename_i hstart
      rw [if_neg hstart] at h
      exact munchSymbol_append h

end Token

/-! ## Layouts -/

/-- The text is made of the lexemes, in this order, and of blanks. Where a lexeme ends, the
    character that follows cannot become a part of it. -/
inductive LaidOut : List Lexeme → List Char → Prop
  | done : LaidOut [] []
  | blank {c : Char} {ls : List Lexeme} {cs : List Char} (hc : isBlank c = true)
      (h : LaidOut ls cs) : LaidOut ls (c :: cs)
  | lexeme {l : Lexeme} {ls : List Lexeme} {cs : List Char} (happ : l.kind.Apart cs)
      (h : LaidOut ls cs) : LaidOut (l :: ls) (l.text.toList ++ cs)

namespace LaidOut

variable {ls : List Lexeme} {cs : List Char}

theorem scanFrom_lexeme {l : Lexeme} (hl : l.isProper = true) (happ : l.kind.Apart cs)
    (pos : Nat) : ∃ t pos', t.erase = l ∧
      Token.scanFrom pos (l.text.toList ++ cs) = t :: Token.scanFrom pos' cs := by
  unfold Lexeme.isProper at hl
  split at hl
  · cases hl
  · rename_i c rest htext
    obtain ⟨hblank, hmunch⟩ := (Bool.and_eq_true _ _).mp hl
    have hmunch := of_decide_eq_true hmunch
    have hblank : isBlank c = false := by simpa using hblank
    have hall : Token.munch c (rest ++ cs) = (l.kind, rest.length) := by
      rw [Token.munch_append (by rw [hmunch]) (by rw [hmunch]; exact happ), hmunch]
    refine ⟨⟨l.kind, ⟨pos, pos + byteLength (c :: rest)⟩, l.text⟩,
      pos + byteLength (c :: rest), rfl, ?_⟩
    rw [htext, List.cons_append, Token.scanFrom]
    simp only [hblank, Bool.false_eq_true, if_false, hall, List.take_left, List.drop_left]
    rw [← htext, String.ofList_toList]

/-- Scanning finds the lexemes. -/
theorem scanFrom (h : LaidOut ls cs) (hls : ∀ l ∈ ls, l.isProper = true) (pos : Nat) :
    (Token.scanFrom pos cs).map Token.erase = ls := by
  induction h generalizing pos with
  | done => simp [Token.scanFrom]
  | blank hc _ ih =>
      rw [Token.scanFrom, if_pos hc]
      exact ih hls _
  | lexeme happ _ ih =>
      obtain ⟨hl, hls⟩ := List.forall_mem_cons.mp hls
      obtain ⟨t, pos', herase, hscan⟩ := scanFrom_lexeme hl happ pos
      rw [hscan, List.map_cons, herase, ih hls pos']

/-- A blank after every lexeme keeps them apart, comments excepted. -/
theorem spaced (hls : ∀ l ∈ ls, l.kind ≠ .comment) :
    LaidOut ls (ls.flatMap fun l => l.text.toList ++ [' ']) := by
  induction ls with
  | nil => exact .done
  | cons l ls ih =>
      obtain ⟨hl, hls⟩ := List.forall_mem_cons.mp hls
      rw [List.flatMap_cons, List.append_assoc]
      refine .lexeme (fun d hd => ?_) (.blank rfl (ih hls))
      obtain rfl : ' ' = d := Option.some.inj hd
      revert hl
      cases l.kind <;> decide

end LaidOut

end ScalarLang
