import Mathlib
import ScalarLang.Proofs.Token.Proper

/-
  Scanning line by line.
  No token goes on after a newline, so a newline cuts a text into two that are scanned apart. A
  scan does not depend on where the text stands but for the spans, which are shifted.
-/

namespace ScalarLang

/-! ## Shifting -/

/-- The span, as many bytes further on. -/
def Span.shift (bytes : Nat) (s : Span) : Span := ⟨s.start + bytes, s.stop + bytes⟩

def Token.shift (bytes : Nat) (t : Token) : Token := { t with span := t.span.shift bytes }

def LexError.shift (bytes : Nat) (e : LexError) : LexError := { e with span := e.span.shift bytes }

theorem LexError.ofToken?_shift (bytes : Nat) (t : Token) :
    ofToken? (t.shift bytes) = (ofToken? t).map (shift bytes) := by
  unfold ofToken?
  by_cases hkind : t.kind = .unknown
  · rw [if_pos (show (t.shift bytes).kind = .unknown from hkind), if_pos hkind]
    rfl
  · rw [if_neg (show ¬ (t.shift bytes).kind = .unknown from hkind), if_neg hkind]
    rfl

namespace Token

theorem scanFrom_add (pos bytes : Nat) (cs : List Char) :
    scanFrom (pos + bytes) cs = (scanFrom pos cs).map (shift bytes) := by
  fun_induction scanFrom pos cs with
  | case1 => simp [scanFrom]
  | case2 pos c cs hc ih =>
      rw [scanFrom, if_pos hc, ← ih]
      congr 1
      omega
  | case3 pos c cs hc kind more hm lexeme stop ih =>
      rw [scanFrom, if_neg hc, hm, List.map_cons, ← ih]
      have hstop : stop + bytes = pos + bytes + byteLength (c :: cs.take more) := by
        simp only [stop, lexeme]
        omega
      rw [hstop]
      simp only [shift, Span.shift, hstop]
      rfl

/-! ## Newlines -/

variable {c : Char} {cs rest : List Char}

theorem apart_newline (kind : TokenKind) (rest : List Char) : kind.Apart ('\n' :: rest) := by
  intro d hd
  obtain rfl : '\n' = d := Option.some.inj hd
  cases kind <;> decide

theorem noNumber_newline (rest : List Char) : NoNumber ('\n' :: rest) := by
  intro d hd
  obtain rfl : '\n' = d := Option.some.inj hd
  exact ⟨by decide, by decide⟩

theorem exponentLength_newline : exponentLength (cs ++ '\n' :: rest) = exponentLength cs := by
  by_cases hcs : ∃ e, cs = [e]
  · obtain ⟨e, rfl⟩ := hcs
    have hdigits : digitsLength ('\n' :: rest) = 0 := rfl
    simp [exponentLength, hdigits]
  · exact exponentLength_append (noNumber_newline rest) fun e he => absurd ⟨e, he⟩ hcs

theorem numberTail_newline : numberTail (cs ++ '\n' :: rest) = numberTail cs := by
  have hnl := noNumber_newline rest
  cases cs with
  | nil => exact numberTail_of_noNumber hnl
  | cons c cs =>
      have hexponent : exponentLength (c :: (cs ++ '\n' :: rest)) = exponentLength (c :: cs) := by
        rw [← List.cons_append, exponentLength_newline]
      have hsuffix : suffixLength ((c :: (cs ++ '\n' :: rest)).drop (exponentLength (c :: cs))) =
          suffixLength ((c :: cs).drop (exponentLength (c :: cs))) := by
        rw [← List.cons_append, List.drop_append_of_le_length (exponentLength_le _),
          suffixLength_append hnl]
      have hdrop (k : Nat) (hk : k ≤ cs.length) :
          (cs ++ '\n' :: rest).drop k = cs.drop k ++ '\n' :: rest :=
        List.drop_append_of_le_length hk
      simp only [List.cons_append, numberTail, hexponent, hsuffix, digitsLength_append hnl,
        hdrop _ (digitsLength_le cs), exponentLength_newline,
        List.drop_append_of_le_length (exponentLength_le _), suffixLength_append hnl]

theorem munchNumber_newline : munchNumber (cs ++ '\n' :: rest) = munchNumber cs := by
  simp only [munchNumber, digitRun_append (noNumber_newline rest),
    List.drop_append_of_le_length (digitRun_le cs), numberTail_newline]

/-- No token goes on after a newline. -/
theorem munch_newline : munch c (cs ++ '\n' :: rest) = munch c cs := by
  unfold munch
  split
  · exact munchNumber_newline
  · split
    · exact munchWord_append (apart_newline _ rest)
    · exact munchSymbol_append (apart_newline _ rest)

/-- The token of a newline that stands at a byte. -/
def newline (pos : Nat) : Token := ⟨.newline, ⟨pos, pos + 1⟩, "\n"⟩

/-- What stands before a newline and what stands after it are scanned apart. -/
theorem scanFrom_newline (pos : Nat) (cs rest : List Char) :
    scanFrom pos (cs ++ '\n' :: rest) =
      scanFrom pos cs ++
        newline (pos + byteLength cs) :: scanFrom (pos + byteLength cs + 1) rest := by
  fun_induction scanFrom pos cs with
  | case1 pos => rw [List.nil_append, scanFrom]; rfl
  | case2 pos c cs hc ih =>
      rw [List.cons_append, scanFrom, if_pos hc, ih, byteLength_cons, Nat.add_assoc]
  | case3 pos c cs hc kind more hm lexeme stop ih =>
      have hle : more ≤ cs.length := by
        have h := munch_le c cs
        rwa [hm] at h
      have hlen : byteLength cs = byteLength (cs.take more) + byteLength (cs.drop more) := by
        rw [← byteLength_append, List.take_append_drop]
      have hsize : pos + byteLength (c :: cs) = stop + byteLength (cs.drop more) := by
        simp only [stop, lexeme, byteLength_cons]
        omega
      rw [List.cons_append, scanFrom, if_neg hc, munch_newline, hm, hsize]
      dsimp only
      rw [List.take_append_of_le_length hle, List.drop_append_of_le_length hle, ih,
        List.cons_append]

theorem scan_newline (first second : String) :
    scan (first ++ "\n" ++ second) =
      scan first ++ newline (byteLength first.toList) ::
        (scan second).map (shift (byteLength first.toList + 1)) := by
  have htext : (first ++ "\n" ++ second).toList = first.toList ++ '\n' :: second.toList := by simp
  rw [scan, htext, scanFrom_newline, Nat.zero_add, ← Nat.zero_add (byteLength first.toList + 1),
    scanFrom_add, Nat.zero_add]
  rfl

theorem byteLength_newline (first second : String) :
    byteLength (first ++ "\n" ++ second).toList =
      byteLength second.toList + (byteLength first.toList + 1) := by
  have hone : '\n'.utf8Size = 1 := rfl
  simp [hone]
  omega

/-- All tokens of two lines, with the end marker. -/
theorem tokenize_newline (first second : String) :
    tokenize (first ++ "\n" ++ second) =
      (tokenize first).dropLast ++ [newline (byteLength first.toList)] ++
        (tokenize second).map (shift (byteLength first.toList + 1)) := by
  have hend : eof (byteLength (first ++ "\n" ++ second).toList) =
      (eof (byteLength second.toList)).shift (byteLength first.toList + 1) := by
    rw [byteLength_newline]
    rfl
  rw [tokenize, hend, scan_newline, tokenize, List.dropLast_concat, tokenize]
  simp

theorem lexErrors_newline (first second : String) :
    lexErrors (first ++ "\n" ++ second) =
      lexErrors first ++ (lexErrors second).map (.shift (byteLength first.toList + 1)) := by
  have hshift : LexError.ofToken? ∘ shift (byteLength first.toList + 1) = fun t =>
      (LexError.ofToken? t).map (.shift (byteLength first.toList + 1)) :=
    funext (LexError.ofToken?_shift _)
  have hnewline : LexError.ofToken? (newline (byteLength first.toList)) = none := rfl
  rw [lexErrors, scan_newline, List.filterMap_append, List.filterMap_cons_none hnewline,
    List.filterMap_map, hshift, lexErrors, lexErrors, List.map_filterMap]

end Token

end ScalarLang
