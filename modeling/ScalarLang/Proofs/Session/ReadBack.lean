import Mathlib
import ScalarLang.Proofs.Decimal.Numeral
import ScalarLang.Proofs.Parse.Contents
import ScalarLang.Proofs.Parse.RoundTrip
import ScalarLang.Proofs.Session.Fresh

/-
  Printed values are read back.
  The text of a value is a literal, or a literal after a minus. Numbers whose text does not show
  their type get the suffix of the type. Evaluating the text gives the literal's value or its
  negation, which is the value that was printed.
-/

namespace ScalarLang

/-! ## Literals alone -/

theorem Node.erase_eq_literal {node : Node} {span : Span} {value : Literal}
    (h : node.erase = .literal span value) : ∃ span', node = .literal span' value := by
  cases node <;> cases h
  exact ⟨_, rfl⟩

theorem Node.erase_eq_negate {node operand : Node} {span : Span}
    (h : node.erase = .negate span operand) :
    ∃ span' operand', node = .negate span' operand' ∧ operand'.erase = operand := by
  cases node <;> cases h
  exact ⟨_, _, rfl, rfl⟩

theorem Literal.spelledBy_of_literal? {l : Lexeme} {value : Literal} (hproper : l.isProper = true)
    (h : l.literal? = some (.ok value)) : value.SpelledBy l := by
  refine ⟨hproper, ?_⟩
  rw [if_neg (Token.literal_ne_least h)]
  exact h

theorem LaidOut.single (l : Lexeme) : LaidOut [l] l.text.toList := by
  have happ : l.kind.Apart [] := by simp [TokenKind.Apart]
  simpa using LaidOut.lexeme happ .done

namespace Probe

/-- A text that an expression is laid out as gives the value of the expression. -/
theorem outcome_of_laidOut (spell : Span → Literal → Lexeme) (node : Node) {text : String}
    {v : Value} (hnode : node.definition? = none) (hwritable : node.Writable spell)
    (hlayout : LaidOut (node.lexemes spell) text.toList)
    (hmeans : ∀ node', node'.erase = node.erase →
      (∀ p, WellTyped p node') ∧ ∀ call, node'.eval call = .ok v) :
    outcome text = .ok (some v) := by
  have hnone : Lexeme.Separators [] := List.forall_mem_nil _
  have hwrites : node.Writes spell (node.lexemes spell) := by simp [Node.Writes, hnode]
  have hline : Lines (Node.Writes spell) [node] (node.lexemes spell) := by
    simpa using Lines.line hwrites hnone (absurd rfl) .done
  have hprints : (⟨[node]⟩ : Fragment).Prints spell text :=
    ⟨_, ⟨[], _, hnone, hline, rfl⟩, hlayout⟩
  have hstatement : ∀ n ∈ [node], n.IsStatement spell := by
    simp [Node.IsStatement, hnode, hwritable]
  obtain ⟨g, hparse, herase⟩ := Fragment.parse_of_prints hstatement hprints
  have hnodes : g.nodes.map Node.erase = [node.erase] := by
    rw [← Node.eraseAll_eq_map]
    exact congrArg Fragment.nodes herase
  obtain ⟨node', hg, hnode'⟩ := List.map_eq_singleton_iff.mp hnodes
  exact outcome_eq hparse hg (hmeans node' hnode').1 (hmeans node' hnode').2

variable {l : Lexeme} {value : Literal}

/-- A literal gives its value. -/
theorem outcome_literal (hproper : l.isProper = true) (h : l.literal? = some (.ok value)) :
    outcome l.text = .ok (some value.value) := by
  refine outcome_of_laidOut (fun _ _ => l) (.literal ⟨0, 0⟩ value) rfl
    (Literal.spelledBy_of_literal? hproper h) ?_ fun node herase => ?_
  · rw [Node.lexemes, if_neg (Token.literal_ne_least h)]
    exact LaidOut.single l
  · obtain ⟨span, rfl⟩ := Node.erase_eq_literal herase
    exact ⟨fun p => ⟨_, .literal⟩, fun call => rfl⟩

/-- A literal after a minus gives the negation of its value. -/
theorem outcome_negated (hproper : l.isProper = true) (h : l.literal? = some (.ok value))
    (hnegation : value.type.HasNegation) {v : Value} (hv : value.value.negate = .ok v) :
    outcome ("-" ++ l.text) = .ok (some v) := by
  refine outcome_of_laidOut (fun _ _ => l) (.negate ⟨0, 0⟩ (.literal ⟨0, 0⟩ value)) rfl
    (Literal.spelledBy_of_literal? hproper h) ?_ fun node herase => ?_
  · rw [Node.lexemes, Node.lexemes, if_neg (Token.literal_ne_least h), String.toList_append]
    exact LaidOut.lexeme (l := .minus) (fun _ _ => rfl) (.single l)
  · obtain ⟨span, operand, rfl, hoperand⟩ := Node.erase_eq_negate herase
    obtain ⟨span', rfl⟩ := Node.erase_eq_literal hoperand
    exact ⟨fun p => ⟨_, .negate .literal hnegation⟩, fun call => hv⟩

end Probe

/-! ## Integers -/

namespace Lexeme

theorem literal?_signed {n : Nat} (hn : n < 2 ^ 63) :
    Lexeme.literal? ⟨.int, String.ofList (Nat.toDigits 10 n)⟩ =
      some (.ok (.signed (BitVec.ofNat 64 n))) := by
  have hread : Decimal.ofDigits
      (NumberToken.withoutUnderscores (String.ofList (Nat.toDigits 10 n))) = n := by
    rw [NumberToken.withoutUnderscores, String.toList_ofList, (AreDigits.toDigits n).filter,
      Decimal.ofDigits_toDigits]
  have hlt : n < Nat.pow 2 63 := hn
  simp only [Lexeme.literal?, Token.literal?, NumberToken.signed, hread, if_pos hlt]

theorem literal?_unsigned {n : Nat} (hn : n < 2 ^ 64) :
    Lexeme.literal? ⟨.unsigned, String.ofList (Nat.toDigits 10 n ++ ['_', 'U'])⟩ =
      some (.ok (.unsigned (BitVec.ofNat 64 n))) := by
  have hread : Decimal.ofDigits (NumberToken.withoutUnderscores
      (String.ofList (Nat.toDigits 10 n ++ ['_', 'U']))).dropLast = n := by
    rw [NumberToken.withoutUnderscores, String.toList_ofList, List.filter_append,
      (AreDigits.toDigits n).filter, show ['_', 'U'].filter (· != '_') = ['U'] from rfl,
      List.dropLast_concat, Decimal.ofDigits_toDigits]
  have hlt : n < Nat.pow 2 64 := hn
  simp only [Lexeme.literal?, Token.literal?, NumberToken.unsigned, hread, if_pos hlt]

end Lexeme

namespace Probe

theorem outcome_unsigned (x : BitVec 64) :
    outcome (toString x.toNat ++ "_U") = .ok (some (.unsigned x)) := by
  have hliteral := Lexeme.literal?_unsigned x.isLt
  have hout := outcome_literal ((AreDigits.toDigits _).isProper Nat.toDigits_ne_nil rfl) hliteral
  rw [BitVec.ofNat_toNat, BitVec.setWidth_eq] at hout
  rw [Nat.toString_eq_ofList_toDigits]
  rwa [String.ofList_append] at hout

theorem outcome_least : outcome "-9223372036854775808" = .ok (some (.signed (BitVec.intMin 64))) :=
  eq_ok_of_toOption (by decide +kernel)

theorem outcome_signed (x : BitVec 64) : outcome (toString x.toInt) = .ok (some (.signed x)) := by
  have hproper : Lexeme.isProper ⟨.int, String.ofList (Nat.toDigits 10 x.toInt.natAbs)⟩ = true := by
    rw [← List.append_nil (Nat.toDigits 10 x.toInt.natAbs)]
    exact (AreDigits.toDigits _).isProper Nat.toDigits_ne_nil rfl
  have htext : toString x.toInt = String.ofList ((if x.toInt < 0 then ['-'] else []) ++
      Nat.toDigits 10 x.toInt.natAbs) := by
    rw [← toList_toString_int, String.ofList_toList]
  have hlow := BitVec.le_toInt x
  have hhigh := BitVec.toInt_lt (x := x)
  rcases lt_or_ge x.toInt.natAbs (2 ^ 63) with hlt | hge
  · have hliteral := Lexeme.literal?_signed hlt
    by_cases hneg : x.toInt < 0
    · have hv : (Literal.signed (BitVec.ofNat 64 x.toInt.natAbs)).value.negate =
          .ok (.signed x) := by
        have hint : (BitVec.ofNat 64 x.toInt.natAbs).toInt = x.toInt.natAbs := by
          rw [← BitVec.ofInt_natCast, BitVec.toInt_ofInt, Int.bmod_eq_of_le] <;> omega
        rw [Literal.value, Value.negate, hint, show -(x.toInt.natAbs : ℤ) = x.toInt by omega,
          Value.wrap, BitVec.ofInt_toInt]
        rfl
      rw [htext, if_pos hneg, String.ofList_append]
      exact outcome_negated hproper hliteral trivial hv
    · have hx : BitVec.ofNat 64 x.toInt.natAbs = x := by
        rw [← BitVec.ofInt_natCast, show (x.toInt.natAbs : ℤ) = x.toInt by omega,
          BitVec.ofInt_toInt]
      have hout := outcome_literal hproper hliteral
      rw [hx] at hout
      rw [htext, if_neg hneg, List.nil_append]
      exact hout
  · have hx : x = BitVec.intMin 64 := by
      refine BitVec.eq_of_toInt_eq ?_
      rw [BitVec.toInt_intMin]
      omega
    rw [hx]
    exact outcome_least

end Probe

/-! ## Floats -/

namespace Probe

variable {fmt : Format} {x : Binary fmt}

/-- If the text of the magnitude is a literal then the text of a number gives the number. -/
theorem outcome_binary {l : Lexeme} (hnan : x.isNaN = false) (suffix : List Char)
    (htext : l.text = String.ofList (x.magnitudeText .result ++ suffix))
    (hproper : l.isProper = true) (literal : Binary fmt → Literal)
    (hread : l.literal? = some (.ok (literal x.abs)))
    (hnegation : ∀ y, (literal y).type.HasNegation)
    (hneg : ∀ y, (literal y).value.negate = .ok (literal y.neg).value) :
    outcome (x.text .result ++ String.ofList suffix) = .ok (some (literal x).value) := by
  have hall : x.text .result ++ String.ofList suffix =
      String.ofList (if x.negative then ['-'] else []) ++ l.text := by
    rw [Binary.text, if_neg (by simp [hnan]), htext, ← String.ofList_append, ← String.ofList_append,
      List.append_assoc]
  rw [hall]
  obtain ⟨negative, magnitude⟩ := x
  cases negative with
  | false =>
      have hempty : String.ofList [] ++ l.text = l.text := String.empty_append
      exact hempty ▸ outcome_literal hproper hread
  | true => exact outcome_negated hproper hread (hnegation _) (hneg _)

/-- The text of a finite number gives the number, if its numeral is read as the magnitude. -/
theorem outcome_numeral (hfin : x.isFinite = true) {n : Numeral}
    (htext : n.text = x.magnitudeText .result) (letter : Option Char)
    (hletter : ∀ c ∈ letter, isFloatSuffix c = true) (literal : Binary fmt → Literal)
    (hread : Numeral.literalOf letter n.decimal = literal x.abs)
    (hnegation : ∀ y, (literal y).type.HasNegation)
    (hneg : ∀ y, (literal y).value.negate = .ok (literal y.neg).value) :
    outcome (x.text .result ++ String.ofList (Numeral.suffixText letter)) =
      .ok (some (literal x).value) := by
  refine outcome_binary (Binary.isFinite_iff.mp hfin).1 _ ?_ (n.isProper hletter) literal ?_
    hnegation hneg
  · rw [htext]
  · rw [← hread, ← n.float_text hletter]
    rfl

theorem outcome_single {x : Binary .single} (hfin : x.isFinite = true) :
    outcome (x.text .result ++ "_F") = .ok (some (.float32 x)) := by
  obtain ⟨n, htext, hread⟩ := Binary.toBinary_numeral hfin
  exact outcome_numeral hfin htext (some 'F') (by simp [isFloatSuffix]) .float32
    (congrArg Literal.float32 hread) (fun _ => trivial) fun _ => rfl

theorem outcome_half {x : Binary .single} (hhalf : x.IsHalf) (hfin : x.isFinite = true) :
    outcome (x.text .result ++ "_H") = .ok (some (.float16 x)) := by
  obtain ⟨n, htext, hread⟩ := Binary.roundHalf_numeral hhalf hfin
  exact outcome_numeral hfin htext (some 'H') (by simp [isFloatSuffix]) .float16
    (congrArg Literal.float16 hread) (fun _ => trivial) fun _ => rfl

theorem outcome_double (x : Binary .double) :
    outcome (x.text .result ++ "") = .ok (some (.float64 (if x.isNaN then .nan else x))) := by
  by_cases hnan : x.isNaN = true
  · rw [Binary.text, if_pos hnan, if_pos hnan]
    exact outcome_literal (l := ⟨.nanWord, "NaN"⟩) (by decide) rfl
  rw [if_neg hnan]
  by_cases hfin : x.isFinite = true
  · obtain ⟨n, htext, hread⟩ := Binary.toBinary_numeral hfin
    exact outcome_numeral hfin htext none (by simp) .float64 (congrArg Literal.float64 hread)
      (fun _ => trivial) fun _ => rfl
  · have hnan : x.isNaN = false := by simpa using hnan
    have hinfinite : x.isInfinite = true := by
      simpa [hnan] using mt Binary.isFinite_iff.mpr hfin
    refine outcome_binary (l := ⟨.infinityWord, "inf"⟩) hnan [] ?_ (by decide) .float64 ?_
      (fun _ => trivial) fun _ => rfl
    · rw [Binary.magnitudeText, if_pos hinfinite]
      rfl
    · rw [Binary.abs_of_isInfinite hinfinite]
      rfl

end Probe

namespace Value

/-- What is written behind the text of a value to choose its type. -/
def suffix : Value → String
  | .unsigned _ => "_U"
  | .float16 _ => "_H"
  | .float32 _ => "_F"
  | .boolean _ | .signed _ | .float64 _ => ""

/-- The values that can be written as literals: a half or a single must be finite. -/
def HasLiteral : Value → Prop
  | .float16 x => x.IsHalf ∧ x.isFinite = true
  | .float32 x => x.isFinite = true
  | .boolean _ | .signed _ | .unsigned _ | .float64 _ => True

/-- The value, with every NaN of double precision taken for one. -/
def canonical : Value → Value
  | .float64 x => .float64 (if x.isNaN then .nan else x)
  | v => v

end Value

/-- Printed values are read back. In a fresh session the text of a value, with the suffix of its
    type, gives the value. -/
theorem printed_value_reads_back (v : Value) (h : v.HasLiteral) :
    Probe.outcome (v.text ++ v.suffix) = .ok (some v.canonical) := by
  cases v with
  | boolean b =>
      cases b with
      | false => exact Probe.outcome_literal (l := ⟨.falseWord, "False"⟩) (by decide) rfl
      | true => exact Probe.outcome_literal (l := ⟨.trueWord, "True"⟩) (by decide) rfl
  | signed x => exact String.append_empty ▸ Probe.outcome_signed x
  | unsigned x => exact Probe.outcome_unsigned x
  | float16 x => exact Probe.outcome_half h.1 h.2
  | float32 x => exact Probe.outcome_single h
  | float64 x => exact Probe.outcome_double x

/-- The half next below zero, whose text is not exact. -/
theorem least_half_reads_back :
    let x : Binary .single := ⟨true, ⟨0x33800000, by decide⟩⟩
    (Value.float16 x).HasLiteral ∧ (Value.float16 x).text = "-5.9604645e-8" ∧
      Probe.outcome "-5.9604645e-8_H" = .ok (some (.float16 x)) := by
  intro x
  have hhalf : x = (⟨true, ⟨1, by decide⟩⟩ : Binary .half).roundHalf := by decide +kernel
  have hliteral : (Value.float16 x).HasLiteral :=
    ⟨hhalf ▸ Binary.isHalf_roundHalf _, by decide +kernel⟩
  have htext : (Value.float16 x).text = "-5.9604645e-8" := by decide +kernel
  have hread := printed_value_reads_back (.float16 x) hliteral
  rw [htext] at hread
  exact ⟨hliteral, htext, hread⟩

end ScalarLang
