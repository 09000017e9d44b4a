import ScalarLang.Binary.Half
import ScalarLang.Decimal.Basic
import ScalarLang.Parse.Error
import ScalarLang.Tree

/-
  The literal a number token stands for. Underscores are ignored. A half literal is read in
  double precision and then rounded to half precision.
-/

namespace ScalarLang

namespace NumberToken

def withoutUnderscores (lexeme : String) : List Char := lexeme.toList.filter (· != '_')

def signed (lexeme : String) : Except NumberError Literal :=
  let n := Decimal.ofDigits (withoutUnderscores lexeme)
  if n < Nat.pow 2 63 then .ok (.signed (BitVec.ofNat 64 n)) else .error (.signedRange lexeme)

/-- The last character is the suffix. -/
def unsigned (lexeme : String) : Except NumberError Literal :=
  let n := Decimal.ofDigits (withoutUnderscores lexeme).dropLast
  if n < Nat.pow 2 64 then .ok (.unsigned (BitVec.ofNat 64 n)) else .error (.unsignedRange lexeme)

def float (lexeme : String) : Literal :=
  let cs := withoutUnderscores lexeme
  let body := Decimal.read cs
  match cs.getLast? with
  | some 'f' | some 'F' => .float32 body.toBinary
  | some 'h' | some 'H' => .float16 (body.toBinary : Binary .double).roundHalf
  | _ => .float64 body.toBinary

/-- Whether an integer token stands for `2 ^ 63`, which is a literal only after a minus. -/
def isMinMagnitude (lexeme : String) : Bool :=
  Decimal.ofDigits (withoutUnderscores lexeme) == Nat.pow 2 63

end NumberToken

/-- The literal a token stands for; `none` if it is no literal token. -/
def Token.literal? (t : Token) : Option (Except NumberError Literal) :=
  match t.kind with
  | .trueWord => some (.ok (.boolean true))
  | .falseWord => some (.ok (.boolean false))
  | .nanWord => some (.ok (.float64 .nan))
  | .infinityWord => some (.ok (.float64 (.infinity false)))
  | .int => some (NumberToken.signed t.lexeme)
  | .unsigned => some (NumberToken.unsigned t.lexeme)
  | .float => some (.ok (NumberToken.float t.lexeme))
  | _ => none

end ScalarLang
