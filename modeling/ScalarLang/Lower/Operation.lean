import ScalarLang.Ir.Builder
import ScalarLang.Lower.Error
import ScalarLang.Scalar.Operation
import ScalarLang.Scalar.Table

/-
  The code of single operations.
  A value of the code goes with the number of its type in the table of types. What is done with it
  is looked up under that number, and two values have one type if their numbers are equal.
  Integer division reports its divisor to a built-in routine and then divides by 1 instead of by
  zero, and also in the one signed case whose quotient does not fit, so it never traps. A result
  in half precision is rounded again after each operation.
-/

namespace ScalarLang

/-- What lowering works on: the types in use and the function under construction. -/
structure LowerState where
  types : TypeTable
  builder : Ir.Builder

abbrev Lower := ExceptT LowerError (StateM LowerState)

/-- A value of the code with the number of its type. -/
structure NumberedValue where
  value : Ir.ValueId
  number : Nat
deriving DecidableEq

namespace Lower

/-- Does some building. -/
def build {α : Type} (x : Ir.Build α) : Lower α :=
  modifyGet fun s =>
    let (a, b) := x s.builder
    (a, { s with builder := b })

/-- The number of a type, which the table has from then on. -/
def numberOf (ty : ScalarType) : Lower Nat :=
  modifyGet fun s =>
    let (number, types) := s.types.intern ty
    (number, { s with types })

/-- The type of a number that the table has given out. -/
def typeAt (number : Nat) : Lower ScalarType := do
  return ((← get).types.get? number).getD .i64

def fail {α : Type} (kind : LowerErrorKind) (span : Span) (hint : Option String := none) : Lower α :=
  throw { kind, span, hint }

/-- Fails at a span with an error of a type's operator table. -/
def orFail {α : Type} (span : Span) : Except TypeError α → Lower α
  | .ok a => return a
  | .error e => fail (.typeError e) span

end Lower

/-- The instruction of an integer operation. -/
def IntOp.opcode : IntOp → Ir.BinaryOpcode
  | add => .iadd
  | sub => .isub
  | mul => .imul
  | and => .band
  | or => .bor
  | xor => .bxor
  | shl => .ishl

/-- The instruction of a float operation. -/
def FloatOp.opcode : FloatOp → Ir.BinaryOpcode
  | add => .fadd
  | sub => .fsub
  | mul => .fmul
  | div => .fdiv

namespace Ir.Build

/-- A divisor widened to what the check takes. -/
def widenDivisor (signed : Bool) (ty : MachineType) (rhs : ValueId) : Build ValueId :=
  if ty = .i64 then return rhs else extend signed .i64 rhs

/-- Integer division that never traps. -/
def checkedDiv (signed : Bool) (lhs rhs : ValueId) : Build ValueId := do
  let ty ← typeOf rhs
  let reported ← widenDivisor signed ty rhs
  let _ ← callIntrinsic .checkDivisor [reported]
  let isZero ← icmpImm .eq rhs 0
  let one ← iconst ty 1
  let divisor ← select isZero one rhs
  if signed then
    let least ← iconst ty (1#64 <<< (ty.bits - 1))
    let minusOne ← iconst ty (if 64 ≤ ty.bits then .allOnes 64 else (1#64 <<< ty.bits) - 1)
    let lhsIsLeast ← icmp .eq lhs least
    let rhsIsMinusOne ← icmp .eq rhs minusOne
    let overflows ← binary .band lhsIsLeast rhsIsMinusOne
    let divisor ← select overflows one divisor
    binary .sdiv lhs divisor
  else binary .udiv lhs divisor

/-- Rounds a single to half precision. -/
def roundHalf (v : ValueId) : Build ValueId := do
  let result ← callIntrinsic .roundHalf [v]
  return result.getD v

end Ir.Build

/-- Emits an operation on two values of one type. -/
def BinaryImpl.emit (impl : BinaryImpl) (lhs rhs : NumberedValue) : Lower NumberedValue := do
  match impl with
  | .int op => return ⟨← Lower.build (.binary op.opcode lhs.value rhs.value), lhs.number⟩
  | .intDiv signed => return ⟨← Lower.build (.checkedDiv signed lhs.value rhs.value), lhs.number⟩
  | .intShr signed =>
    let op := if signed then Ir.BinaryOpcode.sshr else .ushr
    return ⟨← Lower.build (.binary op lhs.value rhs.value), lhs.number⟩
  | .intCompare cc =>
    let value ← Lower.build (.icmp cc lhs.value rhs.value)
    return ⟨value, ← Lower.numberOf .boolean⟩
  | .float op =>
    let value ← Lower.build (.binary op.opcode lhs.value rhs.value)
    let ty ← Lower.typeAt lhs.number
    if ty = .float16 then return ⟨← Lower.build (.roundHalf value), lhs.number⟩
    else return ⟨value, lhs.number⟩
  | .floatCompare cc =>
    let value ← Lower.build (.fcmp cc lhs.value rhs.value)
    return ⟨value, ← Lower.numberOf .boolean⟩
  | .widenBoolean op =>
    let wide ← Lower.numberOf .i64
    let a ← Lower.build (.extend false .i64 lhs.value)
    let b ← Lower.build (.extend false .i64 rhs.value)
    return ⟨← Lower.build (.binary op.opcode a b), wide⟩

def UnaryImpl.emit (impl : UnaryImpl) (operand : NumberedValue) : Lower NumberedValue := do
  match impl with
  | .intNegate => return ⟨← Lower.build (.unary .ineg operand.value), operand.number⟩
  | .floatNegate => return ⟨← Lower.build (.unary .fneg operand.value), operand.number⟩
  | .identity => return operand
  | .intTruthy =>
    let truth ← Lower.numberOf .boolean
    return ⟨← Lower.build (.icmpImm .ne operand.value 0), truth⟩
  | .floatTruthy =>
    let truth ← Lower.numberOf .boolean
    let ty ← Lower.build (.typeOf operand.value)
    let origin := if ty = .f64 then Ir.Constant.f64 (.zero false) else .f32 (.zero false)
    let origin ← Lower.build (.const origin)
    return ⟨← Lower.build (.fcmp .one operand.value origin), truth⟩

end ScalarLang
