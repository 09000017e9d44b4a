import ScalarLang.Ir.Condition
import ScalarLang.Scalar.Basic
import ScalarLang.Tree

/-
  What each operator does at each type.
  Booleans have addition and subtraction, which count, the bitwise operators and equality;
  integers have everything; floats have arithmetic and comparisons. Negation exists for signed
  integers and floats, the truth test for every type.
-/

namespace ScalarLang

/-- Integer operations that are one instruction, whatever the sign. -/
inductive IntOp where
  | add | sub | mul | and | or | xor | shl
deriving DecidableEq, Repr

inductive FloatOp where
  | add | sub | mul | div
deriving DecidableEq, Repr

/-- What a binary operator does at one operand type. -/
inductive BinaryImpl where
  | int (op : IntOp)
  | intDiv (signed : Bool)
  | intShr (signed : Bool)
  | intCompare (cc : IntCC)
  | float (op : FloatOp)
  | floatCompare (cc : FloatCC)
  | widenBoolean (op : IntOp)
deriving DecidableEq, Repr

/-- What a unary operator does at one operand type. -/
inductive UnaryImpl where
  | intNegate
  | floatNegate
  | identity
  | intTruthy
  | floatTruthy
deriving DecidableEq, Repr

/-- The unary operators; the truth test has no spelling, conditionals apply it to their tests. -/
inductive UnaryOperator where
  | negate
  | boolify
deriving DecidableEq, Repr

def UnaryOperator.symbol : UnaryOperator → String
  | negate => "-"
  | boolify => "bool"

namespace BinaryImpl

def ofBoolean? : BinaryOp → Option BinaryImpl
  | .add => some (widenBoolean .add)
  | .sub => some (widenBoolean .sub)
  | .bitAnd => some (int .and)
  | .bitOr => some (int .or)
  | .bitXor => some (int .xor)
  | .eq => some (intCompare .eq)
  | .ne => some (intCompare .ne)
  | _ => none

def ofInteger (signed : Bool) : BinaryOp → BinaryImpl
  | .add => int .add
  | .sub => int .sub
  | .mul => int .mul
  | .div => intDiv signed
  | .bitAnd => int .and
  | .bitOr => int .or
  | .bitXor => int .xor
  | .shl => int .shl
  | .shr => intShr signed
  | .eq => intCompare .eq
  | .ne => intCompare .ne
  | .gt => intCompare (if signed then .sgt else .ugt)
  | .lt => intCompare (if signed then .slt else .ult)
  | .ge => intCompare (if signed then .sge else .uge)
  | .le => intCompare (if signed then .sle else .ule)

def ofFloat? : BinaryOp → Option BinaryImpl
  | .add => some (float .add)
  | .sub => some (float .sub)
  | .mul => some (float .mul)
  | .div => some (float .div)
  | .eq => some (floatCompare .eq)
  | .ne => some (floatCompare .one)
  | .gt => some (floatCompare .gt)
  | .lt => some (floatCompare .lt)
  | .ge => some (floatCompare .ge)
  | .le => some (floatCompare .le)
  | _ => none

end BinaryImpl

namespace ScalarType

/-- What `op` does when both operands have this type. -/
def binaryImpl? (ty : ScalarType) (op : BinaryOp) : Option BinaryImpl :=
  match ty with
  | boolean => BinaryImpl.ofBoolean? op
  | signed _ => some (BinaryImpl.ofInteger true op)
  | unsigned _ | pointer _ => some (BinaryImpl.ofInteger false op)
  | float16 | float32 | float64 => BinaryImpl.ofFloat? op

def unaryImpl? (ty : ScalarType) (op : UnaryOperator) : Option UnaryImpl :=
  match op, ty with
  | .negate, signed _ => some .intNegate
  | .negate, float16 | .negate, float32 | .negate, float64 => some .floatNegate
  | .negate, _ => none
  | .boolify, boolean => some .identity
  | .boolify, signed _ | .boolify, unsigned _ | .boolify, pointer _ => some .intTruthy
  | .boolify, _ => some .floatTruthy

def binaryImpl (ty : ScalarType) (op : BinaryOp) : Except TypeError BinaryImpl :=
  match ty.binaryImpl? op with
  | some impl => .ok impl
  | none => .error (.unsupported op.symbol ty)

def unaryImpl (ty : ScalarType) (op : UnaryOperator) : Except TypeError UnaryImpl :=
  match ty.unaryImpl? op with
  | some impl => .ok impl
  | none => .error (.unsupported op.symbol ty)

end ScalarType

end ScalarLang
