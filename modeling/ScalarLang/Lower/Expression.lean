import ScalarLang.Lower.Operation
import ScalarLang.Program

/-
  Lowering expressions, bottom-up and in one pass: an operator compares the numbers of its operands'
  types when it is lowered. A conditional has a block for its test, one for each arm and one where
  the arms join; the arms leave their value in a slot. An `if` makes its slot before the branch and
  parks the test's value in it; a `when` makes it once the type of the arms is known, and then
  inserts the stores before the jumps that close the arms.
-/

namespace ScalarLang

/-- The size of a slot that any value fits. -/
def widestSlot : Nat := 8

namespace Literal

def type : Literal → ScalarType
  | signed _ => .i64
  | unsigned _ => .u64
  | boolean _ => .boolean
  | float16 _ => .float16
  | float32 _ => .float32
  | float64 _ => .float64

def constant : Literal → Ir.Constant
  | signed v | unsigned v => .int .i64 v
  | boolean b => .int .i8 (if b then 1 else 0)
  | float16 x | float32 x => .f32 x
  | float64 x => .f64 x

/-- Emits a constant. -/
def emit (l : Literal) : Lower NumberedValue := do
  let value ← Lower.build (.const l.constant)
  return ⟨value, ← Lower.numberOf l.type⟩

end Literal

namespace Lower

/-- The slot in which the arms of a conditional meet. One that is made only now is stored into
    before the jump that closes each arm. -/
def meetingSlot (parked : Option Ir.SlotId) (size : Nat) (thenValue elseValue : Ir.ValueId)
    (thenExit elseExit : Nat) : Lower Ir.SlotId := do
  match parked with
  | some slot => return slot
  | none =>
    let slot ← build (.createSlot size)
    build (.insertBefore thenExit)
    let _ ← build (.store thenValue slot)
    build (.insertBefore elseExit)
    let _ ← build (.store elseValue slot)
    return slot

/-- A name that is not called. -/
def bareName {α : Type} (p : Program) (span : Span) (name : String) : Lower α :=
  fail (.undefinedName name) span
    (if p.contains name then
      some ("'" ++ name ++ "' is a function; call it as " ++ name ++ "()")
    else none)

end Lower

namespace Emit

open Lower (build fail orFail numberOf typeAt meetingSlot bareName)

def binary (span : Span) (op : BinaryOp) (lhs rhs : NumberedValue) : Lower NumberedValue := do
  let lhsType ← typeAt lhs.number
  if lhs.number = rhs.number then
    let impl ← orFail span (lhsType.binaryImpl op)
    impl.emit lhs rhs
  else
    let rhsType ← typeAt rhs.number
    fail (.incompatibleOperands op lhsType rhsType) span

def unary (span : Span) (op : UnaryOperator) (operand : NumberedValue) : Lower NumberedValue := do
  let ty ← typeAt operand.number
  let impl ← orFail span (ty.unaryImpl op)
  impl.emit operand

/-- The slot an `if` parks its test in, which its arms use too. -/
def parkTest (form : ConditionalForm) (test : NumberedValue) : Lower (Option Ir.SlotId) := do
  match form with
  | .ifForm =>
    let slot ← build (.createSlot widestSlot)
    let _ ← build (.store test.value slot)
    return some slot
  | .whenForm => return none

/-- Lowers an arm and leaves it for the block where the arms join, storing its value if the slot
    is known. Gives the value and the number of the closing jump. -/
def closedArm (arm : Lower NumberedValue) (parked : Option Ir.SlotId) (join : Ir.BlockId) :
    Lower (NumberedValue × Nat) := do
  let value ← arm
  match parked with
  | some slot => let _ ← build (.store value.value slot)
  | none => pure ()
  let exit ← build (.jump join)
  return (value, exit)

/-- A conditional, given how its parts are lowered. -/
def conditional (form : ConditionalForm) (testSpan thenSpan : Span)
    (test thenArm elseArm : Lower NumberedValue) : Lower NumberedValue := do
  let testBlock ← build .createBlock
  let thenBlock ← build .createBlock
  let elseBlock ← build .createBlock
  let join ← build .createBlock
  let _ ← build (.jump testBlock)
  build (.switchTo testBlock)
  let testValue ← test
  let parked ← parkTest form testValue
  let condition ← unary testSpan .boolify testValue
  let _ ← build (.brif condition.value thenBlock elseBlock)
  build (.switchTo thenBlock)
  let (thenValue, thenExit) ← closedArm thenArm parked join
  build (.switchTo elseBlock)
  let (elseValue, elseExit) ← closedArm elseArm parked join
  let ty ← typeAt thenValue.number
  if thenValue.number = elseValue.number then
    let slot ← meetingSlot parked ty.byteSize thenValue.value elseValue.value thenExit elseExit
    build (.switchTo join)
    return ⟨← build (.load ty.machineType slot), thenValue.number⟩
  else
    let elseType ← typeAt elseValue.number
    fail (.branchMismatch ty elseType) thenSpan

/-- A call, given how many arguments it has and how they are lowered. A routine keeps the type of
    its result and not a number, which would mean nothing in another table. -/
def call (p : Program) (span : Span) (callee : Ident) (count : Nat)
    (args : Lower (List Ir.ValueId)) : Lower NumberedValue := do
  match p.lookup callee.text with
  | none => fail (.undefinedFunction callee.text) callee.span
  | some (index, routine) =>
    if count = routine.arity then
      let values ← args
      let target ← build (.importFunction index routine.signature)
      match ← build (.call target values) with
      | some value => return ⟨value, ← numberOf routine.returnType⟩
      | none => fail .missingResult span
    else fail (.arityMismatch callee.text routine.arity count) span

mutual

/-- Lowers an expression at the builder's cursor. -/
def expression (p : Program) : Node → Lower NumberedValue
  | .literal _ value => value.emit
  | .name span text => bareName p span text
  | .binary span op lhs rhs => do
    let lhs ← expression p lhs
    let rhs ← expression p rhs
    binary span op lhs rhs
  | .negate span operand => do
    let operand ← expression p operand
    unary span .negate operand
  | .conditional _ form test thenArm elseArm =>
    conditional form test.span thenArm.span (expression p test) (expression p thenArm)
      (expression p elseArm)
  | .function _ name _ _ => fail .misplacedFunction name.span
  | .call span callee args => call p span callee args.length (arguments p args)

/-- Lowers arguments from left to right. -/
def arguments (p : Program) : List Node → Lower (List Ir.ValueId)
  | [] => return []
  | node :: rest => do
    let first ← expression p node
    return first.value :: (← arguments p rest)

end

end Emit

end ScalarLang
