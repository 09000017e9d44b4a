import ScalarLang.Lower.Function
import ScalarLang.Proofs.Scalar.Table

/-
  Lowering with types in the place of their numbers.
  The steps are those of `Emit`, and they ask the table for the same types in the same order, but a
  value goes with its type itself and the table is never read; and whether a call gives a value is
  read off the function that is called. This is the form in which the code of expressions is
  reasoned about.
-/

namespace ScalarLang

/-- A value of the code with its type in the language. -/
structure TypedValue where
  value : Ir.ValueId
  type : ScalarType
deriving DecidableEq

/-- The value that is defined next. -/
def Ir.Build.nextValue : Build ValueId := return (← get).function.values.length

/-- Notes that a type is in use. -/
def Lower.useType (ty : ScalarType) : Lower Unit :=
  modify fun s => { s with types := s.types.insert ty }

namespace BinaryImpl

/-- Emits an operation on two values of one type. -/
def apply (impl : BinaryImpl) (lhs rhs : TypedValue) : Lower TypedValue := do
  match impl with
  | .int op => return ⟨← Lower.build (.binary op.opcode lhs.value rhs.value), lhs.type⟩
  | .intDiv signed => return ⟨← Lower.build (.checkedDiv signed lhs.value rhs.value), lhs.type⟩
  | .intShr signed =>
    let op := if signed then Ir.BinaryOpcode.sshr else .ushr
    return ⟨← Lower.build (.binary op lhs.value rhs.value), lhs.type⟩
  | .intCompare cc =>
    let value ← Lower.build (.icmp cc lhs.value rhs.value)
    Lower.useType .boolean
    return ⟨value, .boolean⟩
  | .float op =>
    let value ← Lower.build (.binary op.opcode lhs.value rhs.value)
    if lhs.type = .float16 then return ⟨← Lower.build (.roundHalf value), lhs.type⟩
    else return ⟨value, lhs.type⟩
  | .floatCompare cc =>
    let value ← Lower.build (.fcmp cc lhs.value rhs.value)
    Lower.useType .boolean
    return ⟨value, .boolean⟩
  | .widenBoolean op =>
    Lower.useType .i64
    let a ← Lower.build (.extend false .i64 lhs.value)
    let b ← Lower.build (.extend false .i64 rhs.value)
    return ⟨← Lower.build (.binary op.opcode a b), .i64⟩

end BinaryImpl

namespace UnaryImpl

def apply (impl : UnaryImpl) (operand : TypedValue) : Lower TypedValue := do
  match impl with
  | .intNegate => return ⟨← Lower.build (.unary .ineg operand.value), operand.type⟩
  | .floatNegate => return ⟨← Lower.build (.unary .fneg operand.value), operand.type⟩
  | .identity => return operand
  | .intTruthy =>
    Lower.useType .boolean
    return ⟨← Lower.build (.icmpImm .ne operand.value 0), .boolean⟩
  | .floatTruthy =>
    Lower.useType .boolean
    let ty ← Lower.build (.typeOf operand.value)
    let origin := if ty = .f64 then Ir.Constant.f64 (.zero false) else .f32 (.zero false)
    let origin ← Lower.build (.const origin)
    return ⟨← Lower.build (.fcmp .one operand.value origin), .boolean⟩

end UnaryImpl

def Literal.lower (l : Literal) : Lower TypedValue := do
  let value ← Lower.build (.const l.constant)
  Lower.useType l.type
  return ⟨value, l.type⟩

namespace Lower

def binary (span : Span) (op : BinaryOp) (lhs rhs : TypedValue) : Lower TypedValue := do
  if lhs.type = rhs.type then
    let impl ← orFail span (lhs.type.binaryImpl op)
    impl.apply lhs rhs
  else fail (.incompatibleOperands op lhs.type rhs.type) span

def unary (span : Span) (op : UnaryOperator) (operand : TypedValue) : Lower TypedValue := do
  let impl ← orFail span (operand.type.unaryImpl op)
  impl.apply operand

/-- The slot an `if` parks its test in, which its arms use too. -/
def parkTest (form : ConditionalForm) (test : TypedValue) : Lower (Option Ir.SlotId) := do
  match form with
  | .ifForm =>
    let slot ← build (.createSlot widestSlot)
    let _ ← build (.store test.value slot)
    return some slot
  | .whenForm => return none

/-- Lowers an arm and leaves it for the block where the arms join, storing its value if the slot
    is known. Gives the value and the number of the closing jump. -/
def closedArm (arm : Lower TypedValue) (parked : Option Ir.SlotId) (join : Ir.BlockId) :
    Lower (TypedValue × Nat) := do
  let value ← arm
  match parked with
  | some slot => let _ ← build (.store value.value slot)
  | none => pure ()
  let exit ← build (.jump join)
  return (value, exit)

/-- A conditional, given how its parts are lowered. -/
def conditional (form : ConditionalForm) (testSpan thenSpan : Span)
    (test thenArm elseArm : Lower TypedValue) : Lower TypedValue := do
  let testBlock ← build .createBlock
  let thenBlock ← build .createBlock
  let elseBlock ← build .createBlock
  let join ← build .createBlock
  let _ ← build (.jump testBlock)
  build (.switchTo testBlock)
  let testValue ← test
  let parked ← parkTest form testValue
  let condition ← unary testSpan .boolify testValue
  let _ ← build (.brif condition.value thenBlock elseBlock)
  build (.switchTo thenBlock)
  let (thenValue, thenExit) ← closedArm thenArm parked join
  build (.switchTo elseBlock)
  let (elseValue, elseExit) ← closedArm elseArm parked join
  if thenValue.type = elseValue.type then
    let ty := thenValue.type
    let slot ← meetingSlot parked ty.byteSize thenValue.value elseValue.value thenExit elseExit
    build (.switchTo join)
    return ⟨← build (.load ty.machineType slot), ty⟩
  else fail (.branchMismatch thenValue.type elseValue.type) thenSpan

/-- A call, given how many arguments it has and how they are lowered. -/
def call (p : Program) (span : Span) (callee : Ident) (count : Nat)
    (args : Lower (List Ir.ValueId)) : Lower TypedValue := do
  match p.lookup callee.text with
  | none => fail (.undefinedFunction callee.text) callee.span
  | some (index, routine) =>
    if count = routine.arity then
      let values ← args
      let target ← build (.importFunction index routine.signature)
      let value ← build .nextValue
      let _ ← build (.call target values)
      if routine.signature.results.isEmpty then fail .missingResult span
      else
        useType routine.returnType
        return ⟨value, routine.returnType⟩
    else fail (.arityMismatch callee.text routine.arity count) span

mutual

/-- Lowers an expression at the builder's cursor. -/
def expression (p : Program) : Node → Lower TypedValue
  | .literal _ value => value.lower
  | .name span text => bareName p span text
  | .binary span op lhs rhs => do
    let lhs ← expression p lhs
    let rhs ← expression p rhs
    binary span op lhs rhs
  | .negate span operand => do
    let operand ← expression p operand
    unary span .negate operand
  | .conditional _ form test thenArm elseArm =>
    conditional form test.span thenArm.span (expression p test) (expression p thenArm)
      (expression p elseArm)
  | .function _ name _ _ => fail .misplacedFunction name.span
  | .call span callee args => call p span callee args.length (arguments p args)

/-- Lowers arguments from left to right. -/
def arguments (p : Program) : List Node → Lower (List Ir.ValueId)
  | [] => return []
  | node :: rest => do
    let first ← expression p node
    return first.value :: (← arguments p rest)

end

/-- Builds a routine around a body: an entry block that leads to the body, and an exit block that
    returns what the body left in a slot. -/
def draft (name : String) (anonymous : Bool) (body : Lower TypedValue) : Lower Routine := do
  let entry ← build .createBlock
  let start ← build .createBlock
  let exit ← build .createBlock
  build (.switchTo start)
  useType .i64
  let result ← body
  let ty := result.type
  let bodyEnd ← build .cursor
  build (.switchTo entry)
  let slot ← build (.createSlot ty.byteSize)
  let _ ← build (.jump start)
  build (.setCursor bodyEnd)
  let _ ← build (.store result.value slot)
  let _ ← build (.jump exit)
  build (.switchTo exit)
  let value ← build (.load ty.machineType slot)
  let _ ← build (.ret [value])
  build (.setReturnType ty.machineType)
  return ⟨name, ty, anonymous, (← get).builder.function⟩

/-- Lowers statements from left to right; the value is that of the last one, or zero. -/
def statements (p : Program) : List Node → Lower TypedValue
  | [] => do return ⟨← build (.iconst .i64 0), .i64⟩
  | [node] => expression p node
  | node :: rest => do
    let _ ← expression p node
    statements p rest

end Lower

end ScalarLang
