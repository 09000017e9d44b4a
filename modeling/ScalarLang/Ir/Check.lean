import ScalarLang.Ir.Text

/-
  Checking code before it is run: every block ends in its only terminator, branches go to blocks
  that exist, operands and results have the types their instruction asks for, immediates fit their
  type, and calls and returns match the signatures.
-/

namespace ScalarLang.Ir

namespace BinaryOpcode

/-- Whether the operation is one on floats. -/
def isFloat : BinaryOpcode → Bool
  | fadd | fsub | fmul | fdiv => true
  | _ => false

end BinaryOpcode

namespace Function

def typesOf? (f : Function) (vs : List ValueId) : Option (List MachineType) :=
  vs.mapM (f.values[·]?)

/-- The result types of an instruction whose operands have the right types. -/
def resultTypes? (f : Function) (inst : Inst) : Option (List MachineType) := do
  let types ← f.typesOf? inst.operands
  match inst, types with
  | .const c, [] => if c.fits then some [c.type] else none
  | .binary op _ _, [a, b] => if a = b ∧ a.isInt = !op.isFloat then some [a] else none
  | .unary .ineg _, [a] => if a.isInt then some [a] else none
  | .unary .fneg _, [a] => if a.isInt then none else some [a]
  | .extend _ ty _, [a] => if a.isInt ∧ ty.isInt ∧ a.bytes < ty.bytes then some [ty] else none
  | .icmp _ _ _, [a, b] => if a = b ∧ a.isInt then some [.i8] else none
  | .icmpImm _ _ _, [a] => if a.isInt then some [.i8] else none
  | .fcmp _ _ _, [a, b] => if a = b ∧ !a.isInt then some [.i8] else none
  | .select _ _ _, [c, a, b] => if c.isInt ∧ a = b then some [a] else none
  | .call callee _, args =>
    match f.imports[callee]? with
    | some i => if args = i.signature.params then some i.signature.results else none
    | none => none
  | .ret _, values => if values = f.signature.results then some [] else none
  | .jump target, [] => if target < f.blocks.length then some [] else none
  | .brif _ t e, [c] =>
    if c.isInt ∧ t < f.blocks.length ∧ e < f.blocks.length then some [] else none
  | .store _ slot, [_] => if slot < f.slots.length then some [] else none
  | .load ty slot, [] => if slot < f.slots.length then some [ty] else none
  | _, _ => none

/-- Whether a statement's operands and results have the types its instruction asks for. -/
def stmtOk (f : Function) (s : Stmt) : Bool :=
  match f.resultTypes? s.inst with
  | some types => f.typesOf? s.results == some types
  | none => false

/-- Whether a block has a terminator, and only as its last instruction. -/
def closed : Block → Bool
  | [] => false
  | [s] => s.inst.isTerminator
  | s :: rest => !s.inst.isTerminator && closed rest

def isValid (f : Function) : Bool :=
  f.blocks.all fun block => closed block && block.all f.stmtOk

/-- The statements that are not in order. -/
def report (f : Function) : String :=
  String.join (f.blocks.zipIdx.flatMap fun (block, b) =>
    (block.filter (!f.stmtOk ·)).map (f.stmtText b))

end Function

end ScalarLang.Ir
