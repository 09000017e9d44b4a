import ScalarLang.Ir.Basic
import ScalarLang.Ir.Intrinsic

/-
  Running code.
  A run keeps the values defined so far, the contents of the slots and a fault flag that stays
  set once a zero divisor was reported. It has no outcome if the code is not well formed: an
  operand without value, an operation without result, a slot read before it is written, a block
  without end. Control only moves forward in the code the language makes, so each block is
  entered at most once and the number of blocks bounds the run.
  What a call does is left to a linkage, with the arguments of the call. `linkage` is the one of a
  program whose functions take no parameters and call earlier ones only.
-/

namespace ScalarLang.Ir

/-- What a finished run leaves: the returned words and the fault flag. -/
structure Outcome where
  results : List Word
  faulted : Bool
deriving DecidableEq

/-- What each external index stands for: a function from arguments to an outcome. -/
abbrev Linkage := Nat → List Word → Option Outcome

structure Frame where
  values : ValueId → Option Word
  slots : SlotId → Option Word
  faulted : Bool

namespace Frame

def start : Frame := ⟨fun _ => none, fun _ => none, false⟩

def setValue (fr : Frame) (v : ValueId) (w : Word) : Frame :=
  { fr with values := fun u => if u = v then some w else fr.values u }

def setSlot (fr : Frame) (slot : SlotId) (w : Word) : Frame :=
  { fr with slots := fun s => if s = slot then some w else fr.slots s }

/-- Defines as many values as there are words; their numbers must match. -/
def setValues? (fr : Frame) : List ValueId → List Word → Option Frame
  | [], [] => some fr
  | v :: vs, w :: ws => (fr.setValue v w).setValues? vs ws
  | _, _ => none

end Frame

/-- Where control goes after an instruction. -/
inductive Flow where
  | next (frame : Frame)
  | goto (block : BlockId) (frame : Frame)
  | done (outcome : Outcome)

namespace BinaryOpcode

def apply (op : BinaryOpcode) (x y : Word) : Option Word :=
  match op with
  | iadd => Word.mapInts (fun a b => some (a + b)) x y
  | isub => Word.mapInts (fun a b => some (a - b)) x y
  | imul => Word.mapInts (fun a b => some (a * b)) x y
  | band => Word.mapInts (fun a b => some (a &&& b)) x y
  | bor => Word.mapInts (fun a b => some (a ||| b)) x y
  | bxor => Word.mapInts (fun a b => some (a ^^^ b)) x y
  | ishl => Word.mapInts (fun {n} a b => some (a <<< (b.toNat % n))) x y
  | sshr => Word.mapInts (fun {n} a b => some (a.sshiftRight (b.toNat % n))) x y
  | ushr => Word.mapInts (fun {n} a b => some (a >>> (b.toNat % n))) x y
  | udiv => Word.mapInts Word.divUnsigned? x y
  | sdiv => Word.mapInts Word.divSigned? x y
  | fadd => Word.mapFloats Binary.add x y
  | fsub => Word.mapFloats Binary.sub x y
  | fmul => Word.mapFloats Binary.mul x y
  | fdiv => Word.mapFloats Binary.div x y

end BinaryOpcode

def UnaryOpcode.apply : UnaryOpcode → Word → Option Word
  | ineg => Word.negateInt?
  | fneg => Word.negateFloat?

/-- The word of an instruction that only computes. -/
def Inst.compute? (values : ValueId → Option Word) : Inst → Option Word
  | .const c => c.word?
  | .binary op a b => do op.apply (← values a) (← values b)
  | .unary op a => do op.apply (← values a)
  | .extend signed ty a => do (← values a).extend? signed ty
  | .icmp cc a b => do Word.compareInts cc (← values a) (← values b)
  | .icmpImm cc a imm => do
    let w ← values a
    Word.compareInts cc w (← Word.ofInt? w.type imm)
  | .fcmp cc a b => do Word.compareFloats cc (← values a) (← values b)
  | .select c a b => do if ← (← values c).isTrue? then values a else values b
  | _ => none

namespace Function

/-- Runs one statement. -/
def step (link : Linkage) (f : Function) (fr : Frame) (s : Stmt) : Option Flow :=
  match s.inst with
  | .call callee args => do
    let i ← f.imports[callee]?
    let out ← link i.index (← args.mapM fr.values)
    let fr ← fr.setValues? s.results out.results
    return .next { fr with faulted := fr.faulted || out.faulted }
  | .ret values => do
    return .done ⟨← values.mapM fr.values, fr.faulted⟩
  | .jump target => some (.goto target fr)
  | .brif c t e => do
    return .goto (if ← (← fr.values c).isTrue? then t else e) fr
  | .store a slot => do
    return .next (fr.setSlot slot (← fr.values a))
  | .load ty slot => do
    let w ← fr.slots slot
    if w.type = ty then
      let fr ← fr.setValues? s.results [w]
      return .next fr
    else none
  | inst => do
    let fr ← fr.setValues? s.results [← inst.compute? fr.values]
    return .next fr

/-- Runs the statements of a block until one leaves it. -/
def runBlock (link : Linkage) (f : Function) : Block → Frame → Option Flow
  | [], _ => none
  | s :: rest, fr =>
    match f.step link fr s with
    | some (.next fr) => runBlock link f rest fr
    | flow => flow

/-- Runs from the start of a block, entering at most `fuel` blocks. -/
def runFrom (link : Linkage) (f : Function) : Nat → BlockId → Frame → Option Outcome
  | 0, _, _ => none
  | fuel + 1, b, fr => do
    let block ← f.blocks[b]?
    match ← runBlock link f block fr with
    | .next _ => none
    | .goto target fr => runFrom link f fuel target fr
    | .done out => some out

/-- Runs a function without parameters. -/
def run (link : Linkage) (f : Function) : Option Outcome :=
  if f.signature.params.isEmpty then runFrom link f f.blocks.length 0 .start else none

end Function

end ScalarLang.Ir

namespace ScalarLang

/-- What a built-in routine does. -/
def Intrinsic.run : Intrinsic → List Word → Option Ir.Outcome
  | checkDivisor, [.i64 x] => some ⟨[], x == 0⟩
  | roundHalf, [.f32 x] => some ⟨[.f32 x.roundHalf], false⟩
  | _, _ => none

/-- The built-in routines and the first `count` of a program's functions, each of which sees the
    ones before it only. -/
def Ir.linkage (functions : List Ir.Function) : Nat → Ir.Linkage
  | 0 => fun index args => (Intrinsic.ofIndex? index).bind (·.run args)
  | count + 1 => fun index args =>
    if index = firstRoutineIndex + count then
      if args.isEmpty then functions[count]?.bind (·.run (linkage functions count)) else none
    else linkage functions count index args

end ScalarLang
