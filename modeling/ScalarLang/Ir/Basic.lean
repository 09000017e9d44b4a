import ScalarLang.Ir.Word

/-
  Code: functions of blocks of instructions over numbered values and stack slots.
  Values are numbered in the order they were made and each is defined once; blocks, slots,
  instructions and imported functions are numbered too. Calls go to imported functions, which
  name what they stand for by an external index.
-/

namespace ScalarLang.Ir

inductive BinaryOpcode where
  | iadd | isub | imul | band | bor | bxor | ishl | sshr | ushr | udiv | sdiv
  | fadd | fsub | fmul | fdiv
deriving DecidableEq, Repr

inductive UnaryOpcode where
  | ineg | fneg
deriving DecidableEq, Repr

abbrev ValueId := Nat
abbrev BlockId := Nat
abbrev SlotId := Nat
abbrev ImportId := Nat

/-- A constant in the code: an integer type with an immediate of 64 bits, or a float. -/
inductive Constant where
  | int (ty : MachineType) (imm : BitVec 64)
  | f32 (x : Binary .single)
  | f64 (x : Binary .double)
deriving DecidableEq

namespace Constant

def type : Constant → MachineType
  | int ty _ => ty
  | f32 _ => .f32
  | f64 _ => .f64

/-- Immediates are those of integer types and come zero-extended: none is too large for its
    type. -/
def fits : Constant → Bool
  | int ty imm => ty.isInt && imm.toNat < Nat.pow 2 ty.bits
  | f32 _ | f64 _ => true

def word? : Constant → Option Word
  | int ty imm => Word.ofInt? ty imm.toNat
  | f32 x => some (.f32 x)
  | f64 x => some (.f64 x)

end Constant

inductive Inst where
  | const (c : Constant)
  | binary (op : BinaryOpcode) (a b : ValueId)
  | unary (op : UnaryOpcode) (a : ValueId)
  | extend (signed : Bool) (ty : MachineType) (a : ValueId)
  | icmp (cc : IntCC) (a b : ValueId)
  | icmpImm (cc : IntCC) (a : ValueId) (imm : Int)
  | fcmp (cc : FloatCC) (a b : ValueId)
  | select (cond a b : ValueId)
  | call (callee : ImportId) (args : List ValueId)
  | ret (values : List ValueId)
  | jump (target : BlockId)
  | brif (cond : ValueId) (whenTrue whenFalse : BlockId)
  | store (a : ValueId) (slot : SlotId)
  | load (ty : MachineType) (slot : SlotId)
deriving DecidableEq

/-- An instruction in place, with its number and the values it defines. -/
structure Stmt where
  number : Nat
  results : List ValueId
  inst : Inst
deriving DecidableEq

abbrev Block := List Stmt

/-- An imported function: what it stands for and how it is called. -/
structure Import where
  index : Nat
  signature : Signature
deriving DecidableEq

structure Function where
  name : String
  signature : Signature
  /-- The size of each slot in bytes. -/
  slots : List Nat
  imports : List Import
  blocks : List Block
  /-- The type of each value. -/
  values : List MachineType
deriving DecidableEq

namespace Inst

/-- The values an instruction reads, in the order they are written. -/
def operands : Inst → List ValueId
  | const _ | jump _ | load _ _ => []
  | binary _ a b | icmp _ a b | fcmp _ a b => [a, b]
  | unary _ a | extend _ _ a | icmpImm _ a _ | brif a _ _ | store a _ => [a]
  | select c a b => [c, a, b]
  | call _ args => args
  | ret values => values

/-- Instructions that end a block. -/
def isTerminator : Inst → Bool
  | ret _ | jump _ | brif _ _ _ => true
  | _ => false

/-- The blocks control may go to next. -/
def targets : Inst → List BlockId
  | jump b => [b]
  | brif _ t e => [t, e]
  | _ => []

end Inst

namespace Function

/-- A function without code. -/
def empty (name : String) (signature : Signature) : Function :=
  { name, signature, slots := [], imports := [], blocks := [], values := [] }

/-- The statement that defines a value, and its block. -/
def definition? (f : Function) (v : ValueId) : Option (BlockId × Stmt) :=
  f.blocks.zipIdx.findSome? fun (block, b) =>
    (block.find? (·.results.contains v)).map (b, ·)

end Function

end ScalarLang.Ir
