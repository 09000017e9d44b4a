import ScalarLang.Ir.Basic
import ScalarLang.Ir.Intrinsic

/-
  Building a function step by step. Blocks may be filled in any order: instructions go where the
  cursor stands, at the end of a block or before an instruction. Slots, imports and the result
  type may be added at any time.
-/

namespace ScalarLang.Ir

/-- Where the next instruction goes. -/
inductive Cursor where
  | nowhere
  | atEnd (block : BlockId)
  | before (inst : Nat)
deriving DecidableEq

/-- A function under construction. -/
structure Builder where
  function : Function
  cursor : Cursor := .nowhere
  /-- How many instructions have been made. -/
  count : Nat := 0

abbrev Build := StateM Builder

namespace Builder

/-- A function with no parameters, no result and no code yet. -/
def start (name : String) : Builder := { function := .empty name ⟨[], []⟩ }

/-- Puts a statement before the instruction with a given number. -/
def insertBefore (inst : Nat) (stmt : Stmt) (block : Block) : Block :=
  block.flatMap fun s => if s.number = inst then [stmt, s] else [s]

/-- Puts a statement where the cursor stands. -/
def place (cursor : Cursor) (stmt : Stmt) (blocks : List Block) : List Block :=
  match cursor with
  | .nowhere => blocks
  | .atEnd b => blocks.modify b (· ++ [stmt])
  | .before inst => blocks.map (insertBefore inst stmt)

end Builder

namespace Build

def createBlock : Build BlockId :=
  modifyGet fun b =>
    (b.function.blocks.length,
      { b with function := { b.function with blocks := b.function.blocks ++ [[]] } })

/-- Goes on at the end of a block. -/
def switchTo (block : BlockId) : Build Unit := modify ({ · with cursor := .atEnd block })

/-- Goes on before an instruction. -/
def insertBefore (inst : Nat) : Build Unit := modify ({ · with cursor := .before inst })

def cursor : Build Cursor := return (← get).cursor

def setCursor (cursor : Cursor) : Build Unit := modify ({ · with cursor })

/-- Makes an instruction with results of the given types and puts it where the cursor stands.
    Gives the instruction's number and its results. -/
def emit (inst : Inst) (types : List MachineType) : Build (Nat × List ValueId) :=
  modifyGet fun b =>
    let results := List.range' b.function.values.length types.length
    let stmt : Stmt := ⟨b.count, results, inst⟩
    ((b.count, results),
      { b with
        count := b.count + 1
        function := { b.function with
          values := b.function.values ++ types
          blocks := Builder.place b.cursor stmt b.function.blocks } })

/-- Makes an instruction with one result. -/
def value (inst : Inst) (ty : MachineType) : Build ValueId := do
  let (_, results) ← emit inst [ty]
  return results.headD 0

/-- Makes an instruction without result and gives its number. -/
def effect (inst : Inst) : Build Nat := do
  let (number, _) ← emit inst []
  return number

/-- The type of a value. -/
def typeOf (v : ValueId) : Build MachineType :=
  return (← get).function.values[v]?.getD .i64

def createSlot (size : Nat) : Build SlotId :=
  modifyGet fun b =>
    (b.function.slots.length,
      { b with function := { b.function with slots := b.function.slots ++ [size] } })

/-- Imports what has a given external index. The first import of an index counts. -/
def importFunction (index : Nat) (signature : Signature) : Build ImportId :=
  modifyGet fun b =>
    match b.function.imports.findIdx? (·.index == index) with
    | some id => (id, b)
    | none =>
      (b.function.imports.length,
        { b with function := { b.function with
            imports := b.function.imports ++ [⟨index, signature⟩] } })

/-- Calls an imported function and gives its first result, if it has one. -/
def call (callee : ImportId) (args : List ValueId) : Build (Option ValueId) := do
  let results := ((← get).function.imports[callee]?.map (·.signature.results)).getD []
  let (_, values) ← emit (.call callee args) results
  return values.head?

def callIntrinsic (routine : Intrinsic) (args : List ValueId) : Build (Option ValueId) := do
  let callee ← importFunction routine.index routine.signature
  call callee args

def setReturnType (ty : MachineType) : Build Unit :=
  modify fun b => { b with function := { b.function with
    signature := { b.function.signature with results := [ty] } } }

/-! ## Single instructions -/

def const (c : Constant) : Build ValueId := value (.const c) c.type

def iconst (ty : MachineType) (imm : BitVec 64) : Build ValueId := const (.int ty imm)

def binary (op : BinaryOpcode) (a b : ValueId) : Build ValueId := do
  value (.binary op a b) (← typeOf a)

def unary (op : UnaryOpcode) (a : ValueId) : Build ValueId := do
  value (.unary op a) (← typeOf a)

def extend (signed : Bool) (ty : MachineType) (a : ValueId) : Build ValueId :=
  value (.extend signed ty a) ty

def icmp (cc : IntCC) (a b : ValueId) : Build ValueId := value (.icmp cc a b) .i8

def icmpImm (cc : IntCC) (a : ValueId) (imm : Int) : Build ValueId := value (.icmpImm cc a imm) .i8

def fcmp (cc : FloatCC) (a b : ValueId) : Build ValueId := value (.fcmp cc a b) .i8

def select (cond a b : ValueId) : Build ValueId := do
  value (.select cond a b) (← typeOf a)

def store (a : ValueId) (slot : SlotId) : Build Nat := effect (.store a slot)

def load (ty : MachineType) (slot : SlotId) : Build ValueId := value (.load ty slot) ty

def jump (target : BlockId) : Build Nat := effect (.jump target)

def brif (cond : ValueId) (whenTrue whenFalse : BlockId) : Build Nat :=
  effect (.brif cond whenTrue whenFalse)

def ret (values : List ValueId) : Build Nat := effect (.ret values)

end Build

end ScalarLang.Ir
