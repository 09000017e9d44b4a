import ScalarLang.Ir.Basic

/-
  Listings of code.
  An instruction names its type where the type of its controlling operand cannot be seen from the
  block it stands in; some always name it. Operands that are constants are repeated in a comment.
-/

namespace ScalarLang.Ir

/-! ## Numbers -/

/-- Digits in groups of four from the right, joined with underscores. -/
def groupDigits (digits : List Char) : List Char :=
  let padded := List.replicate ((4 - digits.length % 4) % 4) '0' ++ digits
  let rec go : Nat → List Char → List Char
    | 0, _ => []
    | 1, ds => ds
    | groups + 2, ds => ds.take 4 ++ '_' :: go (groups + 1) (ds.drop 4)
  go (padded.length / 4) padded

/-- Integers below 10000 in decimal, larger ones in hexadecimal. -/
def integerText (n : Int) : String :=
  if n < 10000 then toString n
  else "0x" ++ String.ofList (groupDigits (Nat.toDigits 16 n.toNat))

/-- Hexadecimal digits, padded with zeros on the left. -/
def hexDigits (width n : Nat) : String :=
  let digits := Nat.toDigits 16 n
  String.ofList (List.replicate (width - digits.length) '0' ++ digits)

/-- The fraction in as many hexadecimal digits as it needs, filled up with zero bits. -/
def fractionText {fmt : Format} (x : Binary fmt) : String :=
  let width := (fmt.fractionBits + 3) / 4
  hexDigits width (x.fractionField * Nat.pow 2 (4 * width - fmt.fractionBits))

/-- A float as hexadecimal significand and binary exponent. A NaN shows whether it is quiet and
    the rest of its fraction. -/
def floatText {fmt : Format} (x : Binary fmt) : String :=
  let bias : Int := Nat.pow 2 (fmt.exponentBits - 1) - 1
  let sign := if x.negative then "-" else ""
  let strictSign := if x.negative then "-" else "+"
  if x.isZero then sign ++ "0.0"
  else if x.isInfinite then strictSign ++ "Inf"
  else if x.isNaN then
    let top := Nat.pow 2 (fmt.fractionBits - 1)
    let payload := x.fractionField % top
    let digits := ":0x" ++ hexDigits 1 payload
    if x.fractionField < top then strictSign ++ "sNaN" ++ digits
    else if payload = 0 then strictSign ++ "NaN"
    else strictSign ++ "NaN" ++ digits
  else if x.exponentField = 0 then
    sign ++ "0x0." ++ fractionText x ++ "p" ++ toString (1 - bias)
  else
    sign ++ "0x1." ++ fractionText x ++ "p" ++ toString ((x.exponentField : Int) - bias)

/-- A constant; an immediate is read in two's complement at the width of its type. -/
def constantText : Constant → String
  | .int ty imm => integerText (imm.setWidth ty.bits).toInt
  | .f32 x => floatText x
  | .f64 x => floatText x

/-! ## Names -/

def valueText (v : ValueId) : String := "v" ++ toString v
def blockText (b : BlockId) : String := "block" ++ toString b
def slotText (s : SlotId) : String := "ss" ++ toString s
def importText (f : ImportId) : String := "fn" ++ toString f
def valuesText (vs : List ValueId) : String := ", ".intercalate (vs.map valueText)

def BinaryOpcode.text : BinaryOpcode → String
  | iadd => "iadd"
  | isub => "isub"
  | imul => "imul"
  | band => "band"
  | bor => "bor"
  | bxor => "bxor"
  | ishl => "ishl"
  | sshr => "sshr"
  | ushr => "ushr"
  | udiv => "udiv"
  | sdiv => "sdiv"
  | fadd => "fadd"
  | fsub => "fsub"
  | fmul => "fmul"
  | fdiv => "fdiv"

def UnaryOpcode.text : UnaryOpcode → String
  | ineg => "ineg"
  | fneg => "fneg"

/-! ## Instructions -/

namespace Inst

/-- The operand whose type an instruction takes its own from, if it may name that type. -/
def controlling? : Inst → Option ValueId
  | binary _ a _ | unary _ a | icmp _ a _ | icmpImm _ a _ | fcmp _ a _ | select _ a _
  | store a _ | brif a _ _ => some a
  | _ => none

def opcode : Inst → String
  | const (.int ty _) => "iconst." ++ ty.text
  | const (.f32 _) => "f32const"
  | const (.f64 _) => "f64const"
  | binary op _ _ => op.text
  | unary op _ => op.text
  | extend signed ty _ => (if signed then "sextend." else "uextend.") ++ ty.text
  | icmp _ _ _ => "icmp"
  | icmpImm _ _ _ => "icmp_imm"
  | fcmp _ _ _ => "fcmp"
  | select _ _ _ => "select"
  | call _ _ => "call"
  | ret _ => "return"
  | jump _ => "jump"
  | brif _ _ _ => "brif"
  | store _ _ => "stack_store"
  | load ty _ => "stack_load." ++ ty.text

/-- What stands after the opcode, with the blank before it. -/
def argumentText : Inst → String
  | const c => " " ++ constantText c
  | binary _ a b => " " ++ valuesText [a, b]
  | unary _ a | extend _ _ a => " " ++ valueText a
  | icmp cc a b => " " ++ cc.text ++ " " ++ valuesText [a, b]
  | icmpImm cc a imm => " " ++ cc.text ++ " " ++ valueText a ++ ", " ++ integerText imm
  | fcmp cc a b => " " ++ cc.text ++ " " ++ valuesText [a, b]
  | select c a b => " " ++ valuesText [c, a, b]
  | call callee args => " " ++ importText callee ++ "(" ++ valuesText args ++ ")"
  | ret values => if values.isEmpty then "" else " " ++ valuesText values
  | jump target => " " ++ blockText target
  | brif c t e => " " ++ valueText c ++ ", " ++ blockText t ++ ", " ++ blockText e
  | store a slot => " " ++ valueText a ++ ", " ++ slotText slot
  | load _ slot => " " ++ slotText slot

end Inst

namespace Function

/-- The type a statement of block `b` names because its controlling operand is defined in
    another block. -/
def typeSuffix (f : Function) (b : BlockId) (inst : Inst) : String :=
  match inst.controlling? with
  | some v =>
    if (f.definition? v).map (·.1) == some b then ""
    else "." ++ ((f.values[v]?).getD .i64).text
  | none => ""

/-- The constant a value is, if it is one. -/
def constant? (f : Function) (v : ValueId) : Option Constant :=
  match f.definition? v with
  | some (_, ⟨_, _, .const c⟩) => some c
  | _ => none

/-- The comment that repeats the constants among the operands. -/
def constantComment (f : Function) (inst : Inst) : String :=
  let notes := inst.operands.filterMap fun v =>
    (f.constant? v).map fun c => valueText v ++ " = " ++ constantText c
  if notes.isEmpty then "" else "  ; " ++ ", ".intercalate notes

def stmtText (f : Function) (b : BlockId) (s : Stmt) : String :=
  "    " ++ (if s.results.isEmpty then "" else valuesText s.results ++ " = ") ++
    s.inst.opcode ++ f.typeSuffix b s.inst ++ s.inst.argumentText ++ f.constantComment s.inst ++ "\n"

/-- A slot is aligned to its size, rounded up to a power of two. -/
def slotLine (slot : SlotId) (size : Nat) : String :=
  let align := Nat.nextPowerOfTwo size
  "    " ++ slotText slot ++ " = explicit_slot " ++ toString size ++
    (if align > 1 then ", align = " ++ toString align else "") ++ "\n"

/-- Slots, signatures and imported functions. -/
def preamble (f : Function) : String :=
  String.join (f.slots.zipIdx.map fun (size, slot) => slotLine slot size) ++
  String.join (f.imports.zipIdx.map fun (i, n) =>
    "    sig" ++ toString n ++ " = " ++ i.signature.text ++ "\n") ++
  String.join (f.imports.zipIdx.map fun (i, n) =>
    "    " ++ importText n ++ " = u0:" ++ toString i.index ++ " sig" ++ toString n ++ "\n")

def blockListing (f : Function) (b : BlockId) (block : Block) : String :=
  blockText b ++ ":\n" ++ String.join (block.map (f.stmtText b))

/-- The listing of a function. A blank line goes before every block, except one directly after
    the first line. -/
def text (f : Function) : String :=
  let preamble := f.preamble
  let blocks := "\n".intercalate (f.blocks.zipIdx.map fun (block, b) => f.blockListing b block)
  let gap := if preamble.isEmpty || f.blocks.isEmpty then "" else "\n"
  "function %" ++ f.name ++ f.signature.text ++ " \x7b\n" ++ preamble ++ gap ++ blocks ++ "\x7d\n"

end Function

end ScalarLang.Ir
