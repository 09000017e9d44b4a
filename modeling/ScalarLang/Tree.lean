import ScalarLang.Binary.Basic
import ScalarLang.Source.Span

/-
  Syntax trees. Every node carries the span of source text it was read from.
-/

namespace ScalarLang

inductive BinaryOp where
  | add | sub | mul | div
  | bitAnd | bitOr | bitXor | shl | shr
  | eq | ne | gt | lt | ge | le
deriving DecidableEq, Repr

namespace BinaryOp

def all : List BinaryOp :=
  [add, sub, mul, div, bitAnd, bitOr, bitXor, shl, shr, eq, ne, gt, lt, ge, le]

/-- How tightly the operator binds; all operators associate to the left. -/
def precedence : BinaryOp → Nat
  | eq | ne | gt | lt | ge | le => 1
  | bitOr => 2
  | bitXor => 3
  | bitAnd => 4
  | shl | shr => 5
  | add | sub => 6
  | mul | div => 7

def isComparison (op : BinaryOp) : Bool := op.precedence == 1

def symbol : BinaryOp → String
  | add => "+"
  | sub => "-"
  | mul => "*"
  | div => "/"
  | bitAnd => "&"
  | bitOr => "|"
  | bitXor => "^"
  | shl => "<<"
  | shr => ">>"
  | eq => "=="
  | ne => "!="
  | gt => ">"
  | lt => "<"
  | ge => ">="
  | le => "<="

end BinaryOp

/-- A constant, with the type its spelling gives it. A half is carried in single precision. -/
inductive Literal where
  | signed (value : BitVec 64)
  | unsigned (value : BitVec 64)
  | boolean (value : Bool)
  | float16 (value : Binary .single)
  | float32 (value : Binary .single)
  | float64 (value : Binary .double)
deriving DecidableEq

/-- The two spellings of a conditional expression. -/
inductive ConditionalForm where
  | ifForm
  | whenForm
deriving DecidableEq, Repr

def ConditionalForm.keyword : ConditionalForm → String
  | ifForm => "if"
  | whenForm => "when"

structure Ident where
  text : String
  span : Span
deriving DecidableEq, Repr

inductive Node where
  | literal (span : Span) (value : Literal)
  | name (span : Span) (text : String)
  | binary (span : Span) (op : BinaryOp) (lhs rhs : Node)
  | negate (span : Span) (operand : Node)
  | conditional (span : Span) (form : ConditionalForm) (test thenArm elseArm : Node)
  | function (span : Span) (name : Ident) (params : List Ident) (body : List Node)
  | call (span : Span) (callee : Ident) (args : List Node)

def Node.span : Node → Span
  | .literal s _ | .name s _ | .binary s _ _ _ | .negate s _ | .conditional s _ _ _ _
  | .function s _ _ _ | .call s _ _ => s

/-- A top-level definition. -/
structure Definition where
  name : Ident
  params : List Ident
  body : List Node

def Node.definition? : Node → Option Definition
  | .function _ ident params body => some ⟨ident, params, body⟩
  | _ => none

/-- What is submitted at once: definitions and statements in source order. -/
structure Fragment where
  nodes : List Node

namespace Fragment

def definitions (f : Fragment) : List Definition := f.nodes.filterMap Node.definition?

/-- The nodes that are no definitions. -/
def statements (f : Fragment) : List Node := f.nodes.filter (·.definition?.isNone)

end Fragment

end ScalarLang
