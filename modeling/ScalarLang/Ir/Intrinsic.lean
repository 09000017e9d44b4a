import ScalarLang.Ir.Word

/-
  The built-in routines that code may call. Their external indices come before those of the
  program's own functions.
-/

namespace ScalarLang

/-- A built-in routine: the check of a divisor, and rounding to half precision. -/
inductive Intrinsic where
  | checkDivisor
  | roundHalf
deriving DecidableEq, Repr

namespace Intrinsic

def all : List Intrinsic := [checkDivisor, roundHalf]

def symbol : Intrinsic → String
  | checkDivisor => "aki_check_divisor"
  | roundHalf => "aki_round_half"

def index : Intrinsic → Nat
  | checkDivisor => 0
  | roundHalf => 1

def signature : Intrinsic → Signature
  | checkDivisor => ⟨[.i64], []⟩
  | roundHalf => ⟨[.f32], [.f32]⟩

def ofIndex? : Nat → Option Intrinsic
  | 0 => some checkDivisor
  | 1 => some roundHalf
  | _ => none

def ofSymbol? (symbol : String) : Option Intrinsic := all.find? (·.symbol == symbol)

end Intrinsic

/-- The external index of a program's first function. -/
def firstRoutineIndex : Nat := 2

end ScalarLang
