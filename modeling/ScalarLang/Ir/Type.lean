/-
  The types of machine words, and function signatures over them.
-/

namespace ScalarLang

/-- The type of a word: an integer of some width, without sign, or a float. -/
inductive MachineType where
  | i8 | i16 | i32 | i64 | f32 | f64
deriving DecidableEq, Repr

namespace MachineType

def text : MachineType → String
  | i8 => "i8"
  | i16 => "i16"
  | i32 => "i32"
  | i64 => "i64"
  | f32 => "f32"
  | f64 => "f64"

def bytes : MachineType → Nat
  | i8 => 1
  | i16 => 2
  | i32 => 4
  | i64 => 8
  | f32 => 4
  | f64 => 8

def bits (ty : MachineType) : Nat := 8 * ty.bytes

def isInt : MachineType → Bool
  | i8 | i16 | i32 | i64 => true
  | f32 | f64 => false

end MachineType

/-- The types a function takes and returns. -/
structure Signature where
  params : List MachineType
  results : List MachineType
deriving DecidableEq, Repr

/-- Types in parentheses, an arrow and the results if there are any, the calling convention. -/
def Signature.text (s : Signature) : String :=
  let types := fun ts : List MachineType => ", ".intercalate (ts.map MachineType.text)
  "(" ++ types s.params ++ ")" ++
    (if s.results.isEmpty then "" else " -> " ++ types s.results) ++ " system_v"

end ScalarLang
