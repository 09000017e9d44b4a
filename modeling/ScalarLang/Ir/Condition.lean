/-
  The relations that comparison instructions test.
-/

namespace ScalarLang

/-- The relations an integer comparison can test, with or without sign. -/
inductive IntCC where
  | eq | ne | slt | sge | sgt | sle | ult | uge | ugt | ule
deriving DecidableEq, Repr

/-- The relations a float comparison can test; none of them holds of a NaN, `one` included. -/
inductive FloatCC where
  | eq | one | lt | le | gt | ge
deriving DecidableEq, Repr

namespace IntCC

def text : IntCC → String
  | eq => "eq"
  | ne => "ne"
  | slt => "slt"
  | sge => "sge"
  | sgt => "sgt"
  | sle => "sle"
  | ult => "ult"
  | uge => "uge"
  | ugt => "ugt"
  | ule => "ule"

def holds {n : Nat} (cc : IntCC) (x y : BitVec n) : Bool :=
  match cc with
  | eq => x == y
  | ne => x != y
  | slt => x.slt y
  | sge => y.sle x
  | sgt => y.slt x
  | sle => x.sle y
  | ult => x.ult y
  | uge => y.ule x
  | ugt => y.ult x
  | ule => x.ule y

end IntCC

namespace FloatCC

def text : FloatCC → String
  | eq => "eq"
  | one => "one"
  | lt => "lt"
  | le => "le"
  | gt => "gt"
  | ge => "ge"

/-- Whether the relation holds of two numbers that compare so; `none` is unordered. -/
def holds : FloatCC → Option Ordering → Bool
  | _, none => false
  | eq, some o => o == .eq
  | one, some o => o != .eq
  | lt, some o => o == .lt
  | le, some o => o != .gt
  | gt, some o => o == .gt
  | ge, some o => o != .lt

end FloatCC

end ScalarLang
