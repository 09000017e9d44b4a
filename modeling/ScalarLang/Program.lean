import ScalarLang.Ir.Intrinsic
import ScalarLang.Ir.Text
import ScalarLang.Scalar.Basic

/-
  Programs: the functions lowered so far, in order, and a count of entry points.
  An entry point is a routine without a name of its own; it is numbered when it is made and
  retired after it has run. A checkpoint remembers how far a program went, and rolling back to it
  forgets what came later.
  A routine need not have been lowered: it may come from outside, with any parameters, and nothing
  ties the results of its code to the type of its result. How the result is represented is not
  kept; it is always what `ScalarType.representation` has for the type.
-/

namespace ScalarLang

/-- A lowered function with the type of its result. -/
structure Routine where
  name : String
  returnType : ScalarType
  anonymous : Bool
  code : Ir.Function

namespace Routine

def arity (r : Routine) : Nat := r.code.signature.params.length

def signature (r : Routine) : Signature := r.code.signature

end Routine

structure Program where
  routines : List Routine := []
  /-- How many entry points have been named. -/
  entryCount : Nat := 0

/-- How far a program went at some time. -/
structure Checkpoint where
  size : Nat
  entryCount : Nat
deriving DecidableEq

namespace Program

def empty : Program := {}

def size (p : Program) : Nat := p.routines.length

/-- The external index of the routine at a position. -/
def indexAt (position : Nat) : Nat := firstRoutineIndex + position

/-- The first routine of a name and its external index. -/
def lookup (p : Program) (name : String) : Option (Nat × Routine) := do
  let position ← p.routines.findIdx? (·.name == name)
  let routine ← p.routines[position]?
  return (indexAt position, routine)

def contains (p : Program) (name : String) : Bool := (p.lookup name).isSome

/-- The names of the routines that are no entry points. -/
def definedNames (p : Program) : List String :=
  (p.routines.filter (!·.anonymous)).map (·.name)

/-- A name for the next entry point. No identifier can be spelled like it. -/
def nextEntryName (p : Program) : String × Program :=
  ("anon$" ++ toString (p.entryCount + 1), { p with entryCount := p.entryCount + 1 })

/-- The external index the next routine will have. -/
def nextIndex (p : Program) : Nat := indexAt p.size

def checkpoint (p : Program) : Checkpoint := ⟨p.size, p.entryCount⟩

def rollback (p : Program) (c : Checkpoint) : Program :=
  ⟨p.routines.take c.size, c.entryCount⟩

def commit (p : Program) (r : Routine) : Program := { p with routines := p.routines ++ [r] }

/-- The entry point that stands last, if one does. -/
def pendingEntry? (p : Program) : Option Routine :=
  p.routines.getLast?.filter (·.anonymous)

/-- Drops the entry point that stands last, if one does. -/
def retireEntry (p : Program) : Program :=
  if p.pendingEntry?.isSome then { p with routines := p.routines.dropLast } else p

/-- The listings of all routines, each under its name. -/
def text (p : Program) : String :=
  "\n".intercalate (p.routines.map fun r => "; " ++ r.name ++ "\n" ++ r.code.text)

end Program

end ScalarLang
