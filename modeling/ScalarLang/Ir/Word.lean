import ScalarLang.Binary.Half
import ScalarLang.Ir.Condition
import ScalarLang.Ir.Type

/-
  Machine words and the operations on them.
  Integer operations need operands of one width and wrap; shift amounts are taken modulo the
  width. Division is undefined on a zero divisor and on the signed quotient that does not fit.
  An operation on words of the wrong type has no result.
-/

namespace ScalarLang

/-- A word of some machine type. -/
inductive Word where
  | i8 (x : BitVec 8)
  | i16 (x : BitVec 16)
  | i32 (x : BitVec 32)
  | i64 (x : BitVec 64)
  | f32 (x : Binary .single)
  | f64 (x : Binary .double)
deriving DecidableEq

namespace Word

def type : Word → MachineType
  | i8 _ => .i8
  | i16 _ => .i16
  | i32 _ => .i32
  | i64 _ => .i64
  | f32 _ => .f32
  | f64 _ => .f64

/-- A boolean as a byte. -/
def ofBool (b : Bool) : Word := .i8 (if b then 1 else 0)

/-- The integer word of a type that is congruent to `n`; a float type has none. -/
def ofInt? (ty : MachineType) (n : Int) : Option Word :=
  match ty with
  | .i8 => some (.i8 (BitVec.ofInt 8 n))
  | .i16 => some (.i16 (BitVec.ofInt 16 n))
  | .i32 => some (.i32 (BitVec.ofInt 32 n))
  | .i64 => some (.i64 (BitVec.ofInt 64 n))
  | .f32 | .f64 => none

/-- An integer word read in two's complement. -/
def toInt? : Word → Option Int
  | i8 x => some x.toInt
  | i16 x => some x.toInt
  | i32 x => some x.toInt
  | i64 x => some x.toInt
  | f32 _ | f64 _ => none

/-- An integer word read without sign. -/
def toNat? : Word → Option Nat
  | i8 x => some x.toNat
  | i16 x => some x.toNat
  | i32 x => some x.toNat
  | i64 x => some x.toNat
  | f32 _ | f64 _ => none

/-- Applies an operation on integers of any width to two words of one width. -/
def mapInts (f : {n : Nat} → BitVec n → BitVec n → Option (BitVec n)) : Word → Word → Option Word
  | i8 x, i8 y => (f x y).map .i8
  | i16 x, i16 y => (f x y).map .i16
  | i32 x, i32 y => (f x y).map .i32
  | i64 x, i64 y => (f x y).map .i64
  | _, _ => none

/-- Applies an operation on floats of any format to two words of one format. -/
def mapFloats (f : {fmt : Format} → Binary fmt → Binary fmt → Binary fmt) :
    Word → Word → Option Word
  | f32 x, f32 y => some (.f32 (f x y))
  | f64 x, f64 y => some (.f64 (f x y))
  | _, _ => none

def compareInts (cc : IntCC) : Word → Word → Option Word
  | i8 x, i8 y => some (ofBool (cc.holds x y))
  | i16 x, i16 y => some (ofBool (cc.holds x y))
  | i32 x, i32 y => some (ofBool (cc.holds x y))
  | i64 x, i64 y => some (ofBool (cc.holds x y))
  | _, _ => none

def compareFloats (cc : FloatCC) : Word → Word → Option Word
  | f32 x, f32 y => some (ofBool (cc.holds (x.compare? y)))
  | f64 x, f64 y => some (ofBool (cc.holds (x.compare? y)))
  | _, _ => none

def negateInt? : Word → Option Word
  | i8 x => some (.i8 (-x))
  | i16 x => some (.i16 (-x))
  | i32 x => some (.i32 (-x))
  | i64 x => some (.i64 (-x))
  | f32 _ | f64 _ => none

def negateFloat? : Word → Option Word
  | f32 x => some (.f32 x.neg)
  | f64 x => some (.f64 x.neg)
  | _ => none

/-- The integer word of type `ty` with the same value, read with or without sign. -/
def extend? (signed : Bool) (ty : MachineType) (w : Word) : Option Word := do
  let n ← if signed then w.toInt? else w.toNat?.map Int.ofNat
  ofInt? ty n

/-- Whether an integer word is not zero. -/
def isTrue? (w : Word) : Option Bool := w.toNat?.map (· != 0)

/-- The unsigned quotient, undefined for a zero divisor. -/
def divUnsigned? {n : Nat} (x y : BitVec n) : Option (BitVec n) :=
  if y = 0 then none else some (x.udiv y)

/-- The signed quotient, undefined for a zero divisor and where it does not fit. -/
def divSigned? {n : Nat} (x y : BitVec n) : Option (BitVec n) :=
  if y = 0 ∨ (x = BitVec.intMin n ∧ y = BitVec.allOnes n) then none else some (x.sdiv y)

end Word

end ScalarLang
