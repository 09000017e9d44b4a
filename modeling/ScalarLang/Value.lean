import ScalarLang.Decimal.Layout
import ScalarLang.Ir.Word
import ScalarLang.Scalar.Basic

/-
  The values a program can yield, and how they are written. Integers of all widths yield values of
  64 bits, extended according to their sign.
-/

namespace ScalarLang

inductive Value where
  | boolean (value : Bool)
  | signed (value : BitVec 64)
  | unsigned (value : BitVec 64)
  | float16 (value : Binary .single)
  | float32 (value : Binary .single)
  | float64 (value : Binary .double)
deriving DecidableEq

namespace Value

/-- Reads a value off the word that holds it; `none` if the word has another type. -/
def ofWord? : Representation → Word → Option Value
  | .boolean, .i8 x => some (.boolean (x != 0))
  | .signed .w8, .i8 x => some (.signed (x.signExtend 64))
  | .signed .w16, .i16 x => some (.signed (x.signExtend 64))
  | .signed .w32, .i32 x => some (.signed (x.signExtend 64))
  | .signed .w64, .i64 x => some (.signed x)
  | .unsigned .w8, .i8 x => some (.unsigned (x.setWidth 64))
  | .unsigned .w16, .i16 x => some (.unsigned (x.setWidth 64))
  | .unsigned .w32, .i32 x => some (.unsigned (x.setWidth 64))
  | .unsigned .w64, .i64 x => some (.unsigned x)
  | .half, .f32 x => some (.float16 x)
  | .single, .f32 x => some (.float32 x)
  | .double, .f64 x => some (.float64 x)
  | _, _ => none

def typeName : Value → String
  | boolean _ => "bool"
  | signed _ => "i64"
  | unsigned _ => "u64"
  | float16 _ => "f16"
  | float32 _ => "f32"
  | float64 _ => "f64"

def text : Value → String
  | boolean true => "True"
  | boolean false => "False"
  | signed x => toString x.toInt
  | unsigned x => toString x.toNat
  | float16 x | float32 x => x.text .result
  | float64 x => x.text .result

def asSigned? : Value → Option (BitVec 64)
  | signed x => some x
  | _ => none

def asUnsigned? : Value → Option (BitVec 64)
  | unsigned x => some x
  | _ => none

def asBool? : Value → Option Bool
  | boolean b => some b
  | _ => none

/-- A float of any width in double precision. -/
def asDouble? : Value → Option (Binary .double)
  | float16 x | float32 x => some x.convert
  | float64 x => some x
  | _ => none

/-- Whether two values are equal; NaNs of one width are, and so are the two zeros. -/
def same : Value → Value → Bool
  | float16 x, float16 y | float32 x, float32 y =>
    x.compare? y == some .eq || (x.isNaN && y.isNaN)
  | float64 x, float64 y => x.compare? y == some .eq || (x.isNaN && y.isNaN)
  | a, b => a == b

end Value

end ScalarLang
