import ScalarLang.Ir.Type

/-
  The types of the language: booleans, integers, pointers and floats.
  A type is asked for by class and width; classes differ in the widths they have.
-/

namespace ScalarLang

/-- The family a type belongs to. -/
inductive TypeClass where
  | boolean | signedInteger | unsignedInteger | pointer | float16 | float32 | float64
deriving DecidableEq, Repr

namespace TypeClass

def text : TypeClass → String
  | boolean => "Boolean"
  | signedInteger => "SignedInteger"
  | unsignedInteger => "UnsignedInteger"
  | pointer => "Pointer"
  | float16 => "Float16"
  | float32 => "Float32"
  | float64 => "Float64"

def all : List TypeClass :=
  [boolean, signedInteger, unsignedInteger, pointer, float16, float32, float64]

end TypeClass

/-- The widths of integers. -/
inductive IntWidth where
  | w8 | w16 | w32 | w64
deriving DecidableEq, Repr

def IntWidth.bits : IntWidth → Nat
  | w8 => 8
  | w16 => 16
  | w32 => 32
  | w64 => 64

def IntWidth.machineType : IntWidth → MachineType
  | w8 => .i8
  | w16 => .i16
  | w32 => .i32
  | w64 => .i64

/-- The widths of pointers. -/
inductive PointerWidth where
  | w32 | w64
deriving DecidableEq, Repr

def PointerWidth.toIntWidth : PointerWidth → IntWidth
  | w32 => .w32
  | w64 => .w64

/-- A type of the language. No literal has a pointer type or an integer type below 64 bits. -/
inductive ScalarType where
  | boolean
  | signed (width : IntWidth)
  | unsigned (width : IntWidth)
  | pointer (width : PointerWidth)
  | float16
  | float32
  | float64
deriving DecidableEq, Repr

/-- How a result of some type is read off the word that holds it. -/
inductive Representation where
  | boolean
  | signed (width : IntWidth)
  | unsigned (width : IntWidth)
  | half
  | single
  | double
deriving DecidableEq, Repr

namespace ScalarType

abbrev i64 : ScalarType := .signed .w64
abbrev u64 : ScalarType := .unsigned .w64

def typeClass : ScalarType → TypeClass
  | boolean => .boolean
  | signed _ => .signedInteger
  | unsigned _ => .unsignedInteger
  | pointer _ => .pointer
  | float16 => .float16
  | float32 => .float32
  | float64 => .float64

/-- The width in bits; a boolean has one. -/
def width : ScalarType → Nat
  | boolean => 1
  | signed w | unsigned w => w.bits
  | pointer w => w.toIntWidth.bits
  | float16 => 16
  | float32 => 32
  | float64 => 64

def text : ScalarType → String
  | boolean => "bool"
  | signed w => "i" ++ toString w.bits
  | unsigned w => "u" ++ toString w.bits
  | pointer w => "ptr" ++ toString w.toIntWidth.bits
  | float16 => "f16"
  | float32 => "f32"
  | float64 => "f64"

def isBoolean : ScalarType → Bool
  | boolean => true
  | _ => false

def isFloat : ScalarType → Bool
  | float16 | float32 | float64 => true
  | _ => false

/-- The word that holds a value: a boolean is a byte that is 0 or 1, a half is a single. -/
def machineType : ScalarType → MachineType
  | boolean => .i8
  | signed w | unsigned w => w.machineType
  | pointer w => w.toIntWidth.machineType
  | float16 | float32 => .f32
  | float64 => .f64

def representation : ScalarType → Representation
  | boolean => .boolean
  | signed w => .signed w
  | unsigned w => .unsigned w
  | pointer w => .unsigned w.toIntWidth
  | float16 => .half
  | float32 => .single
  | float64 => .double

/-- The bytes a slot needs to hold a value. -/
def byteSize (ty : ScalarType) : Nat := ty.machineType.bytes

/-- The type of a class and width, if the class has that width. -/
def ofWidth? : TypeClass → Nat → Option ScalarType
  | .boolean, 1 => some boolean
  | .signedInteger, 8 => some (signed .w8)
  | .signedInteger, 16 => some (signed .w16)
  | .signedInteger, 32 => some (signed .w32)
  | .signedInteger, 64 => some (signed .w64)
  | .unsignedInteger, 8 => some (unsigned .w8)
  | .unsignedInteger, 16 => some (unsigned .w16)
  | .unsignedInteger, 32 => some (unsigned .w32)
  | .unsignedInteger, 64 => some (unsigned .w64)
  | .pointer, 32 => some (pointer .w32)
  | .pointer, 64 => some (pointer .w64)
  | .float16, 16 => some float16
  | .float32, 32 => some float32
  | .float64, 64 => some float64
  | _, _ => none

end ScalarType

/-- What can be wrong with a request to a type. -/
inductive TypeError where
  | invalidWidth (cls : TypeClass) (width : Nat)
  | unsupported (operator : String) (ty : ScalarType)
deriving DecidableEq

def TypeError.message : TypeError → String
  | invalidWidth cls width => cls.text ++ " has no " ++ toString width ++ "-bit form"
  | unsupported operator ty => "operator '" ++ operator ++ "' is not supported for " ++ ty.text

end ScalarLang
