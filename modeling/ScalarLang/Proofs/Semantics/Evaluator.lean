import Mathlib
import ScalarLang.Binary.Half
import ScalarLang.Lower.Expression
import ScalarLang.Value

/-
  What statements mean, without code.
  Integers are read with or without sign, computed with exactly, and wrapped to 64 bits; floats
  share the operations of the format they are in, and a half is rounded again after each one.
  Evaluation stops at the first division by zero. It is stuck on what has no meaning: operands that
  do not fit, names that stand for nothing, arguments.
-/

namespace ScalarLang

/-- Why an evaluation yields no value. -/
inductive Abort where
  | divisionByZero
  | stuck
deriving DecidableEq

namespace Value

/-- The integer that 64 bits stand for. -/
def integer (signed : Bool) (x : BitVec 64) : Int := if signed then x.toInt else x.toNat

/-- The value of 64 bits. -/
def ofBits (signed : Bool) (x : BitVec 64) : Value := if signed then .signed x else .unsigned x

/-- The value of an integer, wrapped to 64 bits. -/
def wrap (signed : Bool) (n : Int) : Value := ofBits signed (BitVec.ofInt 64 n)

def binaryInteger (signed : Bool) (op : BinaryOp) (x y : BitVec 64) : Except Abort Value :=
  let m := integer signed x
  let n := integer signed y
  match op with
  | .add => .ok (wrap signed (m + n))
  | .sub => .ok (wrap signed (m - n))
  | .mul => .ok (wrap signed (m * n))
  | .div => if n = 0 then .error .divisionByZero else .ok (wrap signed (m.tdiv n))
  | .bitAnd => .ok (ofBits signed (x &&& y))
  | .bitOr => .ok (ofBits signed (x ||| y))
  | .bitXor => .ok (ofBits signed (x ^^^ y))
  | .shl => .ok (wrap signed (m * 2 ^ (y.toNat % 64)))
  | .shr => .ok (wrap signed (m / 2 ^ (y.toNat % 64)))
  | .eq => .ok (.boolean (decide (m = n)))
  | .ne => .ok (.boolean (decide (m ≠ n)))
  | .gt => .ok (.boolean (decide (m > n)))
  | .lt => .ok (.boolean (decide (m < n)))
  | .ge => .ok (.boolean (decide (m ≥ n)))
  | .le => .ok (.boolean (decide (m ≤ n)))

/-- Booleans add and subtract like the numbers 0 and 1. -/
def binaryBoolean : BinaryOp → Bool → Bool → Except Abort Value
  | .add, x, y => .ok (wrap true (x.toInt + y.toInt))
  | .sub, x, y => .ok (wrap true (x.toInt - y.toInt))
  | .bitAnd, x, y => .ok (.boolean (x && y))
  | .bitOr, x, y => .ok (.boolean (x || y))
  | .bitXor, x, y => .ok (.boolean (x ^^ y))
  | .eq, x, y => .ok (.boolean (x == y))
  | .ne, x, y => .ok (.boolean (x != y))
  | _, _, _ => .error .stuck

/-- No comparison holds of a NaN, not even that it differs. -/
def binaryFloat {fmt : Format} (value : Binary fmt → Value) (op : BinaryOp) (x y : Binary fmt) :
    Except Abort Value :=
  match op with
  | .add => .ok (value (x.add y))
  | .sub => .ok (value (x.sub y))
  | .mul => .ok (value (x.mul y))
  | .div => .ok (value (x.div y))
  | .eq => .ok (.boolean ((x.compare? y).any (· == .eq)))
  | .ne => .ok (.boolean ((x.compare? y).any (· != .eq)))
  | .gt => .ok (.boolean ((x.compare? y).any (· == .gt)))
  | .lt => .ok (.boolean ((x.compare? y).any (· == .lt)))
  | .ge => .ok (.boolean ((x.compare? y).any (· != .lt)))
  | .le => .ok (.boolean ((x.compare? y).any (· != .gt)))
  | _ => .error .stuck

/-- An operator on two values of one type. -/
def binary (op : BinaryOp) : Value → Value → Except Abort Value
  | .boolean x, .boolean y => binaryBoolean op x y
  | .signed x, .signed y => binaryInteger true op x y
  | .unsigned x, .unsigned y => binaryInteger false op x y
  | .float16 x, .float16 y => binaryFloat (fun z => .float16 z.roundHalf) op x y
  | .float32 x, .float32 y => binaryFloat .float32 op x y
  | .float64 x, .float64 y => binaryFloat .float64 op x y
  | _, _ => .error .stuck

def negate : Value → Except Abort Value
  | .signed x => .ok (wrap true (-x.toInt))
  | .float16 x => .ok (.float16 x.neg)
  | .float32 x => .ok (.float32 x.neg)
  | .float64 x => .ok (.float64 x.neg)
  | .boolean _ | .unsigned _ => .error .stuck

/-- Whether a value is true as a test: zeros and NaNs are not. -/
def isTrue : Value → Bool
  | .boolean b => b
  | .signed x | .unsigned x => x != 0
  | .float16 x | .float32 x => (x.compare? (.zero false)).any (· != .eq)
  | .float64 x => (x.compare? (.zero false)).any (· != .eq)

end Value

def Literal.value : Literal → Value
  | .signed x => .signed x
  | .unsigned x => .unsigned x
  | .boolean b => .boolean b
  | .float16 x => .float16 x
  | .float32 x => .float32 x
  | .float64 x => .float64 x

namespace Node

/-- The value of an expression, given what calls give. -/
def eval (call : String → Except Abort Value) : Node → Except Abort Value
  | .literal _ l => .ok l.value
  | .binary _ op lhs rhs => do
    let x ← lhs.eval call
    let y ← rhs.eval call
    Value.binary op x y
  | .negate _ operand => do
    let x ← operand.eval call
    x.negate
  | .conditional _ _ test thenArm elseArm => do
    let t ← test.eval call
    if t.isTrue then thenArm.eval call else elseArm.eval call
  | .call _ callee [] => call callee.text
  | .call _ _ (_ :: _) | .name _ _ | .function _ _ _ _ => .error .stuck

/-- The value of the last statement, after all others were evaluated; zero if there is none. -/
def evalAll (call : String → Except Abort Value) : List Node → Except Abort Value
  | [] => .ok (.signed 0)
  | [node] => node.eval call
  | node :: rest => do
    let _ ← node.eval call
    evalAll call rest

end Node

/-- What a call gives where these functions are known, the latest first. The first function of a
    name counts, and its body sees the functions before it. -/
def evalCall : List (String × List Node) → String → Except Abort Value
  | [], _ => .error .stuck
  | (f, body) :: earlier, name =>
    if earlier.any (·.1 == name) then evalCall earlier name
    else if f = name then Node.evalAll (evalCall earlier) body
    else .error .stuck

/-! ## Values and words -/

namespace Value

def type : Value → ScalarType
  | .boolean _ => .boolean
  | .signed _ => .i64
  | .unsigned _ => .u64
  | .float16 _ => .float16
  | .float32 _ => .float32
  | .float64 _ => .float64

/-- The word that holds a value. -/
def word : Value → Word
  | .boolean b => .ofBool b
  | .signed x | .unsigned x => .i64 x
  | .float16 x | .float32 x => .f32 x
  | .float64 x => .f64 x

theorem word_type (v : Value) : v.word.type = v.type.machineType := by
  cases v <;> rfl

theorem ofWord?_word (v : Value) : ofWord? v.type.representation v.word = some v := by
  cases v with
  | boolean b => cases b <;> rfl
  | _ => rfl

end Value

theorem Literal.constant_word? (l : Literal) : l.constant.word? = some l.value.word := by
  cases l with
  | boolean b => cases b <;> rfl
  | _ => simp [Literal.constant, Ir.Constant.word?, Literal.value, Value.word, Word.ofInt?]

theorem Literal.value_type (l : Literal) : l.value.type = l.type := by cases l <;> rfl

/-! ## Integers as bits -/

namespace Value

variable (signed : Bool) (x y : BitVec 64)

theorem ofBits_word : (ofBits signed x).word = .i64 x := by cases signed <;> rfl

theorem ofBits_type : (ofBits signed x).type = if signed then .i64 else .u64 := by
  cases signed <;> rfl

theorem ofInt_integer : BitVec.ofInt 64 (integer signed x) = x := by
  cases signed <;> simp [integer]

theorem integer_inj : integer signed x = integer signed y ↔ x = y := by
  refine ⟨fun h => ?_, fun h => by rw [h]⟩
  rw [← ofInt_integer signed x, h, ofInt_integer]

theorem integer_eq_zero : integer signed y = 0 ↔ y = 0 := by
  rw [← integer_inj signed y 0]
  cases signed <;> simp [integer]

theorem integer_beq : decide (integer signed x = integer signed y) = (x == y) := by
  rw [Bool.eq_iff_iff, decide_eq_true_iff, beq_iff_eq, integer_inj]

theorem integer_bne : decide (integer signed x ≠ integer signed y) = (x != y) := by
  rw [Bool.eq_iff_iff, decide_eq_true_iff, bne_iff_ne, ne_eq, integer_inj]

theorem integer_lt : decide (integer signed x < integer signed y) =
    if signed then x.slt y else x.ult y := by
  cases signed <;> simp [integer, BitVec.slt, BitVec.ult]

theorem integer_le : decide (integer signed x ≤ integer signed y) =
    if signed then x.sle y else x.ule y := by
  cases signed <;> simp [integer, BitVec.sle, BitVec.ule]

theorem wrap_add : wrap signed (integer signed x + integer signed y) = ofBits signed (x + y) := by
  rw [wrap, BitVec.ofInt_add, ofInt_integer, ofInt_integer]

theorem wrap_sub : wrap signed (integer signed x - integer signed y) = ofBits signed (x - y) := by
  rw [wrap, Int.sub_eq_add_neg, BitVec.ofInt_add, BitVec.ofInt_neg, ofInt_integer, ofInt_integer,
    BitVec.sub_eq_add_neg]

theorem wrap_mul : wrap signed (integer signed x * integer signed y) = ofBits signed (x * y) := by
  rw [wrap, BitVec.ofInt_mul, ofInt_integer, ofInt_integer]

theorem wrap_shiftLeft (k : Nat) :
    wrap signed (integer signed x * 2 ^ k) = ofBits signed (x <<< k) := by
  have htwo : BitVec.ofInt 64 (2 ^ k) = BitVec.twoPow 64 k := by
    rw [show (2 : Int) ^ k = ((2 ^ k : Nat) : Int) by push_cast; rfl, BitVec.ofInt_natCast]
    exact BitVec.eq_of_toNat_eq (by simp [BitVec.toNat_twoPow])
  rw [wrap, BitVec.ofInt_mul, ofInt_integer, htwo, BitVec.shiftLeft_eq_mul_twoPow]

theorem wrap_shiftRight (k : Nat) : wrap signed (integer signed x / 2 ^ k) =
    ofBits signed (if signed then x.sshiftRight k else x >>> k) := by
  cases signed with
  | true => simp [wrap, integer, BitVec.sshiftRight_eq, Int.shiftRight_eq_div_pow]
  | false =>
      have hlt : x.toNat / 2 ^ k < 2 ^ 64 := Nat.lt_of_le_of_lt (Nat.div_le_self _ _) x.isLt
      have h : BitVec.ofNat 64 (x.toNat / 2 ^ k) = x >>> k := by
        refine BitVec.eq_of_toNat_eq ?_
        rw [BitVec.toNat_ofNat, Nat.mod_eq_of_lt hlt, BitVec.toNat_ushiftRight,
          Nat.shiftRight_eq_div_pow]
      rw [wrap, integer, if_neg Bool.false_ne_true, if_neg Bool.false_ne_true, ← h,
        ← BitVec.ofInt_natCast]
      push_cast
      rfl

theorem sdiv_eq_ofInt {n : Nat} (x y : BitVec n) :
    x.sdiv y = BitVec.ofInt n (x.toInt.tdiv y.toInt) := by
  rw [← BitVec.toInt_inj, BitVec.toInt_sdiv, BitVec.toInt_ofInt]

theorem udiv_eq_ofInt {n : Nat} (x y : BitVec n) :
    x.udiv y = BitVec.ofInt n ((x.toNat : Int).tdiv y.toNat) := by
  have hlt : x.toNat / y.toNat < 2 ^ n := Nat.lt_of_le_of_lt (Nat.div_le_self _ _) x.isLt
  have h : BitVec.ofNat n (x.toNat / y.toNat) = x.udiv y := by
    refine BitVec.eq_of_toNat_eq ?_
    rw [BitVec.toNat_ofNat, Nat.mod_eq_of_lt hlt]
    exact BitVec.toNat_udiv.symm
  rw [Int.tdiv_eq_ediv_of_nonneg (Int.natCast_nonneg _), ← h, ← BitVec.ofInt_natCast]
  push_cast
  rfl

theorem wrap_div : wrap signed ((integer signed x).tdiv (integer signed y)) =
    ofBits signed (if signed then x.sdiv y else x.udiv y) := by
  cases signed with
  | true => simp [wrap, integer, sdiv_eq_ofInt]
  | false =>
      rw [wrap, integer, integer, if_neg Bool.false_ne_true, if_neg Bool.false_ne_true,
        if_neg Bool.false_ne_true, udiv_eq_ofInt]

end Value

/-! ## Runs that go on after a fault -/

/-- A run that gave `v` did what evaluation does: without fault `v` is what evaluation yields, and
    a fault means that evaluation stops at a division by zero. -/
def Agrees : Except Abort Value → Value → Bool → Prop
  | .ok u, v, fault => v = u ∧ fault = false
  | .error .divisionByZero, _, fault => fault = true
  | .error .stuck, _, _ => False

theorem agrees_ok (v : Value) : Agrees (.ok v) v false := ⟨rfl, rfl⟩

/-- What comes after a fault does not matter. -/
theorem Agrees.bind {r : Except Abort Value} {g : Value → Except Abort Value} {v v' : Value}
    {fault fault' : Bool} (h : Agrees r v fault) (h' : Agrees (g v) v' fault') :
    Agrees (r >>= g) v' (fault || fault') := by
  match r, h with
  | .ok u, ⟨hv, hf⟩ =>
      subst hv hf
      rwa [Bool.false_or]
  | .error .divisionByZero, hf =>
      show (fault || fault') = true
      rw [show fault = true from hf, Bool.true_or]

theorem Agrees.eq_ok {r : Except Abort Value} {v : Value} (h : Agrees r v false) : r = .ok v := by
  match r, h with
  | .ok _, ⟨rfl, _⟩ => rfl

theorem Agrees.eq_divisionByZero {r : Except Abort Value} {v : Value} (h : Agrees r v true) :
    r = .error .divisionByZero := by
  match r, h with
  | .error .divisionByZero, _ => rfl

end ScalarLang
