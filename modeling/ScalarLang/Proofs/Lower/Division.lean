import Mathlib
import ScalarLang.Proofs.Lower.Operation

/-
  Integer division at every width.
  The machine has no quotient for a zero divisor, nor for the least signed integer over minus one,
  so a run that comes to its end has met neither. The code of a division always comes to its end:
  it reports the divisor and divides by 1 in these cases. What it leaves is the exact quotient,
  truncated toward zero and taken modulo the width, or the dividend if the divisor was zero.
-/

namespace ScalarLang

/-- Whether the integers of a type have signs, and how wide they are; pointers have none. -/
def ScalarType.integer? : ScalarType → Option (Bool × IntWidth)
  | .signed width => some (true, width)
  | .unsigned width => some (false, width)
  | .pointer width => some (false, width.toIntWidth)
  | _ => none

/-- All types of integers divide by the same code. -/
theorem ScalarType.binaryImpl?_div {ty : ScalarType} {signed : Bool} {width : IntWidth}
    (h : ty.integer? = some (signed, width)) :
    ty.machineType = width.machineType ∧ ty.binaryImpl? .div = some (.intDiv signed) := by
  cases ty <;> cases h <;> exact ⟨rfl, rfl⟩

/-- An operation on integers has a result only for two words of one width. -/
theorem Word.mapInts_eq_some {f : {n : Nat} → BitVec n → BitVec n → Option (BitVec n)}
    {u v w : Word} (h : mapInts f u v = some w) :
    ∃ width x y, u = int width x ∧ v = int width y ∧ (f x y).isSome = true := by
  have found (width : IntWidth) (x y : BitVec width.bits)
      (hw : (f x y).map (int width) = some w) : (f x y).isSome = true := by
    rw [← Option.isSome_map, hw]
    rfl
  cases u <;> cases v <;> try cases h
  case i8.i8 x y => exact ⟨.w8, x, y, rfl, rfl, found .w8 x y h⟩
  case i16.i16 x y => exact ⟨.w16, x, y, rfl, rfl, found .w16 x y h⟩
  case i32.i32 x y => exact ⟨.w32, x, y, rfl, rfl, found .w32 x y h⟩
  case i64.i64 x y => exact ⟨.w64, x, y, rfl, rfl, found .w64 x y h⟩

theorem Word.ne_zero_of_divUnsigned? {n : Nat} {x y : BitVec n}
    (h : (divUnsigned? x y).isSome = true) : y ≠ 0#n := by
  rintro rfl
  simp [divUnsigned?] at h

theorem Word.fits_of_divSigned? {n : Nat} {x y : BitVec n} (h : (divSigned? x y).isSome = true) :
    y ≠ 0#n ∧ ¬ (x = BitVec.intMin n ∧ y = -1#n) := by
  refine ⟨?_, ?_⟩
  · rintro rfl
    rw [divSigned?, if_pos (.inl rfl)] at h
    cases h
  · rintro ⟨rfl, rfl⟩
    rw [BitVec.neg_one_eq_allOnes, divSigned?, if_pos (.inr ⟨rfl, rfl⟩)] at h
    cases h

namespace Ir

variable {link : Linkage} {f : Function} {fr fr' : Frame}

/-! ## Divisions that are reached -/

/-- If the statement divides then by no zero, and if signs count then not the least integer by
    minus one. -/
def Stmt.DividesWell (s : Stmt) (fr : Frame) : Prop :=
  ∀ op a c, s.inst = .binary op a c → op = .udiv ∨ op = .sdiv →
    ∃ width x y, fr.values a = some (.int width x) ∧ fr.values c = some (.int width y) ∧
      y ≠ 0#(width.bits) ∧
      ¬ (op = .sdiv ∧ x = BitVec.intMin width.bits ∧ y = -1#(width.bits))

theorem dividesWell_of_step {s : Stmt} {flow : Flow} (h : f.step link fr s = some flow) :
    s.DividesWell fr := by
  intro op a c hinst hop
  simp only [Function.step, hinst, Inst.compute?, Option.bind_eq_bind,
    Option.bind_eq_some_iff] at h
  obtain ⟨_, ⟨u, hu, v, hv, hw⟩, -⟩ := h
  rcases hop with rfl | rfl
  · obtain ⟨width, x, y, rfl, rfl, hsome⟩ := Word.mapInts_eq_some hw
    have hne := Word.ne_zero_of_divUnsigned? hsome
    refine ⟨width, x, y, hu, hv, hne, ?_⟩
    rintro ⟨hop, -⟩
    cases hop
  · obtain ⟨width, x, y, rfl, rfl, hsome⟩ := Word.mapInts_eq_some hw
    obtain ⟨hne, hfits⟩ := Word.fits_of_divSigned? hsome
    exact ⟨width, x, y, hu, hv, hne, fun h => hfits h.2⟩

/-- A run that comes to its end reaches every statement, and each one that divides does it well. -/
theorem dividesWell_of_runCode {code : Block} (h : f.runCode link code fr = some fr') :
    ∀ before s after, code = before ++ s :: after →
      ∃ fr₁, f.runCode link before fr = some fr₁ ∧ s.DividesWell fr₁ := by
  intro before s after hcode
  subst hcode
  induction before generalizing fr with
  | nil =>
      refine ⟨fr, rfl, ?_⟩
      rw [List.nil_append, Function.runCode] at h
      cases hs : f.step link fr s with
      | none =>
          rw [hs] at h
          cases h
      | some flow => exact dividesWell_of_step hs
  | cons first before ih =>
      rw [List.cons_append, Function.runCode] at h
      rw [Function.runCode]
      rcases hs : f.step link fr first with _ | flow
      · rw [hs] at h
        cases h
      · rw [hs] at h
        cases flow with
        | next fr₁ => exact ih h
        | goto | done => cases h

end Ir

/-! ## Quotients -/

theorem IntWidth.ofInt_tdiv (width : IntWidth) (signed : Bool) (x y : BitVec width.bits) :
    BitVec.ofInt width.bits ((width.read signed x).tdiv (width.read signed y)) =
      if signed then x.sdiv y else x.udiv y := by
  cases signed with
  | true => exact (Value.sdiv_eq_ofInt x y).symm
  | false => exact (Value.udiv_eq_ofInt x y).symm

open Ir

/-- In every function that it becomes part of, the code of a division of two integers comes to its
    end and meets no division that the machine leaves undefined. It gives the quotient, truncated
    toward zero and wrapped, or the dividend where the divisor is zero, and there is a fault
    afterwards exactly if there was one or the divisor is zero. -/
theorem division_never_traps {ty : ScalarType} {signed : Bool} {width : IntWidth}
    (hty : ty.integer? = some (signed, width)) {p : Program} {link : Linkage}
    (hlink : ∀ r : Intrinsic, link r.index = r.run) {b : Nat} {B : Builder} (hB : Ready p b B)
    {fr : Frame} {lhs rhs : ValueId} {x y : BitVec width.bits}
    (hx : Holds B fr lhs (.int width x)) (hy : Holds B fr rhs (.int width y)) :
    ty.machineType = width.machineType ∧ ty.binaryImpl? .div = some (.intDiv signed) ∧
      ∃ code fr', (Build.checkedDiv signed lhs rhs B).2.function.block b =
          B.function.block b ++ code ∧
        (∀ f : Function, (Build.checkedDiv signed lhs rhs B).2.function.imports <+: f.imports →
          f.runCode link code fr = some fr' ∧
            ∀ before s after, code = before ++ s :: after →
              ∃ fr₁, f.runCode link before fr = some fr₁ ∧ s.DividesWell fr₁) ∧
        fr'.values (Build.checkedDiv signed lhs rhs B).1 = some (.int width
          (if y = 0#(width.bits) then x
            else BitVec.ofInt width.bits ((width.read signed x).tdiv (width.read signed y)))) ∧
        (fr'.faulted = true ↔ fr.faulted = true ∨ y = 0#(width.bits)) := by
  obtain ⟨hmachine, himpl⟩ := ScalarType.binaryImpl?_div hty
  obtain ⟨fr', hexec, -, hresult, hfault⟩ := Runs.checkedDiv hlink width hB hx hy signed
  obtain ⟨code, hblock, hrun⟩ := hexec.code
  refine ⟨hmachine, himpl, code, fr', hblock, fun f hf => ?_, ?_, ?_⟩
  · have hrun' := Function.runCode_mono hf hrun
    exact ⟨hrun', dividesWell_of_runCode hrun'⟩
  · rw [IntWidth.ofInt_tdiv]
    exact hresult.value
  · simp [hfault]

/-- A function under construction with two bytes as values. -/
def bytesBuilder : Builder where
  function := { Function.empty "bytes" ⟨[], []⟩ with values := [.i8, .i8], blocks := [[]] }
  cursor := .atEnd 0

def bytesFrame (x y : BitVec 8) : Frame :=
  { Frame.start with values := fun v => [Word.i8 x, Word.i8 y][v]? }

theorem bytesFrame_holds (x y : BitVec 8) :
    Holds bytesBuilder (bytesFrame x y) 0 (.int .w8 x) ∧
      Holds bytesBuilder (bytesFrame x y) 1 (.int .w8 y) :=
  ⟨⟨rfl, rfl⟩, ⟨rfl, rfl⟩⟩

theorem bytesBuilder_ready : Ready .empty 0 bytesBuilder where
  cursor := rfl
  bound := by decide
  imports := fun i hi => nomatch hi

/-- The least byte over minus one is the least byte, without a fault; a byte over zero is the byte,
    with one. -/
theorem bytes_divide :
    (∃ code fr', (Build.checkedDiv true 0 1 bytesBuilder).2.function.block 0 = code ∧
      (Build.checkedDiv true 0 1 bytesBuilder).2.function.runCode (linkage [] 0) code
        (bytesFrame 128#8 255#8) = some fr' ∧
      fr'.values (Build.checkedDiv true 0 1 bytesBuilder).1 = some (.i8 128#8) ∧
      fr'.faulted = false) ∧
    ∃ code fr', (Build.checkedDiv false 0 1 bytesBuilder).2.function.block 0 = code ∧
      (Build.checkedDiv false 0 1 bytesBuilder).2.function.runCode (linkage [] 0) code
        (bytesFrame 7#8 0#8) = some fr' ∧
      fr'.values (Build.checkedDiv false 0 1 bytesBuilder).1 = some (.i8 7#8) ∧
      fr'.faulted = true := by
  have hlink : ∀ r : Intrinsic, linkage [] 0 r.index = r.run := by
    intro r
    cases r <;> rfl
  refine ⟨?_, ?_⟩
  · obtain ⟨hlhs, hrhs⟩ := bytesFrame_holds 128#8 255#8
    have hty : (ScalarType.signed .w8).integer? = some (true, .w8) := rfl
    obtain ⟨-, -, code, fr', hblock, hrun, hvalue, hfault⟩ :=
      division_never_traps hty hlink bytesBuilder_ready hlhs hrhs
    have hclear : ¬ ((bytesFrame 128#8 255#8).faulted = true ∨ 255#8 = 0#8) := by
      simp [bytesFrame, Frame.start]
    refine ⟨code, fr', hblock, (hrun _ List.prefix_rfl).1, hvalue.trans (by decide), ?_⟩
    exact Bool.eq_false_of_not_eq_true (mt hfault.mp hclear)
  · obtain ⟨hlhs, hrhs⟩ := bytesFrame_holds 7#8 0#8
    have hty : (ScalarType.unsigned .w8).integer? = some (false, .w8) := rfl
    obtain ⟨-, -, code, fr', hblock, hrun, hvalue, hfault⟩ :=
      division_never_traps hty hlink bytesBuilder_ready hlhs hrhs
    exact ⟨code, fr', hblock, (hrun _ List.prefix_rfl).1, hvalue, hfault.mpr (.inr rfl)⟩

end ScalarLang
