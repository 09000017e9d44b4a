import Mathlib
import ScalarLang.Proofs.Ir.WellBuilt

/-
  The types of operations.
  Each operation takes operands of the machine type of its scalar type and gives a value of the
  machine type of its result, as long as operands that calls have given are of the types that they
  should be of. `Gives` says so of a building step, along with the invariant of the code it is part
  of.
-/

namespace ScalarLang

namespace Ir

variable {p : Program} {signature : Signature} {doms : Nat → Set Nat} {b : Nat} {B : Builder}
  {ty : MachineType}

/-- From `B` on, the step puts code at the end of block `b` that gives a value of the type. -/
structure Gives (p : Program) (signature : Signature) (doms : Nat → Set Nat) (b : Nat)
    (x : Build ValueId) (B : Builder) (ty : MachineType) : Prop where
  state : At p signature doms b (x B).2
  has : Has p (x B).2 doms b (x B).1 ty
  grown : B.Extends (x B).2

theorem Gives.bind {α : Type} {x : Build α} {f : α → Build ValueId} (hx : B.Extends (x B).2)
    (hf : Gives p signature doms b (f (x B).1) (x B).2 ty) :
    Gives p signature doms b (x >>= f) B ty :=
  ⟨hf.state, hf.has, hx.trans hf.grown⟩

/-! ## Single instructions -/

theorem typeOf_eq {v : ValueId} (h : Has p B doms b v ty) (hp : p.Consistent) :
    B.typeOf v = ty := by
  simp [Builder.typeOf, h.type hp]

theorem Gives.value (h : At p signature doms b B) {inst : Inst} {ty' : MachineType}
    (hi : inst.isInner = true) (hcall : ∀ callee args, inst ≠ .call callee args)
    (hty : p.Consistent → ty' = ty)
    (ht : p.Consistent → (B.code signature).resultTypes? inst = some [ty])
    (ho : ∀ v ∈ inst.operands, ∃ ty, Has p B doms b v ty) :
    Gives p signature doms b (Build.value inst ty') B ty :=
  ⟨h.computed hi hcall (fun hp => hty hp ▸ ht hp) ho,
    h.has_new inst (List.cons_ne_nil _ _) fun hp => by rw [hty hp],
    .emitted_at B h.cursor h.bound inst [ty']⟩

theorem Gives.const (h : At p signature doms b B) {c : Constant}
    (hty : p.Consistent → c.type = ty) (hc : p.Consistent → c.fits = true) :
    Gives p signature doms b (Build.const c) B ty := by
  refine .value h rfl (by simp) hty (fun hp => ?_) (by simp [Inst.operands])
  simp [Function.resultTypes?, Function.typesOf?, Inst.operands, hc hp, hty hp]

section Operands

variable {x y z : ValueId} {narrow : MachineType} (h : At p signature doms b B)
  (hx : Has p B doms b x ty)
include h hx

theorem Gives.binary (hy : Has p B doms b y ty) (op : BinaryOpcode)
    (hop : ty.isInt = !op.isFloat) : Gives p signature doms b (Build.binary op x y) B ty := by
  refine .bind (.refl B) (.value h rfl (by simp) (typeOf_eq hx) (fun hp => ?_)
    (by simpa [Inst.operands] using ⟨⟨ty, hx⟩, ⟨ty, hy⟩⟩))
  simp [Function.resultTypes?, Function.typesOf?, Inst.operands, Builder.code, hx.type hp,
    hy.type hp, hop]

theorem Gives.unary (op : UnaryOpcode) (hop : ty.isInt = (op == .ineg)) :
    Gives p signature doms b (Build.unary op x) B ty := by
  refine .bind (.refl B) (.value h rfl (by simp) (typeOf_eq hx) (fun hp => ?_)
    (by simpa [Inst.operands] using ⟨ty, hx⟩))
  cases op <;> simp [Function.resultTypes?, Function.typesOf?, Inst.operands, Builder.code,
    hx.type hp, hop]

theorem Gives.extend (signed : Bool) (wide : MachineType) (hw : wide.isInt = true)
    (hty : p.Consistent → ty.isInt = true ∧ ty.bytes < wide.bytes) :
    Gives p signature doms b (Build.extend signed wide x) B wide := by
  refine .value h rfl (by simp) (fun _ => rfl) (fun hp => ?_)
    (by simpa [Inst.operands] using ⟨ty, hx⟩)
  simp [Function.resultTypes?, Function.typesOf?, Inst.operands, Builder.code, hx.type hp, hty hp,
    hw]

theorem Gives.icmp (hy : Has p B doms b y ty) (hty : ty.isInt = true) (cc : IntCC) :
    Gives p signature doms b (Build.icmp cc x y) B .i8 := by
  refine .value h rfl (by simp) (fun _ => rfl) (fun hp => ?_)
    (by simpa [Inst.operands] using ⟨⟨ty, hx⟩, ⟨ty, hy⟩⟩)
  simp [Function.resultTypes?, Function.typesOf?, Inst.operands, Builder.code, hx.type hp,
    hy.type hp, hty]

theorem Gives.icmpImm (hty : ty.isInt = true) (cc : IntCC) (imm : Int) :
    Gives p signature doms b (Build.icmpImm cc x imm) B .i8 := by
  refine .value h rfl (by simp) (fun _ => rfl) (fun hp => ?_)
    (by simpa [Inst.operands] using ⟨ty, hx⟩)
  simp [Function.resultTypes?, Function.typesOf?, Inst.operands, Builder.code, hx.type hp, hty]

theorem Gives.fcmp (hy : Has p B doms b y ty) (hty : ty.isInt = false) (cc : FloatCC) :
    Gives p signature doms b (Build.fcmp cc x y) B .i8 := by
  refine .value h rfl (by simp) (fun _ => rfl) (fun hp => ?_)
    (by simpa [Inst.operands] using ⟨⟨ty, hx⟩, ⟨ty, hy⟩⟩)
  simp [Function.resultTypes?, Function.typesOf?, Inst.operands, Builder.code, hx.type hp,
    hy.type hp, hty]

theorem Gives.select (hy : Has p B doms b y ty) (hz : Has p B doms b z narrow)
    (hc : narrow.isInt = true) : Gives p signature doms b (Build.select z x y) B ty := by
  refine .bind (.refl B) (.value h rfl (by simp) (typeOf_eq hx) (fun hp => ?_)
    (by simpa [Inst.operands] using ⟨⟨narrow, hz⟩, ⟨ty, hx⟩, ⟨ty, hy⟩⟩))
  simp [Function.resultTypes?, Function.typesOf?, Inst.operands, Builder.code, hx.type hp,
    hy.type hp, hz.type hp, hc]

end Operands

/-! ## Slots -/

theorem At.store (h : At p signature doms b B) {v : ValueId} (hv : Has p B doms b v ty)
    {slot : SlotId} (hslot : slot < B.function.slots.length) :
    At p signature doms b (B.emitted (.store v slot) []) :=
  h.accessed rfl (by simp)
    (by simp [Function.resultTypes?, Function.typesOf?, Inst.operands, Builder.code, hv.lt, hslot])
    (by simpa [Inst.operands] using ⟨ty, hv⟩)

theorem At.load (h : At p signature doms b B) (ty : MachineType) {slot : SlotId}
    (hslot : slot < B.function.slots.length) :
    At p signature doms b (B.emitted (.load ty slot) [ty]) :=
  h.accessed rfl (by simp)
    (by simp [Function.resultTypes?, Function.typesOf?, Inst.operands, Builder.code, hslot])
    (by simp [Inst.operands])

/-! ## Calls -/

/-- A call of what has an external index, with as many arguments as its signature has parameters
    and, if it is built in, of their types. -/
theorem At.importedCall (h : At p signature doms b B) {index : Nat} {sig : Signature}
    (hs : p.signatureAt? index = some sig) (args : List ValueId)
    (hlen : args.length = sig.params.length)
    (hbuiltin : p.Consistent → index < firstRoutineIndex →
      (B.code signature).typesOf? args = some sig.params)
    (ho : ∀ v ∈ args, ∃ ty, Has p B doms b v ty) :
    At p signature doms b
      ((B.imported index sig).2.emitted (.call (B.imported index sig).1 args) sig.results) := by
  have hx := Builder.Extends.imported B index sig
  exact (h.imported hs).call (h.built.imports.imported_fst hs) hlen
    (fun hp hlt => hx.grows.typesOf? (hbuiltin hp hlt))
    (fun v hv => (ho v hv).imp fun _ hty => hty.mono hx subset_rfl)

theorem Has.typesOf?_singleton {x : ValueId} (hx : Has p B doms b x ty) (hp : p.Consistent) :
    (B.code signature).typesOf? [x] = some [ty] := by
  simp [Function.typesOf?, Builder.code, hx.type hp]

theorem At.checkDivisor (h : At p signature doms b B) {x : ValueId}
    (hx : Has p B doms b x .i64) :
    At p signature doms b (Build.callIntrinsic .checkDivisor [x] B).2 ∧
      B.Extends (Build.callIntrinsic .checkDivisor [x] B).2 := by
  have hs := p.signatureAt?_intrinsic .checkDivisor
  have hat := h.importedCall hs [x] rfl (fun hp _ => hx.typesOf?_singleton hp)
    (by simpa using ⟨_, hx⟩)
  refine ⟨?_, ((Build.Straight.callIntrinsic _ _).inline B b h.cursor h.bound).grown.toExtends⟩
  rw [Build.callIntrinsic, Build.bind_apply, Build.importFunction_apply,
    Build.call_apply _ _ _ (h.built.imports.imported_fst hs)]
  exact hat

/-- Rounding calls the built-in routine, even if that was imported before. -/
theorem Build.roundHalf_apply (h : B.ImportsFrom p) (x : ValueId) :
    let (callee, B') := B.imported Intrinsic.roundHalf.index Intrinsic.roundHalf.signature
    B'.function.imports[callee]? =
        some ⟨Intrinsic.roundHalf.index, Intrinsic.roundHalf.signature⟩ ∧
      Build.roundHalf x B = (B'.function.values.length, B'.emitted (.call callee [x]) [.f32]) := by
  have hi := h.imported_fst (p.signatureAt?_intrinsic .roundHalf)
  refine ⟨hi, ?_⟩
  rw [Build.roundHalf, Build.bind_apply, Build.callIntrinsic, Build.bind_apply,
    Build.importFunction_apply, Build.call_apply _ _ _ hi]
  rfl

theorem Gives.roundHalf (h : At p signature doms b B) {x : ValueId} (hx : Has p B doms b x .f32) :
    Gives p signature doms b (Build.roundHalf x) B .f32 := by
  have hs := p.signatureAt?_intrinsic .roundHalf
  have hat := h.importedCall hs [x] rfl (fun hp _ => hx.typesOf?_singleton hp)
    (by simpa using ⟨_, hx⟩)
  obtain ⟨-, he⟩ := Build.roundHalf_apply h.built.imports x
  have hx := ((Build.Straight.roundHalf x).inline B b h.cursor h.bound).grown.toExtends
  rw [he] at hx
  refine ⟨?_, ?_, ?_⟩
  · rw [he]
    exact hat
  · rw [he]
    exact (h.imported hs).has_new _ (List.cons_ne_nil _ _) fun _ => rfl
  · rw [he]
    exact hx

/-! ## Division -/

theorem fits_one (hty : ty.isInt = true) : (Constant.int ty 1).fits = true := by
  cases ty <;> first | decide | cases hty

theorem fits_least (hty : ty.isInt = true) :
    (Constant.int ty (1#64 <<< (ty.bits - 1))).fits = true := by
  cases ty <;> first | decide | cases hty

theorem fits_minusOne (hty : ty.isInt = true) :
    (Constant.int ty
      (if 64 ≤ ty.bits then .allOnes 64 else (1#64 <<< ty.bits) - 1)).fits = true := by
  cases ty <;> first | decide | cases hty

theorem Gives.widenDivisor (h : At p signature doms b B) {x : ValueId} (hx : Has p B doms b x ty)
    (hty : ty.isInt = true) (signed : Bool) :
    Gives p signature doms b (Build.widenDivisor signed (B.typeOf x) x) B .i64 := by
  unfold Build.widenDivisor
  split
  · rename_i he
    have hwide (hp : p.Consistent) : B.function.values[x]? = some .i64 := by
      rw [hx.type hp, ← typeOf_eq hx hp, he]
    exact ⟨h, ⟨hx.lt, hwide, hx.reach⟩, .refl B⟩
  · rename_i he
    refine .extend h hx signed _ rfl fun hp => ⟨hty, ?_⟩
    rw [typeOf_eq hx hp] at he
    cases ty <;> simp_all [MachineType.isInt, MachineType.bytes]

theorem Gives.checkedDiv (h : At p signature doms b B) {x y : ValueId} (hx : Has p B doms b x ty)
    (hy : Has p B doms b y ty) (hty : ty.isInt = true) (signed : Bool) :
    Gives p signature doms b (Build.checkedDiv signed x y) B ty := by
  have he := typeOf_eq hy
  have g₁ := Gives.widenDivisor h hy hty signed
  obtain ⟨s₂, x₂⟩ := g₁.state.checkDivisor g₁.has
  have e₂ := g₁.grown.trans x₂
  have g₃ := Gives.icmpImm s₂ (hy.mono e₂ subset_rfl) hty .eq 0
  have e₃ := e₂.trans g₃.grown
  have g₄ := Gives.const g₃.state (c := .int (B.typeOf y) 1) he
    fun hp => fits_one (he hp ▸ hty)
  have e₄ := e₃.trans g₄.grown
  have g₅ := Gives.select g₄.state g₄.has (hy.mono e₄ subset_rfl) (g₃.has.mono g₄.grown subset_rfl)
    rfl
  have e₅ := e₄.trans g₅.grown
  unfold Build.checkedDiv
  refine .bind (.refl B) (.bind g₁.grown (.bind x₂ (.bind g₃.grown (.bind g₄.grown
    (.bind g₅.grown ?_)))))
  cases signed with
  | false =>
      have g₆ := Gives.binary g₅.state (hx.mono e₅ subset_rfl) g₅.has .udiv hty
      exact g₆
  | true =>
      have g₆ := Gives.const g₅.state (c := .int (B.typeOf y) (1#64 <<< ((B.typeOf y).bits - 1))) he
        fun hp => fits_least (he hp ▸ hty)
      have g₇ := Gives.const g₆.state (c := .int (B.typeOf y) (if 64 ≤ (B.typeOf y).bits
        then .allOnes 64 else (1#64 <<< (B.typeOf y).bits) - 1)) he
        fun hp => fits_minusOne (he hp ▸ hty)
      have e₇ := g₆.grown.trans g₇.grown
      have g₈ := Gives.icmp g₇.state (hx.mono (e₅.trans e₇) subset_rfl)
        (g₆.has.mono g₇.grown subset_rfl) hty .eq
      have g₉ := Gives.icmp g₈.state (hy.mono (e₅.trans (e₇.trans g₈.grown)) subset_rfl)
        (g₇.has.mono g₈.grown subset_rfl) hty .eq
      have g₁₀ := Gives.binary g₉.state (g₈.has.mono g₉.grown subset_rfl) g₉.has .band rfl
      have e₁₀ := ((e₇.trans g₈.grown).trans g₉.grown).trans g₁₀.grown
      have g₁₁ := Gives.select g₁₀.state (g₄.has.mono (g₅.grown.trans e₁₀) subset_rfl)
        (g₅.has.mono e₁₀ subset_rfl) g₁₀.has rfl
      have e₁₁ := e₅.trans (e₁₀.trans g₁₁.grown)
      have g₁₂ := Gives.binary g₁₁.state (hx.mono e₁₁ subset_rfl) g₁₁.has .sdiv hty
      exact .bind g₆.grown (.bind g₇.grown (.bind g₈.grown (.bind g₉.grown (.bind g₁₀.grown
        (.bind g₁₁.grown g₁₂)))))

end Ir

/-! ## Operators -/

open Ir (At Has Gives)

/-- The kind of machine type that an operation is for. -/
def BinaryImpl.Fits (impl : BinaryImpl) (ty : ScalarType) : Prop :=
  match impl with
  | .int _ | .intDiv _ | .intShr _ | .intCompare _ => ty.machineType.isInt = true
  | .float _ | .floatCompare _ => ty.machineType.isInt = false
  | .widenBoolean _ => ty = .boolean

def UnaryImpl.Fits (impl : UnaryImpl) (ty : ScalarType) : Prop :=
  match impl with
  | .intNegate | .intTruthy => ty.machineType.isInt = true
  | .floatNegate | .floatTruthy => ty.machineType.isInt = false
  | .identity => ty = .boolean

theorem isInt_machineType (w : IntWidth) : w.machineType.isInt = true := by cases w <;> rfl

theorem BinaryImpl.fits {ty : ScalarType} {op : BinaryOp} {impl : BinaryImpl}
    (h : ty.binaryImpl? op = some impl) : impl.Fits ty := by
  have hint (signed : Bool) (hty : ty.machineType.isInt = true) :
      (BinaryImpl.ofInteger signed op).Fits ty := by
    cases op <;> exact hty
  have hfloat (hty : ty.machineType.isInt = false) (hf : BinaryImpl.ofFloat? op = some impl) :
      impl.Fits ty := by
    cases op <;> simp [BinaryImpl.ofFloat?] at hf <;> (subst hf; exact hty)
  cases ty with
  | boolean => cases op <;> simp [ScalarType.binaryImpl?, BinaryImpl.ofBoolean?] at h <;>
      (subst h; rfl)
  | signed w => exact Option.some.inj h ▸ hint true (isInt_machineType w)
  | unsigned w => exact Option.some.inj h ▸ hint false (isInt_machineType w)
  | pointer w => exact Option.some.inj h ▸ hint false (isInt_machineType _)
  | float16 => exact hfloat rfl h
  | float32 => exact hfloat rfl h
  | float64 => exact hfloat rfl h

theorem UnaryImpl.fits {ty : ScalarType} {op : UnaryOperator} {impl : UnaryImpl}
    (h : ty.unaryImpl? op = some impl) : impl.Fits ty := by
  cases op <;> cases ty <;> simp [ScalarType.unaryImpl?] at h <;> subst h <;>
    first | rfl | exact isInt_machineType _

theorem IntOp.isFloat_opcode (op : IntOp) : op.opcode.isFloat = false := by cases op <;> rfl

theorem FloatOp.isFloat_opcode (op : FloatOp) : op.opcode.isFloat = true := by cases op <;> rfl

/-- The zero that floats of a type are compared with. -/
theorem zero_type {ty : MachineType} (hty : ty.isInt = false) :
    (if ty = .f64 then Ir.Constant.f64 (.zero false) else .f32 (.zero false)).type = ty := by
  cases ty <;> simp_all [MachineType.isInt, Ir.Constant.type]

variable {p : Program} {signature : Signature} {doms : Nat → Set Nat} {b : Nat} {B : Ir.Builder}
  {ty : ScalarType} {x y : Ir.ValueId}

/-- An operation on values of the type it is for gives a value of its result type. -/
theorem BinaryImpl.gives_code {impl : BinaryImpl} (h : At p signature doms b B)
    (hfit : impl.Fits ty) (hx : Has p B doms b x ty.machineType)
    (hy : Has p B doms b y ty.machineType) :
    Gives p signature doms b (impl.code ty x y) B (impl.resultType ty).machineType := by
  cases impl with
  | int op => exact .binary h hx hy op.opcode (by rw [op.isFloat_opcode]; exact hfit)
  | intDiv signed => exact .checkedDiv h hx hy hfit signed
  | intShr signed => exact .binary h hx hy _ (by cases signed <;> exact hfit)
  | intCompare cc => exact .icmp h hx hy hfit cc
  | floatCompare cc => exact .fcmp h hx hy hfit cc
  | widenBoolean op =>
      obtain rfl : ty = .boolean := hfit
      have hlt : MachineType.i8.isInt = true ∧ MachineType.i8.bytes < MachineType.i64.bytes := by
        decide
      have g₁ := Gives.extend h hx false .i64 rfl fun _ => hlt
      have g₂ := Gives.extend g₁.state (hy.mono g₁.grown subset_rfl) false .i64 rfl fun _ => hlt
      exact .bind g₁.grown (.bind g₂.grown (.binary g₂.state (g₁.has.mono g₂.grown subset_rfl)
        g₂.has op.opcode (by rw [op.isFloat_opcode]; rfl)))
  | float op =>
      have g := Gives.binary h hx hy op.opcode (by rw [op.isFloat_opcode]; exact hfit)
      refine .bind g.grown ?_
      split
      · rename_i hty
        subst hty
        exact .roundHalf g.state g.has
      · exact ⟨g.state, g.has, .refl _⟩

theorem UnaryImpl.gives_code {impl : UnaryImpl} (h : At p signature doms b B)
    (hfit : impl.Fits ty) (hx : Has p B doms b x ty.machineType) :
    Gives p signature doms b (impl.code x) B (impl.resultType ty).machineType := by
  cases impl with
  | intNegate => exact .unary h hx .ineg hfit
  | floatNegate => exact .unary h hx .fneg hfit
  | identity => exact ⟨h, hx, .refl B⟩
  | intTruthy => exact .icmpImm h hx hfit .ne 0
  | floatTruthy =>
      have g := Gives.const h (c := if B.typeOf x = .f64 then .f64 (.zero false)
        else .f32 (.zero false)) (fun hp => by rw [Ir.typeOf_eq hx hp, zero_type hfit])
        fun _ => by split <;> rfl
      exact .bind (.refl B)
        (.bind g.grown (.fcmp g.state (hx.mono g.grown subset_rfl) g.has hfit .one))

end ScalarLang
