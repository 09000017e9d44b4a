import Mathlib
import ScalarLang.Proofs.Ir.Growth
import ScalarLang.Proofs.Lower.Builds

/-
  What lowering does to the blocks of a function.
  An operation goes into the block at hand. An expression starts in one block and ends in another,
  open one: all blocks that it made are ended but for that one, and of the blocks that were there
  it touched only the one it started in.
-/

namespace ScalarLang

namespace Ir

/-- Nothing in the block ends it. -/
def Unfinished (block : Block) : Prop := ∀ s ∈ block, s.inst.isTerminator = false

/-- Something in the block ends it. -/
def Ended (block : Block) : Prop := ∃ s ∈ block, s.inst.isTerminator = true

theorem unfinished_nil : Unfinished [] := by simp [Unfinished]

theorem Unfinished.append {X Y : Block} (hX : Unfinished X) (hY : Unfinished Y) :
    Unfinished (X ++ Y) := by
  intro s hs
  exact (List.mem_append.mp hs).elim (hX s) (hY s)

/-- The step made some code at the end of the block and no other change. -/
structure Inline (B : Builder) (b : Nat) (B' : Builder) : Prop where
  grown : B.Grown (· = b) B'
  cursor : B'.cursor = .atEnd b
  length : B'.function.blocks.length = B.function.blocks.length
  unfinished : Unfinished (B.function.block b) → Unfinished (B'.function.block b)

/-- The code between `B` and `B'` starts in block `b` and ends in block `b'`. -/
structure Region (B : Builder) (b : Nat) (B' : Builder) (b' : Nat) : Prop where
  grown : B.Grown (· = b) B'
  cursor : B'.cursor = .atEnd b'
  exit : b' = b ∨ B.function.blocks.length ≤ b'
  bound : b' < B'.function.blocks.length
  unfinished : Unfinished (B.function.block b) → Unfinished (B'.function.block b')
  ended : ∀ c, c ≠ b' → c = b ∨ B.function.blocks.length ≤ c → c < B'.function.blocks.length →
    Ended (B'.function.block c)

variable {B B' B'' : Builder} {b b' b'' : Nat}

theorem Ended.mono (h : B.Extends B') {c : Nat} (hc : Ended (B.function.block c)) :
    Ended (B'.function.block c) := by
  obtain ⟨s, hs, ht⟩ := hc
  exact ⟨s, h.mem c s hs, ht⟩

/-! ## Straight code -/

theorem Inline.refl (hc : B.cursor = .atEnd b) : Inline B b B :=
  ⟨.refl _ _, hc, rfl, id⟩

theorem Inline.trans (h : Inline B b B') (h' : Inline B' b B'') : Inline B b B'' where
  grown := h.grown.trans h'.grown (fun _ hc => Or.inl hc)
  cursor := h'.cursor
  length := h'.length.trans h.length
  unfinished := h'.unfinished ∘ h.unfinished

theorem Inline.emitted (hc : B.cursor = .atEnd b) (hb : b < B.function.blocks.length) (inst : Inst)
    (hi : inst.isTerminator = false) (types : List MachineType) :
    Inline B b (B.emitted inst types) where
  grown := (Builder.Grown.refl B (· = b)).emitted_at hc hb (Or.inl rfl) inst types
  cursor := hc
  length := by simp
  unfinished := by
    intro h
    rw [Builder.block_emitted_self B inst types hc hb]
    refine h.append ?_
    intro s hs
    rw [List.mem_singleton.mp hs]
    exact hi

/-- Instructions that neither end a block nor use a slot. -/
def Inst.isInner : Inst → Bool
  | .ret _ | .jump _ | .brif _ _ _ | .store _ _ | .load _ _ => false
  | _ => true

theorem Inst.isTerminator_of_isInner {inst : Inst} (h : inst.isInner = true) :
    inst.isTerminator = false := by
  cases inst <;> first | rfl | cases h

/-- Between the two builders only such instructions and imports were made. -/
inductive Silent : Builder → Builder → Prop where
  | refl (B : Builder) : Silent B B
  | emitted {B B' : Builder} {inst : Inst} {types : List MachineType} :
      Silent B B' → inst.isInner = true → Silent B (B'.emitted inst types)
  | imported {B B' : Builder} {index : Nat} {signature : Signature} :
      Silent B B' → Silent B (B'.imported index signature).2

theorem Silent.trans (h : Silent B B') (h' : Silent B' B'') : Silent B B'' := by
  induction h' with
  | refl => exact h
  | emitted _ hi ih => exact .emitted ih hi
  | imported _ ih => exact .imported ih

theorem Inline.withSlot (hc : B.cursor = .atEnd b) (size : Nat) : Inline B b (B.withSlot size) where
  grown := (Builder.Grown.refl B _).withSlot size
  cursor := hc
  length := rfl
  unfinished := id

theorem Inline.imported (hc : B.cursor = .atEnd b) (index : Nat) (signature : Signature) :
    Inline B b (B.imported index signature).2 := by
  obtain ⟨added, h, -⟩ := B.imported_snd index signature
  refine ⟨(Builder.Grown.refl B _).imported index signature, ?_, ?_, ?_⟩
  · rw [h]
    exact hc
  · rw [h]
  · rw [h]
    exact id

namespace Build

/-- The building goes into the block at hand, wherever that is, uses no slots, and imports built-in
    routines only. -/
structure Straight {α : Type} (x : Build α) : Prop where
  inline : ∀ (B : Builder) (b : Nat), B.cursor = .atEnd b → b < B.function.blocks.length →
    Inline B b (x B).2
  silent : ∀ B : Builder, Silent B (x B).2
  imports : ∀ (B : Builder), ∀ i ∈ (x B).2.function.imports,
    i ∈ B.function.imports ∨ ∃ r : Intrinsic, i = ⟨r.index, r.signature⟩

namespace Straight

variable {α β : Type}

theorem importsFrom {x : Build α} (hx : Straight x) {p : Program} (h : B.ImportsFrom p) :
    (x B).2.ImportsFrom p := by
  intro i hi
  rcases hx.imports B i hi with hi | ⟨r, rfl⟩
  · exact h i hi
  · exact p.signatureAt?_intrinsic r

theorem pure (a : α) : Straight (pure a : Build α) :=
  ⟨fun _ _ hc _ => .refl hc, .refl, fun _ _ => Or.inl⟩

theorem bind {x : Build α} {f : α → Build β} (hx : Straight x) (hf : ∀ a, Straight (f a)) :
    Straight (x >>= f) where
  inline := by
    intro B b hc hb
    have h := hx.inline B b hc hb
    exact h.trans ((hf _).inline _ b h.cursor (h.length ▸ hb))
  silent := fun B => (hx.silent B).trans ((hf _).silent _)
  imports := by
    intro B i hi
    rcases (hf _).imports _ i hi with hi | hi
    · exact hx.imports B i hi
    · exact Or.inr hi

theorem typeOf (v : ValueId) : Straight (Build.typeOf v) :=
  ⟨fun _ _ hc _ => .refl hc, .refl, fun _ _ => Or.inl⟩

theorem value {inst : Inst} (hi : inst.isInner = true) (ty : MachineType) :
    Straight (Build.value inst ty) :=
  ⟨fun _ _ hc hb => .emitted hc hb inst (Inst.isTerminator_of_isInner hi) [ty],
    fun B => .emitted (.refl B) hi, fun _ _ => Or.inl⟩

theorem const (c : Constant) : Straight (Build.const c) := value rfl _

theorem iconst (ty : MachineType) (imm : BitVec 64) : Straight (Build.iconst ty imm) := const _

theorem binary (op : BinaryOpcode) (a b : ValueId) : Straight (Build.binary op a b) :=
  (typeOf a).bind fun _ => value rfl _

theorem unary (op : UnaryOpcode) (a : ValueId) : Straight (Build.unary op a) :=
  (typeOf a).bind fun _ => value rfl _

theorem extend (signed : Bool) (ty : MachineType) (a : ValueId) :
    Straight (Build.extend signed ty a) := value rfl _

theorem icmp (cc : IntCC) (a b : ValueId) : Straight (Build.icmp cc a b) := value rfl _

theorem icmpImm (cc : IntCC) (a : ValueId) (imm : Int) : Straight (Build.icmpImm cc a imm) :=
  value rfl _

theorem fcmp (cc : FloatCC) (a b : ValueId) : Straight (Build.fcmp cc a b) := value rfl _

theorem select (c a b : ValueId) : Straight (Build.select c a b) :=
  (typeOf a).bind fun _ => value rfl _

theorem callIntrinsic (routine : Intrinsic) (args : List ValueId) :
    Straight (Build.callIntrinsic routine args) where
  inline := by
    intro B b hc hb
    obtain ⟨i, hi, -, -⟩ := B.imported_fst routine.index routine.signature
    have h := Inline.imported hc routine.index routine.signature
    simp only [Build.callIntrinsic, bind_apply, importFunction_apply, call_apply _ _ _ hi]
    exact h.trans (.emitted h.cursor (h.length ▸ hb) _ rfl _)
  silent := by
    intro B
    obtain ⟨i, hi, -, -⟩ := B.imported_fst routine.index routine.signature
    simp only [Build.callIntrinsic, bind_apply, importFunction_apply, call_apply _ _ _ hi]
    exact .emitted (.imported (.refl B)) rfl
  imports := by
    intro B j hj
    obtain ⟨i, hi, -, -⟩ := B.imported_fst routine.index routine.signature
    obtain ⟨added, he, hadded⟩ := B.imported_snd routine.index routine.signature
    simp only [Build.callIntrinsic, bind_apply, importFunction_apply, call_apply _ _ _ hi,
      Builder.emitted_imports] at hj
    rw [he] at hj
    rcases List.mem_append.mp hj with hj | hj
    · exact Or.inl hj
    · exact Or.inr ⟨routine, hadded j hj⟩

theorem roundHalf (v : ValueId) : Straight (Build.roundHalf v) :=
  (callIntrinsic _ _).bind fun _ => pure _

theorem widenDivisor (signed : Bool) (ty : MachineType) (v : ValueId) :
    Straight (Build.widenDivisor signed ty v) := by
  unfold Build.widenDivisor
  split
  · exact pure v
  · exact extend _ _ _

theorem checkedDiv (signed : Bool) (lhs rhs : ValueId) :
    Straight (Build.checkedDiv signed lhs rhs) := by
  unfold Build.checkedDiv
  refine (typeOf _).bind fun ty => (widenDivisor _ _ _).bind fun _ =>
    (callIntrinsic _ _).bind fun _ => (icmpImm _ _ _).bind fun _ => (iconst _ _).bind fun _ =>
    (select _ _ _).bind fun _ => ?_
  split
  · exact (iconst _ _).bind fun _ => (iconst _ _).bind fun _ => (icmp _ _ _).bind fun _ =>
      (icmp _ _ _).bind fun _ => (binary _ _ _).bind fun _ => (select _ _ _).bind fun _ =>
      binary _ _ _
  · exact binary _ _ _

end Straight

end Build

end Ir

open Ir.Build (Straight)

theorem BinaryImpl.straight_code (impl : BinaryImpl) (ty : ScalarType) (a b : Ir.ValueId) :
    Straight (impl.code ty a b) := by
  cases impl with
  | int op => exact .binary _ _ _
  | intDiv signed => exact .checkedDiv _ _ _
  | intShr signed => exact .binary _ _ _
  | intCompare cc => exact .icmp _ _ _
  | floatCompare cc => exact .fcmp _ _ _
  | widenBoolean op =>
      exact (Straight.extend _ _ _).bind fun _ => (Straight.extend _ _ _).bind fun _ =>
        .binary _ _ _
  | float op =>
      refine (Straight.binary _ _ _).bind fun v => ?_
      split
      · exact .roundHalf v
      · exact .pure v

theorem UnaryImpl.straight_code (impl : UnaryImpl) (a : Ir.ValueId) : Straight (impl.code a) := by
  cases impl with
  | intNegate => exact .unary _ _
  | floatNegate => exact .unary _ _
  | identity => exact .pure a
  | intTruthy => exact .icmpImm _ _ _
  | floatTruthy =>
      exact (Straight.typeOf _).bind fun _ => (Straight.const _).bind fun _ => .fcmp _ _ _

/-! ## Regions -/

namespace Ir.Region

variable {B B' B'' : Builder} {b b' b'' : Nat}

theorem of_inline (h : Inline B b B') (hb : b < B.function.blocks.length) : Region B b B' b where
  grown := h.grown
  cursor := h.cursor
  exit := Or.inl rfl
  bound := h.length ▸ hb
  unfinished := h.unfinished
  ended := by
    intro c hne hc hlt
    rw [h.length] at hlt
    exact (hc.elim hne (Nat.not_le_of_lt hlt)).elim

theorem trans (h : Region B b B' b') (h' : Region B' b' B'' b'') : Region B b B'' b'' where
  grown := by
    refine h.grown.trans h'.grown ?_
    rintro c rfl
    exact h.exit
  cursor := h'.cursor
  exit := by
    rcases h'.exit with rfl | he
    · exact h.exit
    · exact Or.inr (Nat.le_trans h.grown.length he)
  bound := h'.bound
  unfinished := h'.unfinished ∘ h.unfinished
  ended := by
    -- a block of the first part is ended there, unless it is where the second part starts
    intro c hne hc hlt
    by_cases hb : c = b'
    · exact h'.ended c hne (Or.inl hb) hlt
    · by_cases hl : c < B'.function.blocks.length
      · exact (h.ended c hb hc hl).mono h'.grown.toExtends
      · exact h'.ended c hne (Or.inr (Nat.le_of_not_lt hl)) hlt

end Ir.Region

end ScalarLang
