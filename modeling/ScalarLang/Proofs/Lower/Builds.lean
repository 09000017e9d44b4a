import Mathlib
import ScalarLang.Proofs.Ir.Building
import ScalarLang.Proofs.Lower.Typed
import ScalarLang.Proofs.Program

/-
  Lowering as a relation between builders.
  `Builds x B a B'` says that the lowering step `x` takes the builder `B` to `B'` and gives `a`; the
  table of types has no part in it. A step that succeeded is taken apart into the steps it is made
  of, down to the building steps.
-/

namespace ScalarLang

open Ir (Builder)

/-! ## Imports of a program's functions -/

@[simp] theorem Ir.Build.nextValue_apply (B : Builder) :
    nextValue B = (B.function.values.length, B) := rfl

namespace Ir.Builder

variable {p : Program} {B : Builder} {index : Nat} {signature : Signature}

/-- The imports have the signatures of what they stand for in the program. -/
def ImportsFrom (B : Builder) (p : Program) : Prop :=
  ∀ i ∈ B.function.imports, p.signatureAt? i.index = some i.signature

theorem importsFrom_start (p : Program) (name : String) : (start name).ImportsFrom p := by
  rintro i ⟨⟩

theorem ImportsFrom.imported (h : B.ImportsFrom p) (hs : p.signatureAt? index = some signature) :
    (B.imported index signature).2.ImportsFrom p := by
  obtain ⟨added, he, hadded⟩ := B.imported_snd index signature
  rw [he]
  intro i hi
  rcases List.mem_append.mp hi with hi | hi
  · exact h i hi
  · rw [hadded i hi]
    exact hs

/-- What is imported may be an older import, but that has the signature that is asked for. -/
theorem ImportsFrom.imported_fst (h : B.ImportsFrom p)
    (hs : p.signatureAt? index = some signature) :
    (B.imported index signature).2.function.imports[(B.imported index signature).1]? =
      some ⟨index, signature⟩ := by
  obtain ⟨⟨index', signature'⟩, hi, hindex, hmem⟩ := B.imported_fst index signature
  obtain rfl : index' = index := hindex
  rcases hmem with hmem | he
  · obtain rfl : signature' = signature := Option.some.inj ((h _ hmem).symm.trans hs)
    exact hi
  · rw [hi, he]

end Ir.Builder

namespace Lower

variable {α β : Type} {B B' B'' : Builder}

/-- The step takes the builder `B` to `B'` and gives `a`, over some table of types. -/
def Builds (x : Lower α) (B : Builder) (a : α) (B' : Builder) : Prop :=
  ∃ types types',
    (x ⟨types, B⟩ : Except LowerError α × LowerState) = (.ok a, ⟨types', B'⟩)

/-! ## Taking steps apart -/

theorem Builds.bind {x : Lower α} {f : α → Lower β} {b : β} (h : Builds (x >>= f) B b B'') :
    ∃ a B', Builds x B a B' ∧ Builds (f a) B' b B'' := by
  obtain ⟨types, types', h⟩ := h
  simp only [Bind.bind, ExceptT.bind, ExceptT.mk, StateT.bind] at h
  rcases hx : x ⟨types, B⟩ with ⟨r, s⟩
  rw [hx] at h
  cases r with
  | error e => exact nomatch (congrArg Prod.fst h : Except.error e = Except.ok b)
  | ok a => exact ⟨a, s.builder, ⟨types, s.types, hx⟩, ⟨s.types, types', h⟩⟩

theorem Builds.pure {a b : α} (h : Builds (pure a) B b B') : b = a ∧ B' = B := by
  obtain ⟨types, types', h⟩ := h
  have h' : ((Except.ok a : Except LowerError α), (⟨types, B⟩ : LowerState)) =
      (.ok b, ⟨types', B'⟩) := h
  simp only [Prod.mk.injEq, Except.ok.injEq, LowerState.mk.injEq] at h'
  exact ⟨h'.1.symm, h'.2.2.symm⟩

theorem Builds.build {x : Ir.Build α} {a : α} (h : Builds (build x) B a B') :
    a = (x B).1 ∧ B' = (x B).2 := by
  obtain ⟨types, types', h⟩ := h
  have h' : ((Except.ok (x B).1 : Except LowerError α), (⟨types, (x B).2⟩ : LowerState)) =
      (.ok a, ⟨types', B'⟩) := h
  simp only [Prod.mk.injEq, Except.ok.injEq, LowerState.mk.injEq] at h'
  exact ⟨h'.1.symm, h'.2.2.symm⟩

theorem Builds.useType {ty : ScalarType} {u : Unit} (h : Builds (useType ty) B u B') : B' = B := by
  obtain ⟨types, types', h⟩ := h
  have h' : ((Except.ok () : Except LowerError Unit), (⟨types.insert ty, B⟩ : LowerState)) =
      (.ok u, ⟨types', B'⟩) := h
  simp only [Prod.mk.injEq, LowerState.mk.injEq] at h'
  exact h'.2.2.symm

theorem Builds.get {s : LowerState} (h : Builds get B s B') : s.builder = B ∧ B' = B := by
  obtain ⟨types, types', h⟩ := h
  have h' : ((Except.ok ⟨types, B⟩ : Except LowerError LowerState), (⟨types, B⟩ : LowerState)) =
      (.ok s, ⟨types', B'⟩) := h
  simp only [Prod.mk.injEq, Except.ok.injEq, LowerState.mk.injEq] at h'
  exact ⟨by rw [← h'.1], h'.2.2.symm⟩

theorem not_builds_fail {kind : LowerErrorKind} {span : Span} {hint : Option String} {a : α} :
    ¬ Builds (fail kind span hint) B a B' := by
  rintro ⟨types, types', h⟩
  have h' : ((Except.error ⟨kind, span, hint⟩ : Except LowerError α), (⟨types, B⟩ : LowerState)) =
      (.ok a, ⟨types', B'⟩) := h
  simp at h'

theorem Builds.orFail {span : Span} {e : Except TypeError α} {a : α}
    (h : Builds (orFail span e) B a B') : e = .ok a ∧ B' = B := by
  cases e with
  | ok a' =>
      obtain ⟨rfl, rfl⟩ := Builds.pure h
      exact ⟨rfl, rfl⟩
  | error e => exact absurd h not_builds_fail

/-! ## Operations -/

end Lower

/-- The building that an operation on two values of a type does. -/
def BinaryImpl.code (impl : BinaryImpl) (ty : ScalarType) (a b : Ir.ValueId) :
    Ir.Build Ir.ValueId :=
  match impl with
  | .int op => .binary op.opcode a b
  | .intDiv signed => .checkedDiv signed a b
  | .intShr signed => .binary (if signed then .sshr else .ushr) a b
  | .intCompare cc => .icmp cc a b
  | .float op => do
    let value ← .binary op.opcode a b
    if ty = .float16 then .roundHalf value else return value
  | .floatCompare cc => .fcmp cc a b
  | .widenBoolean op => do
    let x ← .extend false .i64 a
    let y ← .extend false .i64 b
    .binary op.opcode x y

/-- The type of an operation's result, given that of its operands. -/
def BinaryImpl.resultType (impl : BinaryImpl) (ty : ScalarType) : ScalarType :=
  match impl with
  | .int _ | .intDiv _ | .intShr _ | .float _ => ty
  | .intCompare _ | .floatCompare _ => .boolean
  | .widenBoolean _ => .i64

def UnaryImpl.code (impl : UnaryImpl) (a : Ir.ValueId) : Ir.Build Ir.ValueId :=
  match impl with
  | .intNegate => .unary .ineg a
  | .floatNegate => .unary .fneg a
  | .identity => return a
  | .intTruthy => .icmpImm .ne a 0
  | .floatTruthy => do
    let ty ← .typeOf a
    let origin ← .const (if ty = .f64 then Ir.Constant.f64 (.zero false) else .f32 (.zero false))
    .fcmp .one a origin

def UnaryImpl.resultType (impl : UnaryImpl) (ty : ScalarType) : ScalarType :=
  match impl with
  | .intNegate | .floatNegate | .identity => ty
  | .intTruthy | .floatTruthy => .boolean

namespace Lower

theorem Builds.binaryImpl {impl : BinaryImpl} {lhs rhs tv : TypedValue}
    (h : Builds (impl.apply lhs rhs) B tv B') :
    tv = ⟨(impl.code lhs.type lhs.value rhs.value B).1, impl.resultType lhs.type⟩ ∧
      B' = (impl.code lhs.type lhs.value rhs.value B).2 := by
  cases impl with
  | int op =>
      obtain ⟨v, B₁, h₁, h⟩ := h.bind
      obtain ⟨rfl, rfl⟩ := h.pure
      obtain ⟨rfl, rfl⟩ := h₁.build
      exact ⟨rfl, rfl⟩
  | intDiv signed =>
      obtain ⟨v, B₁, h₁, h⟩ := h.bind
      obtain ⟨rfl, rfl⟩ := h.pure
      obtain ⟨rfl, rfl⟩ := h₁.build
      exact ⟨rfl, rfl⟩
  | intShr signed =>
      obtain ⟨v, B₁, h₁, h⟩ := h.bind
      obtain ⟨rfl, rfl⟩ := h.pure
      obtain ⟨rfl, rfl⟩ := h₁.build
      exact ⟨rfl, rfl⟩
  | intCompare cc =>
      obtain ⟨v, B₁, h₁, h⟩ := h.bind
      obtain ⟨_, B₂, h₂, h⟩ := h.bind
      obtain ⟨rfl, rfl⟩ := h.pure
      obtain rfl := h₂.useType
      obtain ⟨rfl, rfl⟩ := h₁.build
      exact ⟨rfl, rfl⟩
  | floatCompare cc =>
      obtain ⟨v, B₁, h₁, h⟩ := h.bind
      obtain ⟨_, B₂, h₂, h⟩ := h.bind
      obtain ⟨rfl, rfl⟩ := h.pure
      obtain rfl := h₂.useType
      obtain ⟨rfl, rfl⟩ := h₁.build
      exact ⟨rfl, rfl⟩
  | float op =>
      obtain ⟨v, B₁, h₁, h⟩ := h.bind
      obtain ⟨rfl, rfl⟩ := h₁.build
      -- only a half is rounded again
      by_cases ht : lhs.type = .float16
      · rw [if_pos ht] at h
        obtain ⟨w, B₂, h₂, h⟩ := h.bind
        obtain ⟨rfl, rfl⟩ := h.pure
        obtain ⟨rfl, rfl⟩ := h₂.build
        simp only [BinaryImpl.code, Ir.Build.bind_apply, if_pos ht, and_true]
        rfl
      · rw [if_neg ht] at h
        obtain ⟨rfl, rfl⟩ := h.pure
        simp only [BinaryImpl.code, Ir.Build.bind_apply, if_neg ht]
        exact ⟨rfl, rfl⟩
  | widenBoolean op =>
      obtain ⟨_, B₁, h₁, h⟩ := h.bind
      obtain ⟨x, B₂, h₂, h⟩ := h.bind
      obtain ⟨y, B₃, h₃, h⟩ := h.bind
      obtain ⟨v, B₄, h₄, h⟩ := h.bind
      obtain ⟨rfl, rfl⟩ := h.pure
      obtain rfl := h₁.useType
      obtain ⟨rfl, rfl⟩ := h₂.build
      obtain ⟨rfl, rfl⟩ := h₃.build
      obtain ⟨rfl, rfl⟩ := h₄.build
      exact ⟨rfl, rfl⟩

theorem Builds.unaryImpl {impl : UnaryImpl} {operand tv : TypedValue}
    (h : Builds (impl.apply operand) B tv B') :
    tv = ⟨(impl.code operand.value B).1, impl.resultType operand.type⟩ ∧
      B' = (impl.code operand.value B).2 := by
  cases impl with
  | intNegate =>
      obtain ⟨v, B₁, h₁, h⟩ := h.bind
      obtain ⟨rfl, rfl⟩ := h.pure
      obtain ⟨rfl, rfl⟩ := h₁.build
      exact ⟨rfl, rfl⟩
  | floatNegate =>
      obtain ⟨v, B₁, h₁, h⟩ := h.bind
      obtain ⟨rfl, rfl⟩ := h.pure
      obtain ⟨rfl, rfl⟩ := h₁.build
      exact ⟨rfl, rfl⟩
  | identity =>
      obtain ⟨rfl, rfl⟩ := h.pure
      exact ⟨rfl, rfl⟩
  | intTruthy =>
      obtain ⟨_, B₁, h₁, h⟩ := h.bind
      obtain ⟨v, B₂, h₂, h⟩ := h.bind
      obtain ⟨rfl, rfl⟩ := h.pure
      obtain rfl := h₁.useType
      obtain ⟨rfl, rfl⟩ := h₂.build
      exact ⟨rfl, rfl⟩
  | floatTruthy =>
      obtain ⟨_, B₁, h₁, h⟩ := h.bind
      obtain ⟨ty, B₂, h₂, h⟩ := h.bind
      obtain ⟨origin, B₃, h₃, h⟩ := h.bind
      obtain ⟨v, B₄, h₄, h⟩ := h.bind
      obtain ⟨rfl, rfl⟩ := h.pure
      obtain rfl := h₁.useType
      obtain ⟨rfl, rfl⟩ := h₂.build
      obtain ⟨rfl, rfl⟩ := h₃.build
      obtain ⟨rfl, rfl⟩ := h₄.build
      exact ⟨rfl, rfl⟩

/-! ## Expressions -/

theorem Builds.literal {l : Literal} {tv : TypedValue} (h : Builds l.lower B tv B') :
    tv = ⟨B.function.values.length, l.type⟩ ∧
      B' = B.emitted (.const l.constant) [l.constant.type] := by
  obtain ⟨v, B₁, h₁, h⟩ := h.bind
  obtain ⟨_, B₂, h₂, h⟩ := h.bind
  obtain ⟨rfl, rfl⟩ := h.pure
  obtain rfl := h₂.useType
  obtain ⟨rfl, rfl⟩ := h₁.build
  exact ⟨rfl, rfl⟩

theorem Builds.binary {span : Span} {op : BinaryOp} {lhs rhs tv : TypedValue}
    (h : Builds (binary span op lhs rhs) B tv B') :
    lhs.type = rhs.type ∧ ∃ impl, lhs.type.binaryImpl? op = some impl ∧
      tv = ⟨(impl.code lhs.type lhs.value rhs.value B).1, impl.resultType lhs.type⟩ ∧
      B' = (impl.code lhs.type lhs.value rhs.value B).2 := by
  unfold Lower.binary at h
  split at h
  · rename_i heq
    obtain ⟨impl, B₁, h₁, h⟩ := h.bind
    obtain ⟨himpl, rfl⟩ := h₁.orFail
    unfold ScalarType.binaryImpl at himpl
    split at himpl
    · rename_i impl' hi
      obtain rfl : impl' = impl := by simpa using himpl
      exact ⟨heq, _, hi, h.binaryImpl⟩
    · simp at himpl
  · exact absurd h not_builds_fail

theorem Builds.unary {span : Span} {op : UnaryOperator} {operand tv : TypedValue}
    (h : Builds (unary span op operand) B tv B') :
    ∃ impl, operand.type.unaryImpl? op = some impl ∧
      tv = ⟨(impl.code operand.value B).1, impl.resultType operand.type⟩ ∧
      B' = (impl.code operand.value B).2 := by
  unfold Lower.unary at h
  obtain ⟨impl, B₁, h₁, h⟩ := h.bind
  obtain ⟨himpl, rfl⟩ := h₁.orFail
  unfold ScalarType.unaryImpl at himpl
  split at himpl
  · rename_i impl' hi
    obtain rfl : impl' = impl := by simpa using himpl
    exact ⟨_, hi, h.unaryImpl⟩
  · simp at himpl

theorem not_builds_bareName {p : Program} {span : Span} {name : String} {tv : TypedValue} :
    ¬ Builds (bareName p span name) B tv B' := not_builds_fail

theorem Builds.call {p : Program} {span : Span} {callee : Ident} {count : Nat}
    {args : Lower (List Ir.ValueId)} {tv : TypedValue}
    (h : Builds (call p span callee count args) B tv B') :
    ∃ index routine values B₁ i, p.lookup callee.text = some (index, routine) ∧
      count = routine.arity ∧ routine.signature.results ≠ [] ∧ Builds args B values B₁ ∧
      (B₁.imported index routine.signature).2.function.imports[
        (B₁.imported index routine.signature).1]? = some i ∧
      tv = ⟨B₁.function.values.length, routine.returnType⟩ ∧
      B' = (B₁.imported index routine.signature).2.emitted
        (.call (B₁.imported index routine.signature).1 values) i.signature.results := by
  unfold Lower.call at h
  split at h
  · exact absurd h not_builds_fail
  · rename_i index routine hl
    split at h
    · rename_i hcount
      obtain ⟨values, B₁, h₁, h⟩ := h.bind
      obtain ⟨target, B₂, h₂, h⟩ := h.bind
      obtain ⟨value, B₃, h₃, h⟩ := h.bind
      obtain ⟨result, B₄, h₄, h⟩ := h.bind
      split at h
      · exact absurd h not_builds_fail
      · rename_i hresults
        obtain ⟨_, B₅, h₅, h⟩ := h.bind
        obtain ⟨rfl, rfl⟩ := h.pure
        obtain rfl := h₅.useType
        obtain ⟨rfl, rfl⟩ := h₂.build
        obtain ⟨rfl, rfl⟩ := h₃.build
        obtain ⟨rfl, rfl⟩ := h₄.build
        obtain ⟨i, hi, -, -⟩ := B₁.imported_fst index routine.signature
        obtain ⟨added, ha, -⟩ := B₁.imported_snd index routine.signature
        have hv : (B₁.imported index routine.signature).2.function.values = B₁.function.values := by
          rw [ha]
        refine ⟨index, routine, values, B₁, i, hl, hcount, by simpa using hresults, h₁, hi, ?_, ?_⟩
        · rw [Ir.Build.importFunction_apply, Ir.Build.nextValue_apply, hv]
        · rw [Ir.Build.importFunction_apply, Ir.Build.nextValue_apply, Ir.Build.call_apply _ _ _ hi]
    · exact absurd h not_builds_fail

end Lower

end ScalarLang
