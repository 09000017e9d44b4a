import Mathlib
import ScalarLang.Proofs.Lower.Conditional

/-
  Every expression is lowered to a region, and so are arguments and statements. For a conditional
  that gives the layout of its blocks.
-/

namespace ScalarLang.Lower

open Ir (Builder Region Inline Layout)

variable {α : Type} {B B' : Builder} {tv : TypedValue} {b : Nat}

/-- What the step makes at the end of a block is a region. -/
def Regional (x : Lower α) : Prop :=
  ∀ (B : Builder) (a : α) (B' : Builder) (b : Nat), Builds x B a B' → B.cursor = .atEnd b →
    b < B.function.blocks.length → B.Numbered → ∃ b', Region B b B' b'

theorem parkTest_inline {form : ConditionalForm} {test : TypedValue} {parked : Option Ir.SlotId}
    (h : Builds (parkTest form test) B parked B') (hc : B.cursor = .atEnd b)
    (hb : b < B.function.blocks.length) : Inline B b B' := by
  rcases h.parkTest with ⟨-, rfl⟩ | ⟨-, rfl⟩
  · exact .refl hc
  · have hs := Inline.withSlot hc widestSlot
    exact hs.trans (.emitted hs.cursor hb _ rfl [])

/-- The stages of a conditional whose parts are regions. -/
theorem Builds.layout {form : ConditionalForm} {testSpan thenSpan : Span}
    {test thenArm elseArm : Lower TypedValue}
    (h : Builds (Lower.conditional form testSpan thenSpan test thenArm elseArm) B tv B')
    (ht : Regional test) (ha : Regional thenArm) (he : Regional elseArm)
    (hc : B.cursor = .atEnd b) (hb : b < B.function.blocks.length) (hn : B.Numbered) :
    ∃ t T parked P condition D u A w C testEnd thenEnd elseEnd,
      Layout B b T P D A C parked condition.value u.value w.value testEnd thenEnd elseEnd ∧
      Builds test B.opened t T ∧ Builds (Lower.parkTest form t) T parked P ∧
      Builds (Lower.unary testSpan .boolify t) P condition D ∧
      Builds thenArm (D.branched condition.value B.function.blocks.length) u A ∧
      Builds elseArm ((A.left parked u.value (B.function.blocks.length + 3)).enter
        (B.function.blocks.length + 2)) w C ∧
      u.type = w.type ∧
      tv = ⟨(A.joined C parked u.type.byteSize u.value w.value
        (B.function.blocks.length + 3)).2.function.values.length, u.type⟩ ∧
      B' = ((A.joined C parked u.type.byteSize u.value w.value
        (B.function.blocks.length + 3)).2.enter (B.function.blocks.length + 3)).emitted
          (.load u.type.machineType (A.joined C parked u.type.byteSize u.value w.value
            (B.function.blocks.length + 3)).1) [u.type.machineType] := by
  obtain ⟨t, T, parked, P, condition, D, u, A, w, C, slot, M, h₁, h₂, h₃, h₄, h₅, htype, hM, htv,
    hB'⟩ := h.conditional
  obtain ⟨rfl, rfl⟩ := Prod.mk.inj hM
  have hO := Ir.Builder.opened_grown hc hb
  obtain ⟨testEnd, r₁⟩ := ht _ _ _ _ h₁ rfl (by simp) (hO.numbered hn)
  have i₂ := parkTest_inline h₂ r₁.cursor r₁.bound
  have hP : testEnd < P.function.blocks.length := i₂.length ▸ r₁.bound
  obtain ⟨impl, -, -, rfl⟩ := h₃.unary
  have i₃ := (impl.straight_code t.value).inline P testEnd i₂.cursor hP
  have hD := i₃.length ▸ hP
  have hX := Ir.Builder.branched_grown i₃.cursor hD condition.value B.function.blocks.length
  have nX := hX.numbered (i₃.grown.numbered (i₂.grown.numbered (r₁.grown.numbered
    (hO.numbered hn))))
  have hlen := r₁.grown.length
  rw [Ir.Builder.opened_length, ← i₂.length, ← i₃.length] at hlen
  obtain ⟨thenEnd, r₄⟩ := ha _ _ _ (B.function.blocks.length + 1) h₄ rfl
    (by simp [Ir.Builder.branched]; omega) nX
  have hE := Ir.Builder.left_grown r₄.cursor r₄.bound parked u.value
    (B.function.blocks.length + 3)
  have hlen' := Nat.le_trans hX.length (Nat.le_trans r₄.grown.length hE.length)
  obtain ⟨elseEnd, r₅⟩ := he _ _ _ (B.function.blocks.length + 2) h₅ rfl
    (by rw [Ir.Builder.enter_function]; omega)
    (fun c s hs => hE.numbered (r₄.grown.numbered nX) c s hs)
  exact ⟨t, T, parked, P, condition, _, u, A, w, C, testEnd, thenEnd, elseEnd,
    ⟨hc, hb, hn, r₁, i₂, i₃, r₄, r₅⟩, h₁, h₂, h₃, h₄, h₅, htype, htv, hB'⟩

/-! ## Expressions -/

theorem literal_inline {l : Literal} (h : Builds l.lower B tv B') (hc : B.cursor = .atEnd b)
    (hb : b < B.function.blocks.length) : Inline B b B' := by
  obtain ⟨-, rfl⟩ := h.literal
  exact .emitted hc hb _ rfl _

theorem binary_inline {span : Span} {op : BinaryOp} {lhs rhs : TypedValue}
    (h : Builds (binary span op lhs rhs) B tv B') (hc : B.cursor = .atEnd b)
    (hb : b < B.function.blocks.length) : Inline B b B' := by
  obtain ⟨-, impl, -, -, rfl⟩ := h.binary
  exact (impl.straight_code _ _ _).inline B b hc hb

theorem unary_inline {span : Span} {op : UnaryOperator} {operand : TypedValue}
    (h : Builds (unary span op operand) B tv B') (hc : B.cursor = .atEnd b)
    (hb : b < B.function.blocks.length) : Inline B b B' := by
  obtain ⟨impl, -, -, rfl⟩ := h.unary
  exact (impl.straight_code _).inline B b hc hb

/-! Operations are inner code wherever they are made. -/

theorem literal_silent {l : Literal} (h : Builds l.lower B tv B') : Ir.Silent B B' := by
  obtain ⟨-, rfl⟩ := h.literal
  exact .emitted (.refl B) rfl

theorem binary_silent {span : Span} {op : BinaryOp} {lhs rhs : TypedValue}
    (h : Builds (binary span op lhs rhs) B tv B') : Ir.Silent B B' := by
  obtain ⟨-, impl, -, -, rfl⟩ := h.binary
  exact (impl.straight_code _ _ _).silent B

theorem unary_silent {span : Span} {op : UnaryOperator} {operand : TypedValue}
    (h : Builds (unary span op operand) B tv B') : Ir.Silent B B' := by
  obtain ⟨impl, -, -, rfl⟩ := h.unary
  exact (impl.straight_code _).silent B

theorem call_regional {p : Program} {span : Span} {callee : Ident} {count : Nat}
    {args : Lower (List Ir.ValueId)} (hargs : Regional args) :
    Regional (call p span callee count args) := by
  intro B tv B' b h hc hb hn
  obtain ⟨index, routine, values, B₁, i, -, -, -, h₁, -, -, rfl⟩ := h.call
  obtain ⟨b', r⟩ := hargs B values B₁ b h₁ hc hb hn
  have hi := Inline.imported r.cursor index routine.signature
  have he := hi.trans (.emitted hi.cursor (hi.length ▸ r.bound)
    (.call (B₁.imported index routine.signature).1 values) rfl i.signature.results)
  exact ⟨b', r.trans (.of_inline he r.bound)⟩

mutual

theorem expression_regional (p : Program) : ∀ node : Node, Regional (expression p node)
  | .literal _ l => by
      intro B tv B' b h hc hb _
      rw [expression] at h
      exact ⟨b, .of_inline (literal_inline h hc hb) hb⟩
  | .name _ _ => by
      intro B tv B' b h _ _ _
      rw [expression] at h
      exact absurd h not_builds_bareName
  | .binary _ _ lhs rhs => by
      intro B tv B' b h hc hb hn
      rw [expression] at h
      obtain ⟨x, B₁, h₁, h⟩ := h.bind
      obtain ⟨y, B₂, h₂, h⟩ := h.bind
      obtain ⟨b₁, r₁⟩ := expression_regional p lhs B x B₁ b h₁ hc hb hn
      obtain ⟨b₂, r₂⟩ := expression_regional p rhs B₁ y B₂ b₁ h₂ r₁.cursor r₁.bound
        (r₁.grown.numbered hn)
      exact ⟨b₂, (r₁.trans r₂).trans (.of_inline (binary_inline h r₂.cursor r₂.bound) r₂.bound)⟩
  | .negate _ operand => by
      intro B tv B' b h hc hb hn
      rw [expression] at h
      obtain ⟨x, B₁, h₁, h⟩ := h.bind
      obtain ⟨b₁, r₁⟩ := expression_regional p operand B x B₁ b h₁ hc hb hn
      exact ⟨b₁, r₁.trans (.of_inline (unary_inline h r₁.cursor r₁.bound) r₁.bound)⟩
  | .conditional _ _ test thenArm elseArm => by
      intro B tv B' b h hc hb hn
      rw [expression] at h
      obtain ⟨t, T, parked, P, condition, D, u, A, w, C, testEnd, thenEnd, elseEnd, L, -, -, -, -,
        -, -, -, rfl⟩ := h.layout (expression_regional p test) (expression_regional p thenArm)
          (expression_regional p elseArm) hc hb hn
      exact ⟨_, L.region _ _⟩
  | .function _ _ _ _ => by
      intro B tv B' b h _ _ _
      rw [expression] at h
      exact absurd h not_builds_fail
  | .call _ _ args => by
      rw [expression]
      exact call_regional (arguments_regional p args)

theorem arguments_regional (p : Program) : ∀ nodes : List Node, Regional (arguments p nodes)
  | [] => by
      intro B vs B' b h hc hb _
      rw [arguments] at h
      obtain ⟨-, rfl⟩ := h.pure
      exact ⟨b, .of_inline (.refl hc) hb⟩
  | node :: rest => by
      intro B vs B' b h hc hb hn
      rw [arguments] at h
      obtain ⟨x, B₁, h₁, h⟩ := h.bind
      obtain ⟨xs, B₂, h₂, h⟩ := h.bind
      obtain ⟨-, rfl⟩ := h.pure
      obtain ⟨b₁, r₁⟩ := expression_regional p node B x B₁ b h₁ hc hb hn
      obtain ⟨b₂, r₂⟩ := arguments_regional p rest B₁ xs _ b₁ h₂ r₁.cursor r₁.bound
        (r₁.grown.numbered hn)
      exact ⟨b₂, r₁.trans r₂⟩

end

theorem statements_regional (p : Program) : ∀ nodes : List Node, Regional (statements p nodes)
  | [] => by
      intro B tv B' b h hc hb _
      obtain ⟨v, B₁, h₁, h⟩ := Builds.bind h
      obtain ⟨-, rfl⟩ := h.pure
      obtain ⟨-, rfl⟩ := h₁.build
      exact ⟨b, .of_inline ((Ir.Build.Straight.iconst .i64 0).inline B b hc hb) hb⟩
  | [node] => expression_regional p node
  | node :: next :: rest => by
      intro B tv B' b h hc hb hn
      obtain ⟨x, B₁, h₁, h⟩ := Builds.bind h
      obtain ⟨b₁, r₁⟩ := expression_regional p node B x B₁ b h₁ hc hb hn
      obtain ⟨b₂, r₂⟩ := statements_regional p (next :: rest) B₁ tv B' b₁ h r₁.cursor r₁.bound
        (r₁.grown.numbered hn)
      exact ⟨b₂, r₁.trans r₂⟩

end ScalarLang.Lower
