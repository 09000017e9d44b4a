import Mathlib
import ScalarLang.Proofs.Lower.Numbering

/-
  The table of types has no part in the code.
  Lowering with types never reads the table, so over another table a step ends in the same way and
  makes the same code. Lowering with numbers, which reads it at every operator, comes to the same:
  what a definition is lowered to depends on the program alone.
-/

namespace ScalarLang

namespace Lower

variable {α β : Type} {x : Lower α}

/-- Over every table of types the step ends in the same way and leaves the same builder. -/
def Blind (x : Lower α) : Prop :=
  ∀ (types types' : TypeTable) (B : Ir.Builder),
    (x ⟨types', B⟩ : Except LowerError α × LowerState).1 = (x ⟨types, B⟩).1 ∧
      (x ⟨types', B⟩ : Except LowerError α × LowerState).2.builder = (x ⟨types, B⟩).2.builder

namespace Blind

theorem pure (a : α) : Blind (pure a : Lower α) := fun _ _ _ => ⟨rfl, rfl⟩

theorem fail (kind : LowerErrorKind) (span : Span) (hint : Option String) :
    Blind (fail kind span hint : Lower α) := fun _ _ _ => ⟨rfl, rfl⟩

theorem build (y : Ir.Build α) : Blind (build y) := fun _ _ _ => ⟨rfl, rfl⟩

theorem useType (ty : ScalarType) : Blind (useType ty) := fun _ _ _ => ⟨rfl, rfl⟩

theorem bind {f : α → Lower β} (hx : Blind x) (hf : ∀ a, Blind (f a)) : Blind (x >>= f) := by
  intro types types' B
  obtain ⟨hresult, hbuilder⟩ := hx types types' B
  simp only [Bind.bind, ExceptT.bind, ExceptT.mk, StateT.bind]
  rcases h : (x ⟨types, B⟩ : Except LowerError α × LowerState) with ⟨r, t, C⟩
  rcases h' : (x ⟨types', B⟩ : Except LowerError α × LowerState) with ⟨r', t', C'⟩
  rw [h, h'] at hresult hbuilder
  obtain rfl : r' = r := hresult
  obtain rfl : C' = C := hbuilder
  cases r' with
  | error e => exact ⟨rfl, rfl⟩
  | ok a => exact hf a t t' C'

/-- Some building comes first. -/
theorem built {y : Ir.Build α} {f : α → Lower β} (hf : ∀ a, Blind (f a)) :
    Blind (Lower.build y >>= f) :=
  (build y).bind hf

end Blind

/-! ## Operations -/

theorem blind_orFail (span : Span) (r : Except TypeError α) : Blind (orFail span r) := by
  cases r with
  | ok a => exact .pure a
  | error e => exact .fail _ _ _

end Lower

open Lower (Blind)

theorem Literal.blind_lower (l : Literal) : Blind l.lower :=
  .built fun _ => (Blind.useType _).bind fun _ => .pure _

theorem BinaryImpl.blind_apply (impl : BinaryImpl) (lhs rhs : TypedValue) :
    Blind (impl.apply lhs rhs) := by
  cases impl with
  | int op => exact .built fun _ => .pure _
  | intDiv signed => exact .built fun _ => .pure _
  | intShr signed => exact .built fun _ => .pure _
  | intCompare cc => exact .built fun _ => (Blind.useType _).bind fun _ => .pure _
  | floatCompare cc => exact .built fun _ => (Blind.useType _).bind fun _ => .pure _
  | float op =>
      refine .built fun _ => ?_
      split
      · exact .built fun _ => .pure _
      · exact .pure _
  | widenBoolean op =>
      exact (Blind.useType _).bind fun _ => .built fun _ => .built fun _ => .built fun _ => .pure _

theorem UnaryImpl.blind_apply (impl : UnaryImpl) (operand : TypedValue) :
    Blind (impl.apply operand) := by
  cases impl with
  | intNegate => exact .built fun _ => .pure _
  | floatNegate => exact .built fun _ => .pure _
  | identity => exact .pure _
  | intTruthy => exact (Blind.useType _).bind fun _ => .built fun _ => .pure _
  | floatTruthy =>
      exact (Blind.useType _).bind fun _ => .built fun _ => .built fun _ => .built fun _ => .pure _

namespace Lower

theorem blind_binary (span : Span) (op : BinaryOp) (lhs rhs : TypedValue) :
    Blind (binary span op lhs rhs) := by
  unfold binary
  split
  · exact (blind_orFail span _).bind fun impl => impl.blind_apply lhs rhs
  · exact .fail _ _ _

theorem blind_unary (span : Span) (op : UnaryOperator) (operand : TypedValue) :
    Blind (unary span op operand) :=
  (blind_orFail span _).bind fun impl => impl.blind_apply operand

/-! ## Expressions -/

theorem blind_parkTest (form : ConditionalForm) (test : TypedValue) :
    Blind (parkTest form test) := by
  cases form with
  | ifForm => exact .built fun _ => .built fun _ => .pure _
  | whenForm => exact .pure _

theorem blind_closedArm {arm : Lower TypedValue} (h : Blind arm) (parked : Option Ir.SlotId)
    (join : Ir.BlockId) : Blind (closedArm arm parked join) := by
  refine h.bind fun v => ?_
  cases parked with
  | some slot => exact .built fun _ => .built fun _ => .pure _
  | none => exact .built fun _ => .pure _

theorem blind_meetingSlot (parked : Option Ir.SlotId) (size : Nat) (u w : Ir.ValueId)
    (thenExit elseExit : Nat) : Blind (meetingSlot parked size u w thenExit elseExit) := by
  cases parked with
  | some slot => exact .pure _
  | none =>
      exact .built fun _ => .built fun _ => .built fun _ => .built fun _ => .built fun _ => .pure _

theorem blind_conditional {form : ConditionalForm} {testSpan thenSpan : Span}
    {test thenArm elseArm : Lower TypedValue} (ht : Blind test) (ha : Blind thenArm)
    (he : Blind elseArm) : Blind (conditional form testSpan thenSpan test thenArm elseArm) := by
  refine .built fun _ => .built fun _ => .built fun _ => .built fun _ => .built fun _ =>
    .built fun _ => ht.bind fun t => (blind_parkTest form t).bind fun parked =>
    (blind_unary _ _ t).bind fun _ => .built fun _ => .built fun _ =>
    (blind_closedArm ha parked _).bind fun a => .built fun _ =>
    (blind_closedArm he parked _).bind fun b => ?_
  dsimp only
  split
  · exact (blind_meetingSlot _ _ _ _ _ _).bind fun _ => .built fun _ => .built fun _ => .pure _
  · exact .fail _ _ _

theorem blind_call {p : Program} {span : Span} {callee : Ident} {count : Nat}
    {args : Lower (List Ir.ValueId)} (h : Blind args) : Blind (call p span callee count args) := by
  unfold call
  split
  · exact .fail _ _ _
  · split
    · refine h.bind fun _ => .built fun _ => .built fun _ => .built fun _ => ?_
      split
      · exact .fail _ _ _
      · exact (Blind.useType _).bind fun _ => .pure _
    · exact .fail _ _ _

mutual

theorem blind_expression (p : Program) : ∀ node : Node, Blind (expression p node)
  | .literal _ l => by
      rw [expression]
      exact l.blind_lower
  | .name _ _ => by
      rw [expression]
      exact .fail _ _ _
  | .binary _ _ lhs rhs => by
      rw [expression]
      exact (blind_expression p lhs).bind fun _ => (blind_expression p rhs).bind fun _ =>
        blind_binary _ _ _ _
  | .negate _ operand => by
      rw [expression]
      exact (blind_expression p operand).bind fun _ => blind_unary _ _ _
  | .conditional _ _ test thenArm elseArm => by
      rw [expression]
      exact blind_conditional (blind_expression p test) (blind_expression p thenArm)
        (blind_expression p elseArm)
  | .function _ _ _ _ => by
      rw [expression]
      exact .fail _ _ _
  | .call _ _ args => by
      rw [expression]
      exact blind_call (blind_arguments p args)

theorem blind_arguments (p : Program) : ∀ nodes : List Node, Blind (arguments p nodes)
  | [] => by
      rw [arguments]
      exact .pure _
  | node :: rest => by
      rw [arguments]
      exact (blind_expression p node).bind fun _ => (blind_arguments p rest).bind fun _ => .pure _

end

theorem blind_statements (p : Program) : ∀ nodes : List Node, Blind (statements p nodes)
  | [] => .built fun _ => .pure _
  | [node] => blind_expression p node
  | node :: next :: rest =>
      (blind_expression p node).bind fun _ => blind_statements p (next :: rest)

theorem blind_draft {body : Lower TypedValue} (h : Blind body) (name : String)
    (anonymous : Bool) : Blind (draft name anonymous body) := by
  refine .built fun _ => .built fun _ => .built fun _ => .built fun _ =>
    (Blind.useType _).bind fun _ => h.bind fun tv => ?_
  exact .built fun _ => .built fun _ => .built fun _ => .built fun _ => .built fun _ =>
    .built fun _ => .built fun _ => .built fun _ => .built fun _ => .built fun _ =>
    .built fun _ => fun _ _ _ => ⟨rfl, rfl⟩

end Lower

/-- What statements come to, over any table of types. -/
theorem Routine.lower_types (p : Program) (types types' : TypeTable) (name : String)
    (anonymous : Bool) (nodes : List Node) :
    (Routine.lower p types' name anonymous nodes).1 =
      (Routine.lower p types name anonymous nodes).1 := by
  rw [Routine.lower_eq, Routine.lower_eq]
  exact (Lower.blind_draft (Lower.blind_statements p nodes) _ _ types types' _).1

/-- What a definition comes to, over any table of types. -/
theorem Routine.ofDefinition_types (p : Program) (types types' : TypeTable) (d : Definition) :
    (Routine.ofDefinition p types' d).1 = (Routine.ofDefinition p types d).1 := by
  unfold Routine.ofDefinition
  split
  · rfl
  · split
    · rfl
    · exact Routine.lower_types p types types' _ _ _

end ScalarLang
