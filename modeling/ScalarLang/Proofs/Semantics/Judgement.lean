import Mathlib
import ScalarLang.Lower.Expression

/-
  The types of expressions, without code.
  Operands have one type, which must have the operator; arms have one type as well, and a test may
  have any. A call names the first function that has the name, which must return a value; the type
  of that is known from the function. A name that is not called and a definition have no type.
  `HasType` states this by rules, one for each kind of node that can have a type, so an expression
  has one type at most.
-/

namespace ScalarLang

namespace BinaryOp

def comparisons : List BinaryOp := [.eq, .ne, .gt, .lt, .ge, .le]

end BinaryOp

namespace ScalarType

/-- The operators of a type. -/
def operators : ScalarType → List BinaryOp
  | .boolean => [.add, .sub, .bitAnd, .bitOr, .bitXor, .eq, .ne]
  | .signed _ | .unsigned _ | .pointer _ => BinaryOp.all
  | .float16 | .float32 | .float64 => [.add, .sub, .mul, .div] ++ BinaryOp.comparisons

/-- The type of what an operator gives on operands of a type: comparisons give booleans, and
    booleans add and subtract as integers. -/
def resultOf (ty : ScalarType) (op : BinaryOp) : ScalarType :=
  if op ∈ BinaryOp.comparisons then .boolean
  else if ty = .boolean ∧ op ∈ [BinaryOp.add, .sub] then .i64
  else ty

/-- The types that have negation. -/
def HasNegation : ScalarType → Prop
  | .signed _ | .float16 | .float32 | .float64 => True
  | .boolean | .unsigned _ | .pointer _ => False

instance (ty : ScalarType) : Decidable ty.HasNegation := by
  cases ty <;> unfold HasNegation <;> infer_instance

end ScalarType

mutual

/-- The expression has the type, given the functions of a program. -/
inductive HasType (p : Program) : Node → ScalarType → Prop where
  | literal {span : Span} {l : Literal} : HasType p (.literal span l) l.type
  | binary {span : Span} {op : BinaryOp} {lhs rhs : Node} {ty : ScalarType} :
      HasType p lhs ty → HasType p rhs ty → op ∈ ty.operators →
      HasType p (.binary span op lhs rhs) (ty.resultOf op)
  | negate {span : Span} {operand : Node} {ty : ScalarType} :
      HasType p operand ty → ty.HasNegation → HasType p (.negate span operand) ty
  | conditional {span : Span} {form : ConditionalForm} {test thenArm elseArm : Node}
      {testType ty : ScalarType} :
      HasType p test testType → HasType p thenArm ty → HasType p elseArm ty →
      HasType p (.conditional span form test thenArm elseArm) ty
  | call {span : Span} {callee : Ident} {args : List Node} {r : Routine} :
      p.routines.find? (·.name == callee.text) = some r → args.length = r.arity →
      r.signature.results ≠ [] → AllTyped p args → HasType p (.call span callee args) r.returnType

/-- All of the expressions have types. -/
inductive AllTyped (p : Program) : List Node → Prop where
  | nil : AllTyped p []
  | cons {node : Node} {rest : List Node} {ty : ScalarType} :
      HasType p node ty → AllTyped p rest → AllTyped p (node :: rest)

end

/-- The expression has a type. -/
def WellTyped (p : Program) (node : Node) : Prop := ∃ ty, HasType p node ty

variable {p : Program}

theorem allTyped_iff {nodes : List Node} : AllTyped p nodes ↔ ∀ n ∈ nodes, WellTyped p n := by
  induction nodes with
  | nil => simp [AllTyped.nil]
  | cons node rest ih =>
      rw [List.forall_mem_cons, ← ih]
      constructor
      · rintro (_ | ⟨h, hrest⟩)
        exact ⟨⟨_, h⟩, hrest⟩
      · rintro ⟨⟨ty, h⟩, hrest⟩
        exact .cons h hrest

/-- An expression has one type at most. -/
theorem HasType.unique : ∀ {node : Node} {ty ty' : ScalarType},
    HasType p node ty → HasType p node ty' → ty = ty'
  | _, _, _, .literal, .literal => rfl
  | _, _, _, .binary h _ _, .binary h' _ _ => by rw [unique h h']
  | _, _, _, .negate h _, .negate h' _ => unique h h'
  | _, _, _, .conditional _ h _, .conditional _ h' _ => unique h h'
  | _, _, _, .call h _ _ _, .call h' _ _ _ => by rw [Option.some.inj (h.symm.trans h')]

/-! ## Well-typed expressions, by their kind -/

section Kinds

variable {span : Span}

theorem wellTyped_binary {op : BinaryOp} {lhs rhs : Node} :
    WellTyped p (.binary span op lhs rhs) ↔
      ∃ ty, HasType p lhs ty ∧ HasType p rhs ty ∧ op ∈ ty.operators := by
  constructor
  · rintro ⟨_, h⟩
    cases h with
    | binary hlhs hrhs hop => exact ⟨_, hlhs, hrhs, hop⟩
  · rintro ⟨ty, hlhs, hrhs, hop⟩
    exact ⟨_, .binary hlhs hrhs hop⟩

theorem wellTyped_negate {operand : Node} :
    WellTyped p (.negate span operand) ↔ ∃ ty, HasType p operand ty ∧ ty.HasNegation := by
  constructor
  · rintro ⟨_, h⟩
    cases h with
    | negate hoperand hneg => exact ⟨_, hoperand, hneg⟩
  · rintro ⟨ty, hoperand, hneg⟩
    exact ⟨ty, .negate hoperand hneg⟩

theorem wellTyped_conditional {form : ConditionalForm} {test thenArm elseArm : Node} :
    WellTyped p (.conditional span form test thenArm elseArm) ↔
      WellTyped p test ∧ ∃ ty, HasType p thenArm ty ∧ HasType p elseArm ty := by
  constructor
  · rintro ⟨_, h⟩
    cases h with
    | conditional htest hthen helse => exact ⟨⟨_, htest⟩, _, hthen, helse⟩
  · rintro ⟨⟨_, htest⟩, ty, hthen, helse⟩
    exact ⟨ty, .conditional htest hthen helse⟩

theorem wellTyped_call {callee : Ident} {args : List Node} :
    WellTyped p (.call span callee args) ↔
      ∃ r, p.routines.find? (·.name == callee.text) = some r ∧ args.length = r.arity ∧
        r.signature.results ≠ [] ∧ AllTyped p args := by
  constructor
  · rintro ⟨_, h⟩
    cases h with
    | call hfind harity hresults hargs => exact ⟨_, hfind, harity, hresults, hargs⟩
  · rintro ⟨r, hfind, harity, hresults, hargs⟩
    exact ⟨_, .call hfind harity hresults hargs⟩

theorem not_wellTyped_name {text : String} : ¬ WellTyped p (.name span text) := by
  rintro ⟨_, h⟩
  cases h

theorem not_wellTyped_function {ident : Ident} {params : List Ident} {body : List Node} :
    ¬ WellTyped p (.function span ident params body) := by
  rintro ⟨_, h⟩
  cases h

end Kinds

end ScalarLang
