import Mathlib
import ScalarLang.Proofs.Lower.Function

/-
  Where imports come from.
  Lowered code imports built-in routines, and for each name that its statements call the routine
  that the name stands for in the program, under that routine's index and signature.
-/

namespace ScalarLang

mutual

/-- The names that an expression calls. -/
def Node.callees : Node → List String
  | .literal _ _ | .name _ _ | .function _ _ _ _ => []
  | .binary _ _ lhs rhs => lhs.callees ++ rhs.callees
  | .negate _ operand => operand.callees
  | .conditional _ _ test thenArm elseArm => test.callees ++ thenArm.callees ++ elseArm.callees
  | .call _ callee args => callee.text :: Node.calleesOf args

/-- The names that nodes call. -/
def Node.calleesOf : List Node → List String
  | [] => []
  | node :: rest => node.callees ++ Node.calleesOf rest

end

/-- What a program has for a built-in routine or for one of the names. -/
def Program.Offers (p : Program) (names : List String) (i : Ir.Import) : Prop :=
  (∃ r : Intrinsic, i = ⟨r.index, r.signature⟩) ∨
    ∃ name ∈ names, ∃ r, p.lookup name = some (i.index, r) ∧ i.signature = r.signature

theorem Program.Offers.mono {p : Program} {names names' : List String} {i : Ir.Import}
    (h : p.Offers names i) (hn : names ⊆ names') : p.Offers names' i :=
  h.imp_right fun ⟨name, hname, hr⟩ => ⟨name, hn hname, hr⟩

namespace Lower

open Ir (Builder)

variable {α β : Type} {p : Program} {names names' : List String}

/-- The step imports only what the program has for the names. -/
def Imports (p : Program) (names : List String) (x : Lower α) : Prop :=
  ∀ B a B', Builds x B a B' → ∀ i ∈ B'.function.imports,
    i ∈ B.function.imports ∨ p.Offers names i

namespace Imports

theorem bind {x : Lower α} {f : α → Lower β} (hx : Imports p names x)
    (hf : ∀ a, Imports p names' (f a)) : Imports p (names ++ names') (x >>= f) := by
  intro B b B' h i hi
  obtain ⟨a, B₁, h₁, h₂⟩ := h.bind
  rcases hf a B₁ b B' h₂ i hi with hi | hi
  · exact (hx B a B₁ h₁ i hi).imp_right (·.mono (List.subset_append_left _ _))
  · exact Or.inr (hi.mono (List.subset_append_right _ _))

/-- A last step that calls no names. -/
theorem map {x : Lower α} {f : α → Lower β} (hx : Imports p names x)
    (hf : ∀ a, Imports p [] (f a)) : Imports p names (x >>= f) :=
  List.append_nil names ▸ hx.bind hf

theorem pure (a : α) : Imports p names (pure a : Lower α) := by
  intro B b B' h i hi
  obtain ⟨-, rfl⟩ := h.pure
  exact Or.inl hi

theorem fail {kind : LowerErrorKind} {span : Span} {hint : Option String} :
    Imports p names (Lower.fail kind span hint : Lower α) :=
  fun _ _ _ h => absurd h not_builds_fail

theorem literal (l : Literal) : Imports p names l.lower := by
  intro B tv B' h i hi
  obtain ⟨-, rfl⟩ := h.literal
  exact Or.inl hi

theorem binary (span : Span) (op : BinaryOp) (lhs rhs : TypedValue) :
    Imports p names (Lower.binary span op lhs rhs) := by
  intro B tv B' h i hi
  obtain ⟨-, impl, -, -, rfl⟩ := h.binary
  exact ((impl.straight_code _ _ _).imports B i hi).imp_right Or.inl

theorem unary (span : Span) (op : UnaryOperator) (operand : TypedValue) :
    Imports p names (Lower.unary span op operand) := by
  intro B tv B' h i hi
  obtain ⟨impl, -, -, rfl⟩ := h.unary
  exact ((impl.straight_code _).imports B i hi).imp_right Or.inl

theorem call {span : Span} {callee : Ident} {count : Nat} {args : Lower (List Ir.ValueId)}
    (h : Imports p names args) :
    Imports p (callee.text :: names) (Lower.call p span callee count args) := by
  intro B tv B' hb i hi
  obtain ⟨index, routine, values, B₁, _, hl, -, -, h₁, -, -, rfl⟩ := hb.call
  obtain ⟨added, he, hadded⟩ := B₁.imported_snd index routine.signature
  rw [Ir.Builder.emitted_imports, he] at hi
  rcases List.mem_append.mp hi with hi | hi
  · exact (h B values B₁ h₁ i hi).imp_right (·.mono (List.subset_cons_self _ _))
  · rw [hadded i hi]
    exact Or.inr (Or.inr ⟨callee.text, List.mem_cons_self, routine, hl, rfl⟩)

end Imports

theorem parkTest_imports {form : ConditionalForm} {test : TypedValue} {B B' : Builder}
    {parked : Option Ir.SlotId} (h : Builds (parkTest form test) B parked B') :
    B'.function.imports = B.function.imports := by
  rcases h.parkTest with ⟨-, rfl⟩ | ⟨-, rfl⟩ <;> rfl

theorem left_imports (B : Builder) (parked : Option Ir.SlotId) (v : Ir.ValueId) (join : Nat) :
    (B.left parked v join).function.imports = B.function.imports := by
  cases parked <;> rfl

theorem met_imports (B : Builder) (parked : Option Ir.SlotId) (size : Nat) (u w : Ir.ValueId)
    (n n' : Nat) : (B.met parked size u w n n').2.function.imports = B.function.imports := by
  cases parked <;> rfl

theorem Imports.conditional {form : ConditionalForm} {testSpan thenSpan : Span}
    {test thenArm elseArm : Lower TypedValue} {names₁ names₂ names₃ : List String}
    (ht : Imports p names₁ test) (ha : Imports p names₂ thenArm) (he : Imports p names₃ elseArm) :
    Imports p (names₁ ++ names₂ ++ names₃)
      (Lower.conditional form testSpan thenSpan test thenArm elseArm) := by
  intro B tv B' h i hi
  obtain ⟨t, T, parked, P, condition, D, u, A, w, C, slot, M, h₁, h₂, h₃, h₄, h₅, -, hM, -, rfl⟩ :=
    h.conditional
  have hjoined : M.function.imports = C.function.imports := by
    rw [show M = _ from congrArg Prod.snd hM]
    exact (met_imports _ _ _ _ _ _ _).trans (left_imports _ _ _ _)
  have hu : Imports p [] (Lower.unary testSpan .boolify t) := .unary _ _ _
  rw [Ir.Builder.emitted_imports, Ir.Builder.enter_function, hjoined] at hi
  -- back from the end: second arm, first arm, truth of the test, test
  rcases he _ _ _ h₅ i hi with hi | hi
  · rw [Ir.Builder.enter_function, left_imports] at hi
    rcases ha _ _ _ h₄ i hi with hi | hi
    · rcases hu _ _ _ h₃ i hi with hi | hi
      · rw [parkTest_imports h₂] at hi
        exact (ht _ _ _ h₁ i hi).imp_right (·.mono (by simp))
      · exact Or.inr (hi.mono (by simp))
    · exact Or.inr (hi.mono (by simp))
  · exact Or.inr (hi.mono (by simp))

mutual

theorem expression_imports (p : Program) :
    ∀ node : Node, Imports p node.callees (expression p node)
  | .literal _ l => by
      rw [expression]
      exact .literal l
  | .name _ _ => by
      rw [expression]
      exact .fail
  | .binary _ _ lhs rhs => by
      rw [expression, Node.callees]
      refine (expression_imports p lhs).bind fun x => ?_
      exact (expression_imports p rhs).map fun y => .binary _ _ x y
  | .negate _ operand => by
      rw [expression, Node.callees]
      exact (expression_imports p operand).map fun x => .unary _ _ x
  | .conditional _ _ test thenArm elseArm => by
      rw [expression, Node.callees]
      exact .conditional (expression_imports p test) (expression_imports p thenArm)
        (expression_imports p elseArm)
  | .function _ _ _ _ => by
      rw [expression]
      exact .fail
  | .call _ _ args => by
      rw [expression, Node.callees]
      exact .call (arguments_imports p args)

theorem arguments_imports (p : Program) :
    ∀ nodes : List Node, Imports p (Node.calleesOf nodes) (arguments p nodes)
  | [] => by
      rw [arguments]
      exact .pure _
  | node :: rest => by
      rw [arguments, Node.calleesOf]
      refine (expression_imports p node).bind fun x => ?_
      exact (arguments_imports p rest).map fun _ => .pure _

end

theorem statements_imports (p : Program) :
    ∀ nodes : List Node, Imports p (Node.calleesOf nodes) (statements p nodes)
  | [] => by
      intro B tv B' h i hi
      obtain ⟨v, B₁, h₁, h⟩ := Builds.bind h
      obtain ⟨-, rfl⟩ := h.pure
      obtain ⟨-, rfl⟩ := h₁.build
      exact Or.inl hi
  | [node] => by
      rw [Node.calleesOf, Node.calleesOf, List.append_nil]
      exact expression_imports p node
  | node :: next :: rest => by
      rw [Node.calleesOf]
      exact (expression_imports p node).bind fun _ => statements_imports p (next :: rest)

end Lower

/-- A routine imports built-in routines and what the names that its body calls stand for. -/
theorem Routine.lower_imports {p : Program} {types : TypeTable} {name : String} {anonymous : Bool}
    {nodes : List Node} {r : Routine} (h : (Routine.lower p types name anonymous nodes).1 = .ok r) :
    ∀ i ∈ r.code.imports, p.Offers (Node.calleesOf nodes) i := by
  obtain ⟨tv, E, hb, rfl⟩ := Routine.lower_ok h
  intro i hi
  exact (Lower.statements_imports p nodes _ _ _ hb i hi).resolve_left List.not_mem_nil

end ScalarLang
