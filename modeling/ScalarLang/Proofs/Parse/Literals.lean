import Mathlib
import ScalarLang.Proofs.Binary.Half
import ScalarLang.Proofs.Parse.Words

/-
  The literals of a tree.
  A half literal is carried in single precision. The parser rounds it when it reads it, so every
  literal of a tree that was read is a value of its type.
-/

namespace ScalarLang

/-- A half literal is a half. -/
def Literal.Rounded : Literal → Prop
  | .float16 x => x.IsHalf
  | _ => True

mutual

/-- All literals of the tree are rounded. -/
def Node.Rounded : Node → Prop
  | .literal _ l => l.Rounded
  | .name _ _ => True
  | .binary _ _ lhs rhs => lhs.Rounded ∧ rhs.Rounded
  | .negate _ operand => operand.Rounded
  | .conditional _ _ test thenArm elseArm => test.Rounded ∧ thenArm.Rounded ∧ elseArm.Rounded
  | .function _ _ _ body => Node.AllRounded body
  | .call _ _ args => Node.AllRounded args

def Node.AllRounded : List Node → Prop
  | [] => True
  | node :: rest => node.Rounded ∧ Node.AllRounded rest

end

theorem Node.allRounded_iff {nodes : List Node} :
    AllRounded nodes ↔ ∀ node ∈ nodes, node.Rounded := by
  induction nodes with
  | nil => simp [AllRounded]
  | cons node rest ih => rw [AllRounded, List.forall_mem_cons, ih]

theorem NumberToken.float_rounded (lexeme : String) : (float lexeme).Rounded := by
  unfold float
  dsimp only
  split
  · trivial
  · trivial
  · exact Binary.isHalf_roundHalf _
  · exact Binary.isHalf_roundHalf _
  · trivial

theorem Token.literal_rounded {t : Token} {l : Literal} (h : t.literal? = some (.ok l)) :
    l.Rounded := by
  unfold Token.literal? at h
  split at h
  case h_5 =>
    unfold NumberToken.signed at h
    dsimp only at h
    split at h <;> cases h
    trivial
  case h_6 =>
    unfold NumberToken.unsigned at h
    dsimp only at h
    split at h <;> cases h
    trivial
  case h_7 =>
    cases h
    exact NumberToken.float_rounded _
  all_goals cases h <;> trivial

namespace Parser

/-! ## Expressions -/

theorem nameOrCall_rounded {args : Parser (List Node)} (hargs : Yields args Node.AllRounded) :
    Yields (nameOrCall args) Node.Rounded := by
  refine Yields.expectIdent.bind fun callee _ => Yields.current.bind fun next _ => ?_
  split
  · exact Yields.advance.bind fun _ _ => hargs.bind fun _ hargs => (Yields.expect _).bind fun _ _ =>
      .pure hargs
  · exact .pure trivial

section Nested

variable {expr : Parser Node} (hexpr : Yields expr Node.Rounded)
include hexpr

theorem arguments_rounded (count : Nat) : Yields (arguments expr count) Node.AllRounded := by
  induction count with
  | zero => exact .pure trivial
  | succ count ih =>
      refine Yields.current.bind fun token _ => ?_
      split
      · exact .pure trivial
      · refine hexpr.bind fun _ harg => Yields.current.bind fun next _ => ?_
        split
        · exact Yields.advance.bind fun _ _ => ih.bind fun _ hrest => .pure ⟨harg, hrest⟩
        · exact .pure ⟨harg, trivial⟩

theorem parenthesized_rounded : Yields (parenthesized expr) Node.Rounded :=
  Yields.advance.bind fun _ _ => hexpr.bind fun _ hinner => (Yields.expect _).bind fun _ _ =>
    .pure hinner

theorem conditional_rounded (form : ConditionalForm) :
    Yields (conditional expr form) Node.Rounded := by
  refine Yields.current.bind fun start _ => Yields.advance.bind fun _ _ => hexpr.bind fun _ htest =>
    hexpr.bind fun _ hthen => Yields.current.bind fun next _ => ?_
  split
  · exact Yields.advance.bind fun _ _ => hexpr.bind fun _ helse => .pure ⟨htest, hthen, helse⟩
  · exact .unexpected _ _

theorem primary_rounded (count : Nat) : Yields (primary expr count) Node.Rounded := by
  refine Yields.current.bind fun token _ => ?_
  split
  · rename_i hliteral
    exact Yields.advance.bind fun _ _ => .pure (Token.literal_rounded hliteral)
  · exact Yields.advance.bind fun _ _ => .fail _ _ _
  · split
    · exact nameOrCall_rounded (arguments_rounded hexpr count)
    · exact parenthesized_rounded hexpr
    · exact conditional_rounded hexpr _
    · exact conditional_rounded hexpr _
    · exact .fail _ _ _
    · exact .fail _ _ _

theorem operand_rounded (count : Nat) : Yields (operand expr count) Node.Rounded := by
  induction count with
  | zero => exact Yields.current.bind fun _ _ => .fail _ _ _
  | succ count ih =>
      refine Yields.current.bind fun token _ => ?_
      split
      · refine Yields.advance.bind fun _ _ => Yields.current.bind fun next _ => ?_
        split
        · exact Yields.advance.bind fun _ _ => .pure trivial
        · exact ih.bind fun _ hinner => .pure hinner
      · exact primary_rounded hexpr (count + 1)

end Nested

theorem climb_rounded {expr : Nat → Parser Node} (hexpr : ∀ level, Yields (expr level) Node.Rounded)
    (level count : Nat) {lhs : Node} (hlhs : lhs.Rounded) :
    Yields (climb expr level count lhs) Node.Rounded := by
  induction count generalizing lhs with
  | zero => exact .pure hlhs
  | succ count ih =>
      refine Yields.current.bind fun token _ => ?_
      split
      · exact .pure hlhs
      · split
        · exact .pure hlhs
        · exact Yields.advance.bind fun _ _ => (hexpr _).bind fun _ hrhs => ih ⟨hlhs, hrhs⟩

theorem expression_rounded (fuel level : Nat) : Yields (expression fuel level) Node.Rounded := by
  induction fuel generalizing level with
  | zero => exact Yields.current.bind fun _ _ => .fail _ _ _
  | succ fuel ih =>
      exact (operand_rounded (ih 0) _).bind fun _ hlhs => climb_rounded ih level _ hlhs

/-! ## Fragments -/

theorem body_rounded {expr : Parser Node} (hexpr : Yields expr Node.Rounded) (count : Nat) :
    Yields (body expr count) Node.AllRounded := by
  induction count with
  | zero => exact .pure trivial
  | succ count ih =>
      refine Yields.current.bind fun token _ => ?_
      split
      · exact .pure trivial
      · refine .refuse _ _ _ ?_
        exact hexpr.bind fun _ hnode => (Yields.endOfStatement _).bind fun _ _ =>
          Yields.skipSeparators.bind fun _ _ => ih.bind fun _ hrest => .pure ⟨hnode, hrest⟩

theorem functionDef_rounded {expr : Parser Node} (hexpr : Yields expr Node.Rounded) (count : Nat) :
    Yields (functionDef expr count) Node.Rounded := by
  refine (Yields.expect _).bind fun start _ => Yields.expectIdent.bind fun name _ =>
    (Yields.expect _).bind fun _ _ => Yields.current.bind fun next _ => .refuse _ _ _ ?_
  exact (Yields.expect _).bind fun _ _ => (Yields.expect _).bind fun _ _ =>
    Yields.skipSeparators.bind fun _ _ => (body_rounded hexpr count).bind fun nodes hnodes =>
    (Yields.expect _).bind fun close _ => .refuse _ _ _ (.pure hnodes)

theorem statement_rounded (fuel : Nat) : Yields (statement fuel) Node.Rounded := by
  refine Yields.current.bind fun token _ => ?_
  split
  · exact functionDef_rounded (expression_rounded fuel 0) fuel
  · exact expression_rounded fuel 0

theorem topLevel_rounded (fuel : Nat) : Yields (topLevel fuel) Node.Rounded :=
  (statement_rounded fuel).bind fun _ hnode => (Yields.endOfStatement _).bind fun _ _ => .pure hnode

end Parser

/-- All literals of a fragment that was read are rounded. -/
theorem Fragment.parse_rounded {source : String} {f : Fragment} (h : parse source = .ok f) :
    (∀ d ∈ f.definitions, Node.AllRounded d.body) ∧ Node.AllRounded f.statements := by
  have hread := parse_yields Parser.topLevel_rounded h
  constructor
  · intro d hd
    obtain ⟨node, hnode, hd⟩ := List.mem_filterMap.mp hd
    have hrounded := hread node hnode
    cases node <;> cases hd
    exact hrounded
  · exact Node.allRounded_iff.mpr fun node hnode => hread node (List.mem_filter.mp hnode).1

end ScalarLang
