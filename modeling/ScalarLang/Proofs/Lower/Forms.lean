import Mathlib
import ScalarLang.Proofs.Lower.Checking

/-
  The forms of conditionals have no part in what is accepted.
  Trees are switched if they are the same but for the forms of any of their conditionals. Lowering
  them in programs whose names stand for routines of the same kind ends in the same way: with the
  same error, or with a value of the same type. Neither the code so far nor the table of types has
  a part in that, so two steps are compared from any two states.
-/

namespace ScalarLang

mutual

/-- The trees are the same but for the forms of conditionals. -/
inductive Node.Switched : Node → Node → Prop where
  | literal {span : Span} {l : Literal} : Switched (.literal span l) (.literal span l)
  | name {span : Span} {text : String} : Switched (.name span text) (.name span text)
  | binary {span : Span} {op : BinaryOp} {lhs lhs' rhs rhs' : Node} :
      Switched lhs lhs' → Switched rhs rhs' →
      Switched (.binary span op lhs rhs) (.binary span op lhs' rhs')
  | negate {span : Span} {operand operand' : Node} :
      Switched operand operand' → Switched (.negate span operand) (.negate span operand')
  | conditional {span : Span} {form form' : ConditionalForm}
      {test test' thenArm thenArm' elseArm elseArm' : Node} :
      Switched test test' → Switched thenArm thenArm' → Switched elseArm elseArm' →
      Switched (.conditional span form test thenArm elseArm)
        (.conditional span form' test' thenArm' elseArm')
  | function {span : Span} {name : Ident} {params : List Ident} {body body' : List Node} :
      SwitchedAll body body' →
      Switched (.function span name params body) (.function span name params body')
  | call {span : Span} {callee : Ident} {args args' : List Node} :
      SwitchedAll args args' → Switched (.call span callee args) (.call span callee args')

/-- The trees are switched one by one. -/
inductive Node.SwitchedAll : List Node → List Node → Prop where
  | nil : SwitchedAll [] []
  | cons {node node' : Node} {rest rest' : List Node} :
      Switched node node' → SwitchedAll rest rest' → SwitchedAll (node :: rest) (node' :: rest')

end

namespace Node

theorem Switched.span_eq {node node' : Node} (h : Switched node node') :
    node'.span = node.span := by
  cases h <;> rfl

theorem SwitchedAll.length_eq : ∀ {nodes nodes' : List Node}, SwitchedAll nodes nodes' →
    nodes'.length = nodes.length
  | _, _, .nil => rfl
  | _, _, .cons _ h => congrArg (· + 1) h.length_eq

mutual

theorem Switched.refl : ∀ node : Node, Switched node node
  | .literal _ _ => .literal
  | .name _ _ => .name
  | .binary _ _ lhs rhs => .binary (.refl lhs) (.refl rhs)
  | .negate _ operand => .negate (.refl operand)
  | .conditional _ _ test thenArm elseArm =>
      .conditional (.refl test) (.refl thenArm) (.refl elseArm)
  | .function _ _ _ body => .function (SwitchedAll.refl body)
  | .call _ _ args => .call (SwitchedAll.refl args)

theorem SwitchedAll.refl : ∀ nodes : List Node, SwitchedAll nodes nodes
  | [] => .nil
  | node :: rest => .cons (Switched.refl node) (SwitchedAll.refl rest)

end

end Node

/-- Names stand for routines of the same index, signature and type in both programs. -/
def Program.Resembles (p q : Program) : Prop :=
  ∀ name, Option.Rel (fun x y => y.1 = x.1 ∧ y.2.signature = x.2.signature ∧
    y.2.returnType = x.2.returnType) (p.lookup name) (q.lookup name)

theorem Program.Resembles.contains {p q : Program} (h : p.Resembles q) (name : String) :
    q.contains name = p.contains name := by
  have hname := h name
  unfold Program.contains
  generalize p.lookup name = found, q.lookup name = found' at hname ⊢
  cases hname <;> rfl

namespace Lower

variable {α α' β β' : Type} {x : Lower α} {x' : Lower α'} {R : α → α' → Prop} {S : β → β' → Prop}

/-! ## Steps side by side -/

/-- From any two states the steps end in the same way. -/
def Parallel (x : Lower α) (x' : Lower α') (R : α → α' → Prop) : Prop :=
  ∀ s s' : LowerState, Alongside R (x s : Except LowerError α × LowerState).1
    (x' s' : Except LowerError α' × LowerState).1

namespace Parallel

theorem pure {a : α} {a' : α'} (h : R a a') : Parallel (pure a) (pure a') R := fun _ _ => h

theorem fail {kind : LowerErrorKind} {span : Span} {hint : Option String} :
    Parallel (fail kind span hint : Lower α) (Lower.fail kind span hint : Lower α') R :=
  fun _ _ => rfl

theorem mono {R' : α → α' → Prop} (h : Parallel x x' R) (hR : ∀ a a', R a a' → R' a a') :
    Parallel x x' R' := by
  intro s s'
  have hs := h s s'
  revert hs
  rcases (x s : Except LowerError α × LowerState).1 with e | a <;>
    rcases (x' s' : Except LowerError α' × LowerState).1 with e' | a'
  · exact id
  · exact id
  · exact id
  · exact hR a a'

theorem bind {f : α → Lower β} {f' : α' → Lower β'} (hx : Parallel x x' R)
    (hf : ∀ a a', R a a' → Parallel (f a) (f' a') S) : Parallel (x >>= f) (x' >>= f') S := by
  intro s s'
  have h := hx s s'
  change Alongside S
    ((ExceptT.bindCont f (x s).1) (x s).2 : Except LowerError β × LowerState).1
    ((ExceptT.bindCont f' (x' s').1) (x' s').2 : Except LowerError β' × LowerState).1
  revert h
  rcases (x s : Except LowerError α × LowerState) with ⟨e | a, t⟩ <;>
    rcases (x' s' : Except LowerError α' × LowerState) with ⟨e' | a', t'⟩
  · exact id
  · exact False.elim
  · exact False.elim
  · exact fun h => hf a a' h t t'

/-- Steps that cannot fail. -/
theorem of_succeeds {P : α → Prop} {P' : α' → Prop} (h : Succeeds x P) (h' : Succeeds x' P') :
    Parallel x x' fun a a' => P a ∧ P' a' := by
  intro s s'
  have hs := h s
  have hs' := h' s'
  revert hs hs'
  rcases (x s : Except LowerError α × LowerState) with ⟨e | a, t⟩
  · exact False.elim
  rcases (x' s' : Except LowerError α' × LowerState) with ⟨e' | a', t'⟩
  · exact fun _ => False.elim
  · exact fun hs hs' => ⟨hs, hs'⟩

/-- Some building comes first on both sides. -/
theorem built {y : Ir.Build α} {y' : Ir.Build α'} {f : α → Lower β} {f' : α' → Lower β'}
    (hf : ∀ a a', Parallel (f a) (f' a') S) :
    Parallel (build y >>= f) (build y' >>= f') S :=
  (of_succeeds (.build y) (.build y')).bind fun a a' _ => hf a a'

/-- Something that cannot fail comes first on both sides. -/
theorem step {P : α → Prop} {P' : α' → Prop} {f : α → Lower β} {f' : α' → Lower β'}
    (h : Succeeds x P) (h' : Succeeds x' P') (hf : ∀ a a', Parallel (f a) (f' a') S) :
    Parallel (x >>= f) (x' >>= f') S :=
  (of_succeeds h h').bind fun a a' _ => hf a a'

end Parallel

/-- Values of the same type. -/
def SameType (tv tv' : TypedValue) : Prop := tv'.type = tv.type

variable {span : Span} {lhs lhs' rhs rhs' operand operand' : TypedValue}

theorem orFail_parallel (r : Except TypeError α) :
    Parallel (orFail span r) (orFail span r) (fun a a' => a' = a) := by
  cases r with
  | ok a => exact .pure rfl
  | error e => exact .fail

theorem binary_parallel (op : BinaryOp) (hl : SameType lhs lhs') (hr : SameType rhs rhs') :
    Parallel (binary span op lhs rhs) (binary span op lhs' rhs') SameType := by
  unfold binary
  rw [hl, hr]
  split
  · refine (orFail_parallel _).bind fun impl impl' himpl => ?_
    subst himpl
    refine (Parallel.of_succeeds (impl'.apply_succeeds lhs rhs)
      (impl'.apply_succeeds lhs' rhs')).mono fun tv tv' ⟨h, h'⟩ => ?_
    rw [SameType, h, h', hl]
  · exact .fail

theorem unary_parallel (op : UnaryOperator) (h : SameType operand operand') :
    Parallel (unary span op operand) (unary span op operand') SameType := by
  unfold unary
  rw [h]
  refine (orFail_parallel _).bind fun impl impl' himpl => ?_
  subst himpl
  refine (Parallel.of_succeeds (impl'.apply_succeeds operand)
    (impl'.apply_succeeds operand')).mono fun tv tv' ⟨htv, htv'⟩ => ?_
  rw [SameType, htv, htv', h]

/-! ## Expressions -/

theorem closedArm_parallel {arm arm' : Lower TypedValue} (h : Parallel arm arm' SameType)
    (parked parked' : Option Ir.SlotId) (join join' : Ir.BlockId) :
    Parallel (closedArm arm parked join) (closedArm arm' parked' join')
      fun r r' => SameType r.1 r'.1 := by
  -- what follows the arm cannot fail and hands its value on
  have hleft (v : TypedValue) (parked : Option Ir.SlotId) (join : Ir.BlockId) :
      Succeeds (closedArm (pure v) parked join) fun r => r.1 = v := by
    have hpure : Succeeds (pure v : Lower TypedValue) (· = v) := .pure rfl
    exact closedArm_decides hpure parked join
  refine h.bind fun v v' hv => ?_
  refine (Parallel.of_succeeds (hleft v parked join) (hleft v' parked' join')).mono ?_
  rintro r r' ⟨rfl, rfl⟩
  exact hv

theorem conditional_parallel {form form' : ConditionalForm} {testSpan thenSpan : Span}
    {test test' thenArm thenArm' elseArm elseArm' : Lower TypedValue}
    (ht : Parallel test test' SameType) (ha : Parallel thenArm thenArm' SameType)
    (he : Parallel elseArm elseArm' SameType) :
    Parallel (conditional form testSpan thenSpan test thenArm elseArm)
      (conditional form' testSpan thenSpan test' thenArm' elseArm') SameType := by
  refine .built fun _ _ => .built fun _ _ => .built fun _ _ => .built fun _ _ => .built fun _ _ =>
    .built fun _ _ => ht.bind fun t t' _ => .step (parkTest_succeeds form t)
      (parkTest_succeeds form' t') fun parked parked' => .step (boolify_succeeds t)
      (boolify_succeeds t') fun _ _ => .built fun _ _ => .built fun _ _ =>
      (closedArm_parallel ha parked parked' _ _).bind fun u u' hu => .built fun _ _ =>
      (closedArm_parallel he parked parked' _ _).bind fun w w' hw => ?_
  obtain ⟨u, n⟩ := u
  obtain ⟨u', n'⟩ := u'
  obtain ⟨w, k⟩ := w
  obtain ⟨w', k'⟩ := w'
  have hu : u'.type = u.type := hu
  have hw : w'.type = w.type := hw
  dsimp only
  rw [hu, hw]
  split
  · exact .step (meetingSlot_succeeds _ _ _ _ _ _) (meetingSlot_succeeds _ _ _ _ _ _) fun _ _ =>
      .built fun _ _ => .built fun _ _ => .pure rfl
  · exact .fail

variable {p q : Program}

theorem call_parallel (hp : p.Resembles q) {callee : Ident} {count : Nat}
    {args args' : Lower (List Ir.ValueId)} (h : Parallel args args' fun _ _ => True) :
    Parallel (call p span callee count args) (call q span callee count args') SameType := by
  have hname := hp callee.text
  unfold call
  generalize p.lookup callee.text = found, q.lookup callee.text = found' at hname
  cases hname with
  | none => exact .fail
  | @some x y hxy =>
      obtain ⟨index, r⟩ := x
      obtain ⟨index', r'⟩ := y
      obtain ⟨-, hsignature, htype⟩ := hxy
      have harity : r'.arity = r.arity := congrArg (·.params.length) hsignature
      dsimp only
      rw [harity]
      split
      · refine h.bind fun _ _ _ => .built fun _ _ => .built fun _ _ => .built fun _ _ => ?_
        rw [hsignature]
        split
        · exact .fail
        · exact .step (.useType _) (.useType _) fun _ _ => .pure htype
      · exact .fail

mutual

theorem expression_parallel (hp : p.Resembles q) : ∀ {node node' : Node},
    node.Switched node' → Parallel (expression p node) (expression q node') SameType
  | _, _, .literal => by
      rw [expression, expression]
      exact .built fun _ _ => .step (.useType _) (.useType _) fun _ _ => .pure rfl
  | .name _ text, _, .name => by
      rw [expression, expression, bareName, bareName, hp.contains]
      exact .fail
  | _, _, .binary hl hr => by
      rw [expression, expression]
      exact (expression_parallel hp hl).bind fun _ _ hx => (expression_parallel hp hr).bind
        fun _ _ hy => binary_parallel _ hx hy
  | _, _, .negate h => by
      rw [expression, expression]
      exact (expression_parallel hp h).bind fun _ _ hx => unary_parallel _ hx
  | _, _, .conditional ht ha he => by
      rw [expression, expression, ht.span_eq, ha.span_eq]
      exact conditional_parallel (expression_parallel hp ht) (expression_parallel hp ha)
        (expression_parallel hp he)
  | _, _, .function _ => by
      rw [expression, expression]
      exact .fail
  | _, _, .call h => by
      rw [expression, expression, h.length_eq]
      exact call_parallel hp (arguments_parallel hp h)

theorem arguments_parallel (hp : p.Resembles q) : ∀ {nodes nodes' : List Node},
    Node.SwitchedAll nodes nodes' →
      Parallel (arguments p nodes) (arguments q nodes') fun _ _ => True
  | _, _, .nil => by
      rw [arguments, arguments]
      exact .pure trivial
  | _, _, .cons h hrest => by
      rw [arguments, arguments]
      exact (expression_parallel hp h).bind fun _ _ _ => (arguments_parallel hp hrest).bind
        fun _ _ _ => .pure trivial

end

theorem statements_parallel (hp : p.Resembles q) : ∀ {nodes nodes' : List Node},
    Node.SwitchedAll nodes nodes' →
      Parallel (statements p nodes) (statements q nodes') SameType
  | _, _, .nil => .built fun _ _ => .pure rfl
  | _, _, .cons h .nil => expression_parallel hp h
  | _, _, .cons h (.cons h' hrest) =>
      (expression_parallel hp h).bind fun _ _ _ => statements_parallel hp (.cons h' hrest)

theorem draft_parallel {body body' : Lower TypedValue} (h : Parallel body body' SameType)
    (name name' : String) (anonymous : Bool) :
    Parallel (draft name anonymous body) (draft name' anonymous body')
      fun r r' => r'.returnType = r.returnType := by
  refine .built fun _ _ => .built fun _ _ => .built fun _ _ => .built fun _ _ =>
    .step (.useType _) (.useType _) fun _ _ => h.bind fun tv tv' htv => ?_
  exact .built fun _ _ => .built fun _ _ => .built fun _ _ => .built fun _ _ => .built fun _ _ =>
    .built fun _ _ => .built fun _ _ => .built fun _ _ => .built fun _ _ => .built fun _ _ =>
    .built fun _ _ => fun _ _ => htv

end Lower

/-- Switched statements are lowered in both programs to routines that give the same type, or fail
    with the same error in both. -/
theorem Routine.lower_parallel {p q : Program} (hp : p.Resembles q) {nodes nodes' : List Node}
    (h : Node.SwitchedAll nodes nodes') (types types' : TypeTable) (name name' : String)
    (anonymous : Bool) :
    Lower.Alongside (fun r r' => r'.returnType = r.returnType)
      (Routine.lower p types name anonymous nodes).1
      (Routine.lower q types' name' anonymous nodes').1 := by
  rw [Routine.lower_eq, Routine.lower_eq]
  exact Lower.draft_parallel (Lower.statements_parallel hp h) name name' anonymous
    ⟨types, .start name⟩ ⟨types', .start name'⟩

end ScalarLang
