import Mathlib
import ScalarLang.Proofs.Lower.Builds
import ScalarLang.Proofs.Lower.Numbering
import ScalarLang.Proofs.Parse.Spans
import ScalarLang.Proofs.Program
import ScalarLang.Proofs.Semantics.Judgement

/-
  Lowering checks types.
  How a step ends does not depend on the code so far. `Decides` says what is known of a step whether
  it succeeds or fails. Where an expression is lowered, success means that it has the type that is
  given, and failure that it has none, with the error at a place in the expression. Since lowering
  always ends in one of the two ways, it succeeds if and only if there is a type.
  One failure is no error that is reported: lowering is abandoned at a call of a function that
  returns nothing. A program where every function returns a value has no such call.
-/

namespace ScalarLang

namespace Lower

variable {α β : Type} {x : Lower α} {P : α → Prop} {Q : β → Prop} {Bad Bad' : LowerError → Prop}

/-- What is given is good, or the error is bad. -/
def Outcome (Good : α → Prop) (Bad : LowerError → Prop) : Except LowerError α → Prop
  | .ok a => Good a
  | .error e => Bad e

/-- From every state the step ends in this way. -/
def Decides (x : Lower α) (Good : α → Prop) (Bad : LowerError → Prop) : Prop :=
  ∀ s : LowerState, Outcome Good Bad (x s : Except LowerError α × LowerState).1

/-- From every state the step gives something good. -/
abbrev Succeeds (x : Lower α) (Good : α → Prop) : Prop := Decides x Good fun _ => False

namespace Decides

theorem pure {a : α} (h : P a) : Decides (pure a) P Bad := fun _ => h

theorem fail {kind : LowerErrorKind} {span : Span} {hint : Option String}
    (h : Bad ⟨kind, span, hint⟩) : Decides (fail kind span hint : Lower α) P Bad := fun _ => h

theorem build (x : Ir.Build α) : Succeeds (build x) fun _ => True := fun _ => trivial

theorem useType (ty : ScalarType) : Succeeds (useType ty) fun _ => True := fun _ => trivial

theorem mono {P' : α → Prop} (hx : Decides x P Bad) (hP : ∀ a, P a → P' a)
    (hBad : ∀ e, Bad e → Bad' e) : Decides x P' Bad' := by
  intro s
  have h := hx s
  revert h
  cases (x s : Except LowerError α × LowerState).1 with
  | ok a => exact hP a
  | error e => exact hBad e

theorem bind {f : α → Lower β} (hx : Decides x P Bad) (hf : ∀ a, P a → Decides (f a) Q Bad')
    (hBad : ∀ e, Bad e → Bad' e) : Decides (x >>= f) Q Bad' := by
  intro s
  have h := hx s
  change Outcome Q Bad' ((ExceptT.bindCont f (x s).1) (x s).2 : Except LowerError β × LowerState).1
  revert h
  rcases x s with ⟨e | a, s'⟩
  · exact hBad e
  · exact fun h => hf a h s'

/-- A step that cannot fail comes first. -/
theorem step {f : α → Lower β} (hx : Succeeds x P) (hf : ∀ a, P a → Decides (f a) Q Bad) :
    Decides (x >>= f) Q Bad :=
  hx.bind hf fun _ h => h.elim

/-- Some building comes first. -/
theorem built {y : Ir.Build α} {f : α → Lower β} (hf : ∀ a, Decides (f a) Q Bad) :
    Decides (Lower.build y >>= f) Q Bad :=
  (build y).step fun a _ => hf a

end Decides

end Lower

/-- Each function returns a value. -/
def Program.ReturnsValues (p : Program) : Prop := ∀ r ∈ p.routines, r.signature.results ≠ []

/-- The error is reported; lowering was not abandoned. -/
def LowerError.Reported (e : LowerError) : Prop := e.kind ≠ .missingResult

open Lower (Decides Succeeds)

/-! ## Operations -/

namespace ScalarType

theorem binaryImpl?_eq_none_iff {ty : ScalarType} {op : BinaryOp} :
    ty.binaryImpl? op = none ↔ op ∉ ty.operators := by
  cases ty <;> cases op <;> simp [binaryImpl?, operators, BinaryOp.all, BinaryOp.comparisons,
    BinaryImpl.ofBoolean?, BinaryImpl.ofFloat?]

theorem resultType_eq {ty : ScalarType} {op : BinaryOp} {impl : BinaryImpl}
    (h : ty.binaryImpl? op = some impl) : impl.resultType ty = ty.resultOf op := by
  cases ty <;> cases op <;> cases h <;> rfl

theorem unaryImpl?_negate_eq_none_iff {ty : ScalarType} :
    ty.unaryImpl? .negate = none ↔ ¬ ty.HasNegation := by
  cases ty <;> simp [unaryImpl?, HasNegation]

theorem resultType_negate {ty : ScalarType} {impl : UnaryImpl}
    (h : ty.unaryImpl? .negate = some impl) : impl.resultType ty = ty := by
  cases ty <;> cases h <;> rfl

end ScalarType

theorem BinaryImpl.apply_succeeds (impl : BinaryImpl) (lhs rhs : TypedValue) :
    Succeeds (impl.apply lhs rhs) (·.type = impl.resultType lhs.type) := by
  cases impl with
  | int op => exact .built fun _ => .pure rfl
  | intDiv signed => exact .built fun _ => .pure rfl
  | intShr signed => exact .built fun _ => .pure rfl
  | intCompare cc => exact .built fun _ => (Decides.useType _).step fun _ _ => .pure rfl
  | floatCompare cc => exact .built fun _ => (Decides.useType _).step fun _ _ => .pure rfl
  | float op =>
      refine .built fun _ => ?_
      split
      · exact .built fun _ => .pure rfl
      · exact .pure rfl
  | widenBoolean op =>
      exact (Decides.useType _).step fun _ _ => .built fun _ => .built fun _ => .built fun _ =>
        .pure rfl

theorem UnaryImpl.apply_succeeds (impl : UnaryImpl) (operand : TypedValue) :
    Succeeds (impl.apply operand) (·.type = impl.resultType operand.type) := by
  cases impl with
  | intNegate => exact .built fun _ => .pure rfl
  | floatNegate => exact .built fun _ => .pure rfl
  | identity => exact .pure rfl
  | intTruthy => exact (Decides.useType _).step fun _ _ => .built fun _ => .pure rfl
  | floatTruthy =>
      exact (Decides.useType _).step fun _ _ => .built fun _ => .built fun _ => .built fun _ =>
        .pure rfl

namespace Lower

variable {p : Program} {span : Span}

/-- A table's answer, or an error at the span. -/
theorem orFail_decides {α : Type} (span : Span) (r : Except TypeError α) :
    Decides (orFail span r) (r = .ok ·) fun e =>
      (∃ err, r = .error err) ∧ e.span = span ∧ e.Reported := by
  cases r with
  | ok a => exact .pure rfl
  | error err => exact .fail ⟨⟨err, rfl⟩, rfl, by simp [LowerError.Reported]⟩

/-- Operands of one type that has the operator. -/
theorem binary_decides (op : BinaryOp) (lhs rhs : TypedValue) :
    Decides (binary span op lhs rhs)
      (fun tv => lhs.type = rhs.type ∧ op ∈ lhs.type.operators ∧ tv.type = lhs.type.resultOf op)
      fun e => ¬ (lhs.type = rhs.type ∧ op ∈ lhs.type.operators) ∧ e.span = span ∧
        e.Reported := by
  unfold binary
  split
  · rename_i htype
    refine (orFail_decides span _).bind (fun impl himpl => ?_) ?_
    · unfold ScalarType.binaryImpl at himpl
      split at himpl
      · rename_i impl' hi
        obtain rfl : impl' = impl := Except.ok.inj himpl
        have hop : op ∈ lhs.type.operators := by
          by_contra hop
          rw [ScalarType.binaryImpl?_eq_none_iff.mpr hop] at hi
          cases hi
        exact (impl'.apply_succeeds lhs rhs).mono
          (fun tv htv => ⟨htype, hop, htv.trans (ScalarType.resultType_eq hi)⟩) fun _ h => h.elim
      · cases himpl
    · rintro e ⟨⟨err, herr⟩, hplace⟩
      unfold ScalarType.binaryImpl at herr
      split at herr
      · cases herr
      · rename_i hnone
        exact ⟨fun h => ScalarType.binaryImpl?_eq_none_iff.mp hnone h.2, hplace⟩
  · rename_i htype
    exact .fail ⟨fun h => htype h.1, rfl, by simp [LowerError.Reported]⟩

theorem negate_decides (operand : TypedValue) :
    Decides (unary span .negate operand)
      (fun tv => operand.type.HasNegation ∧ tv.type = operand.type)
      fun e => ¬ operand.type.HasNegation ∧ e.span = span ∧ e.Reported := by
  refine (orFail_decides span _).bind (fun impl himpl => ?_) ?_
  · unfold ScalarType.unaryImpl at himpl
    split at himpl
    · rename_i impl' hi
      obtain rfl : impl' = impl := Except.ok.inj himpl
      have hneg : operand.type.HasNegation := by
        by_contra hneg
        rw [ScalarType.unaryImpl?_negate_eq_none_iff.mpr hneg] at hi
        cases hi
      exact (impl'.apply_succeeds operand).mono
        (fun tv htv => ⟨hneg, htv.trans (ScalarType.resultType_negate hi)⟩) fun _ h => h.elim
    · cases himpl
  · rintro e ⟨⟨err, herr⟩, hplace⟩
    unfold ScalarType.unaryImpl at herr
    split at herr
    · cases herr
    · rename_i hnone
      exact ⟨ScalarType.unaryImpl?_negate_eq_none_iff.mp hnone, hplace⟩

/-- Every value has a truth. -/
theorem boolify_succeeds (operand : TypedValue) :
    Succeeds (unary span .boolify operand) fun _ => True := by
  refine (orFail_decides span _).bind (fun impl _ => ?_) ?_
  · exact (impl.apply_succeeds operand).mono (fun _ _ => trivial) fun _ h => h
  · rintro e ⟨⟨err, herr⟩, -⟩
    unfold ScalarType.unaryImpl at herr
    cases hty : operand.type <;> rw [hty] at herr <;> cases herr

theorem parkTest_succeeds (form : ConditionalForm) (test : TypedValue) :
    Succeeds (parkTest form test) fun _ => True := by
  cases form with
  | ifForm => exact .built fun _ => .built fun _ => .pure trivial
  | whenForm => exact .pure trivial

theorem meetingSlot_succeeds (parked : Option Ir.SlotId) (size : Nat) (u w : Ir.ValueId)
    (thenExit elseExit : Nat) :
    Succeeds (meetingSlot parked size u w thenExit elseExit) fun _ => True := by
  cases parked with
  | some slot => exact .pure trivial
  | none =>
      exact .built fun _ => .built fun _ => .built fun _ => .built fun _ => .built fun _ =>
        .pure trivial

theorem closedArm_decides {arm : Lower TypedValue} {Good : TypedValue → Prop}
    {Bad : LowerError → Prop} (h : Decides arm Good Bad) (parked : Option Ir.SlotId)
    (join : Ir.BlockId) : Decides (closedArm arm parked join) (fun r => Good r.1) Bad := by
  refine h.bind (fun v hv => ?_) fun _ he => he
  cases parked with
  | some slot => exact .built fun _ => .built fun _ => .pure hv
  | none => exact .built fun _ => .pure hv

/-! ## Expressions -/

/-- What success in lowering an expression means. -/
def Typed (p : Program) (node : Node) (tv : TypedValue) : Prop := HasType p node tv.type

/-- What failure in lowering an expression means: it has no type, and if spans nest then the error
    is at a place in the expression. It is reported if all functions return values. -/
def Untyped (p : Program) (node : Node) (e : LowerError) : Prop :=
  ¬ WellTyped p node ∧ (node.Nested → e.span.Within node.span) ∧ (p.ReturnsValues → e.Reported)

/-- Lowering the expression succeeds with its type or fails because there is none. -/
def Checks (p : Program) (node : Node) : Prop :=
  Decides (expression p node) (Typed p node) (Untyped p node)

/-- Failure in lowering a part of an expression. -/
theorem Untyped.of_part {node part : Node} {e : LowerError} (h : Untyped p part e)
    (hnode : WellTyped p node → WellTyped p part)
    (hpart : node.Nested → part.span.Within node.span ∧ part.Nested) : Untyped p node e := by
  refine ⟨fun hn => h.1 (hnode hn), fun hn => ?_, h.2.2⟩
  obtain ⟨hspan, hnested⟩ := hpart hn
  exact (h.2.1 hnested).trans hspan

section Parts

variable {lhs rhs operand test thenArm elseArm : Node}

theorem Checks.binary (op : BinaryOp) (hl : Checks p lhs) (hr : Checks p rhs) :
    Checks p (.binary span op lhs rhs) := by
  rw [Checks, expression]
  refine hl.bind (fun x hx => hr.bind (fun y hy => ?_) ?_) ?_
  · refine (binary_decides op x y).mono ?_ ?_
    · rintro tv ⟨htype, hop, htv⟩
      rw [Typed, htv]
      exact .binary hx (htype ▸ hy) hop
    · rintro e ⟨hne, rfl, hreported⟩
      refine ⟨fun h => ?_, fun _ => .refl _, fun _ => hreported⟩
      obtain ⟨ty, hlhs, hrhs, hop⟩ := wellTyped_binary.mp h
      obtain rfl := hlhs.unique hx
      exact hne ⟨hrhs.unique hy, hop⟩
  · intro e he
    refine he.of_part (fun h => ?_) (·.2)
    obtain ⟨ty, -, hrhs, -⟩ := wellTyped_binary.mp h
    exact ⟨ty, hrhs⟩
  · intro e he
    refine he.of_part (fun h => ?_) (·.1)
    obtain ⟨ty, hlhs, -⟩ := wellTyped_binary.mp h
    exact ⟨ty, hlhs⟩

theorem Checks.negate (h : Checks p operand) : Checks p (.negate span operand) := by
  rw [Checks, expression]
  refine h.bind (fun x hx => (negate_decides x).mono ?_ ?_) ?_
  · rintro tv ⟨hneg, htv⟩
    rw [Typed, htv]
    exact .negate hx hneg
  · rintro e ⟨hne, rfl, hreported⟩
    refine ⟨fun h => ?_, fun _ => .refl _, fun _ => hreported⟩
    obtain ⟨ty, hoperand, hneg⟩ := wellTyped_negate.mp h
    exact hne (hoperand.unique hx ▸ hneg)
  · intro e he
    refine he.of_part (fun h => ?_) id
    obtain ⟨ty, hoperand, -⟩ := wellTyped_negate.mp h
    exact ⟨ty, hoperand⟩

theorem Checks.conditional (form : ConditionalForm) (ht : Checks p test) (ha : Checks p thenArm)
    (he : Checks p elseArm) : Checks p (.conditional span form test thenArm elseArm) := by
  rw [Checks, expression]
  refine .built fun _ => .built fun _ => .built fun _ => .built fun _ => .built fun _ =>
    .built fun _ => ht.bind (fun t ht => ?_) ?_
  · refine (parkTest_succeeds form t).step fun parked _ => (boolify_succeeds t).step fun _ _ =>
      .built fun _ => .built fun _ => (closedArm_decides ha parked _).bind (fun a ha => ?_) ?_
    · refine .built fun _ => (closedArm_decides he parked _).bind (fun b hb => ?_) ?_
      · dsimp only
        split
        · rename_i htype
          refine (meetingSlot_succeeds _ _ _ _ _ _).step fun _ _ => .built fun _ =>
            .built fun _ => .pure ?_
          exact .conditional ht ha (htype ▸ hb)
        · rename_i htype
          refine .fail ⟨fun h => ?_, fun hn => hn.2.1.1, fun _ => by simp [LowerError.Reported]⟩
          obtain ⟨-, ty, hthen, helse⟩ := wellTyped_conditional.mp h
          exact htype ((ha.unique hthen).trans (helse.unique hb))
      · intro e he
        refine he.of_part (fun h => ?_) (·.2.2)
        obtain ⟨-, ty, -, helse⟩ := wellTyped_conditional.mp h
        exact ⟨ty, helse⟩
    · intro e he
      refine he.of_part (fun h => ?_) (·.2.1)
      obtain ⟨-, ty, hthen, -⟩ := wellTyped_conditional.mp h
      exact ⟨ty, hthen⟩
  · intro e he
    exact he.of_part (fun h => (wellTyped_conditional.mp h).1) (·.1)

/-- The arguments are lowered after the function was found and they were counted. -/
theorem Checks.call {callee : Ident} {args : List Node}
    (h : Decides (arguments p args) (fun _ => AllTyped p args) fun e => ∃ n ∈ args, Untyped p n e) :
    Checks p (.call span callee args) := by
  rw [Checks, expression]
  have hfind := p.find?_name callee.text
  unfold Lower.call
  split
  · rename_i hnone
    rw [hnone] at hfind
    refine .fail ⟨fun h => ?_, (·.1), fun _ => by simp [LowerError.Reported]⟩
    obtain ⟨r, hr, -⟩ := wellTyped_call.mp h
    cases hfind.symm.trans hr
  · rename_i index routine hsome
    rw [hsome] at hfind
    split
    · rename_i harity
      refine h.bind (fun _ hargs => .built fun _ => .built fun _ => .built fun _ => ?_) ?_
      · split
        · rename_i hempty
          have hempty := List.isEmpty_iff.mp hempty
          refine .fail ⟨fun h => ?_, fun _ => .refl _, fun hp => ?_⟩
          · obtain ⟨r, hr, -, hresults, -⟩ := wellTyped_call.mp h
            obtain rfl := Option.some.inj (hfind.symm.trans hr)
            exact hresults hempty
          · exact absurd hempty (hp routine (List.mem_of_find?_eq_some hfind))
        · rename_i hresults
          exact (Decides.useType _).step fun _ _ =>
            .pure (.call hfind harity (by simpa using hresults) hargs)
      · rintro e ⟨n, hn, he⟩
        refine he.of_part (fun h => ?_) fun hnested => Node.nestedIn_iff.mp hnested.2 n hn
        obtain ⟨r, -, -, -, hargs⟩ := wellTyped_call.mp h
        exact allTyped_iff.mp hargs n hn
    · rename_i harity
      refine .fail ⟨fun h => ?_, fun _ => .refl _, fun _ => by simp [LowerError.Reported]⟩
      obtain ⟨r, hr, harity', -⟩ := wellTyped_call.mp h
      obtain rfl := Option.some.inj (hfind.symm.trans hr)
      exact harity harity'

end Parts

mutual

theorem expression_checks (p : Program) : ∀ node : Node, Checks p node
  | .literal _ l => by
      rw [Checks, expression]
      exact .built fun _ => (Decides.useType _).step fun _ _ => .pure .literal
  | .name _ _ => by
      rw [Checks, expression]
      exact .fail ⟨not_wellTyped_name, fun _ => .refl _, fun _ => by simp [LowerError.Reported]⟩
  | .binary _ op lhs rhs => .binary op (expression_checks p lhs) (expression_checks p rhs)
  | .negate _ operand => .negate (expression_checks p operand)
  | .conditional _ form test thenArm elseArm =>
      .conditional form (expression_checks p test) (expression_checks p thenArm)
        (expression_checks p elseArm)
  | .function _ _ _ _ => by
      rw [Checks, expression]
      exact .fail ⟨not_wellTyped_function, (·.1), fun _ => by simp [LowerError.Reported]⟩
  | .call _ _ args => .call (arguments_decides p args)

theorem arguments_decides (p : Program) : ∀ nodes : List Node,
    Decides (arguments p nodes) (fun _ => AllTyped p nodes) fun e => ∃ n ∈ nodes, Untyped p n e
  | [] => by
      rw [arguments]
      exact .pure .nil
  | node :: rest => by
      rw [arguments]
      refine Decides.bind (expression_checks p node) (fun _ hnode => (arguments_decides p rest).bind
        (fun _ hrest => .pure (.cons hnode hrest)) ?_) ?_
      · rintro e ⟨n, hn, he⟩
        exact ⟨n, List.mem_cons_of_mem _ hn, he⟩
      · exact fun e he => ⟨node, List.mem_cons_self, he⟩

end

/-! ## Statements -/

/-- The type of what statements give: that of the last one, or of zero. -/
def ResultType (p : Program) (nodes : List Node) (ty : ScalarType) : Prop :=
  match nodes.getLast? with
  | some node => HasType p node ty
  | none => ty = .i64

/-- Lowering statements fails at the first one without a type. -/
def FirstUntyped (p : Program) (nodes : List Node) (e : LowerError) : Prop :=
  ∃ before node after, nodes = before ++ node :: after ∧ (∀ n ∈ before, WellTyped p n) ∧
    Untyped p node e

theorem statements_decides (p : Program) : ∀ nodes : List Node,
    Decides (statements p nodes)
      (fun tv => (∀ n ∈ nodes, WellTyped p n) ∧ ResultType p nodes tv.type) (FirstUntyped p nodes)
  | [] => .built fun _ => .pure ⟨by simp, rfl⟩
  | [node] => by
      refine (expression_checks p node).mono (fun tv htv => ⟨?_, htv⟩) fun e he => ?_
      · simpa using ⟨_, htv⟩
      · exact ⟨[], node, [], rfl, by simp, he⟩
  | node :: next :: rest => by
      refine Decides.bind (expression_checks p node) (fun x hx => ?_) ?_
      · refine (statements_decides p (next :: rest)).mono ?_ ?_
        · rintro tv ⟨htyped, hresult⟩
          refine ⟨List.forall_mem_cons.mpr ⟨⟨_, hx⟩, htyped⟩, ?_⟩
          rwa [ResultType, List.getLast?_cons_cons]
        · rintro e ⟨before, n, after, hsplit, htyped, hn⟩
          refine ⟨node :: before, n, after, by rw [hsplit]; rfl, ?_, hn⟩
          exact List.forall_mem_cons.mpr ⟨⟨_, hx⟩, htyped⟩
      · exact fun e he => ⟨[], node, next :: rest, rfl, by simp, he⟩

theorem typedDraft_decides {body : Lower TypedValue} (Good : ScalarType → Prop)
    {Bad : LowerError → Prop} (h : Decides body (fun tv => Good tv.type) Bad) (name : String)
    (anonymous : Bool) : Decides (draft name anonymous body) (fun r => Good r.returnType) Bad := by
  refine .built fun _ => .built fun _ => .built fun _ => .built fun _ =>
    (Decides.useType _).step fun _ _ => h.bind (fun tv htv => ?_) fun _ he => he
  exact .built fun _ => .built fun _ => .built fun _ => .built fun _ => .built fun _ =>
    .built fun _ => .built fun _ => .built fun _ => .built fun _ => .built fun _ =>
    .built fun _ => fun _ => htv

/-- What lowering statements with types comes to, lowering them with numbers comes to. -/
theorem lower_decides {p : Program} {nodes : List Node} (Good : ScalarType → Prop)
    {Bad : LowerError → Prop} (h : Decides (statements p nodes) (fun tv => Good tv.type) Bad)
    (types : TypeTable) (name : String) (anonymous : Bool) :
    Outcome (fun r => Good r.returnType) Bad (Routine.lower p types name anonymous nodes).1 := by
  rw [Routine.lower_eq]
  exact typedDraft_decides Good h name anonymous ⟨types, .start name⟩

end Lower

/-- Lowering succeeds with the type of the last statement or fails at the first one without a
    type. -/
theorem Routine.lower_outcome (p : Program) (types : TypeTable) (name : String) (anonymous : Bool)
    (nodes : List Node) : Lower.Outcome
      (fun r => (∀ n ∈ nodes, WellTyped p n) ∧ Lower.ResultType p nodes r.returnType)
      (Lower.FirstUntyped p nodes) (Routine.lower p types name anonymous nodes).1 :=
  Lower.lower_decides (fun ty => (∀ n ∈ nodes, WellTyped p n) ∧ Lower.ResultType p nodes ty)
    (Lower.statements_decides p nodes) types name anonymous

theorem Routine.lower_reported {p : Program} (hp : p.ReturnsValues) {types : TypeTable}
    {name : String} {anonymous : Bool} {nodes : List Node} {e : LowerError}
    (h : (Routine.lower p types name anonymous nodes).1 = .error e) : e.Reported := by
  have houtcome := Routine.lower_outcome p types name anonymous nodes
  rw [h] at houtcome
  obtain ⟨-, -, -, -, -, -, -, hreported⟩ := houtcome
  exact hreported hp

/-- A program with two functions of one name, of which the second takes an argument, and with a
    function that returns nothing. -/
def ambiguousProgram : Program :=
  { routines := [⟨"f", .i64, false, .empty "f" ⟨[], [.i64]⟩⟩,
      ⟨"f", .i64, false, .empty "f" ⟨[.i64], [.i64]⟩⟩, ⟨"g", .i64, false, .empty "g" ⟨[], []⟩⟩] }

end ScalarLang
