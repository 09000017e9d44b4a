import Mathlib
import ScalarLang.Proofs.Lower.Region

/-
  Numbers stand for types.
  Lowering tells types apart by their numbers in a table that grows on the way and that other
  sessions have filled before. A number keeps its type however the table grows, and two numbers are
  equal if and only if their types are, so each step does what it would do with the types
  themselves. A call gives a value if and only if its callee returns one, since what was imported
  under its index before has the same signature. `Follows` says this of two steps and is carried
  through the walk over the tree.
-/

namespace ScalarLang

namespace Lower

variable {α α' β β' : Type} {p : Program} {t t' : TypeTable}

/-! ## Steps with numbers and steps with types -/

/-- Both gave something and it is related, or both failed with one error. -/
def Alongside (R : α → β → Prop) : Except LowerError α → Except LowerError β → Prop
  | .ok a, .ok b => R a b
  | .error e, .error e' => e' = e
  | _, _ => False

theorem Alongside.eq {R : α → α → Prop} {x y : Except LowerError α} (h : Alongside R x y)
    (hR : ∀ a b, R a b → a = b) : x = y := by
  rcases x with e | a <;> rcases y with e' | b
  · exact congrArg _ (Eq.symm h)
  · exact False.elim h
  · exact False.elim h
  · exact congrArg _ (hR a b h)

theorem Alongside.of_ok {R : α → β → Prop} {x : Except LowerError α} {y : Except LowerError β}
    {a : α} (h : Alongside R x y) (hx : x = .ok a) : ∃ b, R a b := by
  subst hx
  rcases y with e | b
  · exact False.elim h
  · exact ⟨b, h⟩

/-- Over any table that has grown from `t`, and with imports from the program only, the steps leave
    one state of that kind, whose table has grown further, and end alike there. -/
def Follows (p : Program) (t : TypeTable) (x : Lower α) (y : Lower β)
    (R : TypeTable → α → β → Prop) : Prop :=
  ∀ s : LowerState, t.Grown s.types → s.builder.ImportsFrom p →
    (x s : Except LowerError α × LowerState).2 = (y s : Except LowerError β × LowerState).2 ∧
      s.types.Grown (y s : Except LowerError β × LowerState).2.types ∧
      (y s : Except LowerError β × LowerState).2.builder.ImportsFrom p ∧
      Alongside (R (y s : Except LowerError β × LowerState).2.types)
        (x s : Except LowerError α × LowerState).1 (y s : Except LowerError β × LowerState).1

/-- The value with its type has the number of that type in the table. -/
structure Denotes (t : TypeTable) (nv : NumberedValue) (tv : TypedValue) : Prop where
  value : nv.value = tv.value
  type : t.get? nv.number = some tv.type

theorem Denotes.grown {nv : NumberedValue} {tv : TypedValue} (h : Denotes t nv tv)
    (ht : t.Grown t') : Denotes t' nv tv :=
  ⟨h.value, ht.get? h.type⟩

/-- Values have one type if and only if they have one number. -/
theorem Denotes.number_eq_iff {lhs rhs : NumberedValue} {lhs' rhs' : TypedValue}
    (hl : Denotes t lhs lhs') (hr : Denotes t rhs rhs') :
    lhs.number = rhs.number ↔ lhs'.type = rhs'.type := by
  constructor
  · intro h
    exact Option.some.inj (hl.type.symm.trans (h ▸ hr.type))
  · intro h
    have hnumber := (t.inverse lhs'.type rhs.number).mpr (h ▸ hr.type)
    exact Option.some.inj (((t.inverse _ _).mpr hl.type).symm.trans hnumber)

namespace Follows

variable {x : Lower α} {y : Lower β} {R : TypeTable → α → β → Prop}
  {R' : TypeTable → α' → β' → Prop}

theorem pure {a : α} {b : β} (h : ∀ t', t.Grown t' → R t' a b) :
    Follows p t (pure a) (pure b) R :=
  fun s hs hB => ⟨rfl, .refl _, hB, h s.types hs⟩

theorem fail (kind : LowerErrorKind) (span : Span) (hint : Option String) :
    Follows p t (fail kind span hint : Lower α) (fail kind span hint : Lower β) R :=
  fun _ _ hB => ⟨rfl, .refl _, hB, rfl⟩

theorem bind {f : α → Lower α'} {g : β → Lower β'} (h : Follows p t x y R)
    (hf : ∀ t' a b, t.Grown t' → R t' a b → Follows p t' (f a) (g b) R') :
    Follows p t (x >>= f) (y >>= g) R' := by
  intro s hs hB
  obtain ⟨hstate, hgrown, himports, halike⟩ := h s hs hB
  simp only [Bind.bind, ExceptT.bind, ExceptT.mk, StateT.bind]
  rcases hx : (x s : Except LowerError α × LowerState) with ⟨r, s₁⟩
  rcases hy : (y s : Except LowerError β × LowerState) with ⟨r', s₂⟩
  rw [hx, hy] at hstate halike
  rw [hy] at hgrown himports
  obtain rfl : s₁ = s₂ := hstate
  rcases r with e | a <;> rcases r' with e' | b
  · exact ⟨rfl, hgrown, himports, halike⟩
  · exact False.elim halike
  · exact False.elim halike
  · obtain ⟨hstate', hgrown', hkept, halike'⟩ :=
      hf s₁.types a b (hs.trans hgrown) halike s₁ (.refl _) himports
    exact ⟨hstate', hgrown.trans hgrown', hkept, halike'⟩

section Built

variable {γ : Type} {z : Ir.Build γ} {f : γ → Lower α} {g : γ → Lower β}
  (hf : ∀ c, Follows p t (f c) (g c) R)
include hf

/-- The same building, which imports nothing, comes first on both sides. -/
theorem built (hz : ∀ B, (z B).2.function.imports = B.function.imports := by intro _; rfl) :
    Follows p t (build z >>= f) (build z >>= g) R := by
  intro s hs hB
  refine hf (z s.builder).1 { s with builder := (z s.builder).2 } hs ?_
  rw [Ir.Builder.ImportsFrom, hz]
  exact hB

/-- The same operation comes first on both sides. -/
theorem operated (hz : Ir.Build.Straight z) : Follows p t (build z >>= f) (build z >>= g) R :=
  fun s hs hB => hf (z s.builder).1 { s with builder := (z s.builder).2 } hs (hz.importsFrom hB)

end Built

/-- A call gives the value that is defined next, unless its callee returns nothing. -/
theorem called {index : Nat} {signature : Signature} {values : List Ir.ValueId}
    {f : Option Ir.ValueId → Lower α} {g : Ir.ValueId → Lower β}
    (hs : p.signatureAt? index = some signature)
    (h : ∀ v, Follows p t (f (if signature.results.isEmpty then none else some v)) (g v) R) :
    Follows p t
      (build (.importFunction index signature) >>= fun callee => build (.call callee values) >>= f)
      (build (.importFunction index signature) >>= fun callee => build .nextValue >>= fun v =>
        build (.call callee values) >>= fun _ => g v) R := by
  intro s ht hB
  have hcall := Ir.Build.call_apply _ values _ (hB.imported_fst hs)
  generalize hM : s.builder.imported index signature = M at hcall
  have himports : M.2.ImportsFrom p := hM ▸ hB.imported hs
  have hfirst : (List.range' M.2.function.values.length signature.results.length).head? =
      if signature.results.isEmpty then none else some M.2.function.values.length := by
    cases signature.results <;> rfl
  have hleft : (build (.importFunction index signature) >>= fun callee =>
      build (.call callee values) >>= f) s = f (Ir.Build.call M.1 values M.2).1
        { s with builder := (Ir.Build.call M.1 values M.2).2 } := by
    rw [← hM]
    rfl
  have hright : (build (.importFunction index signature) >>= fun callee => build .nextValue >>=
      fun v => build (.call callee values) >>= fun _ => g v) s = g M.2.function.values.length
        { s with builder := (Ir.Build.call M.1 values M.2).2 } := by
    rw [← hM]
    rfl
  rw [hleft, hright, hcall, hfirst]
  exact h _ _ ht himports

/-- A type is asked for on both sides; one of them goes on with the number. -/
theorem numbered (ty : ScalarType) :
    Follows p t (numberOf ty) (useType ty) fun t' n _ => t'.get? n = some ty :=
  fun s _ hB => ⟨rfl, .insert s.types ty, hB, s.types.get?_intern ty⟩

/-- Only the step with numbers looks a type up. -/
theorem looked {number : Nat} {ty : ScalarType} {f : ScalarType → Lower α}
    (hty : t.get? number = some ty) (h : Follows p t (f ty) y R) :
    Follows p t (typeAt number >>= f) y R := by
  intro s hs hB
  have hlook : (typeAt number >>= f) s = f ty s := by
    show f ((s.types.get? number).getD .i64) s = f ty s
    rw [hs.get? hty]
    rfl
  rw [hlook]
  exact h s hs hB

theorem orFail (span : Span) (r : Except TypeError α) :
    Follows p t (orFail span r) (orFail span r) fun _ a b => a = b := by
  cases r with
  | ok a => exact .pure fun _ _ => rfl
  | error e => exact .fail _ _ _

end Follows

end Lower

open Lower (Follows Denotes)

variable {p : Program} {t : TypeTable} {lhs rhs operand : NumberedValue}
  {lhs' rhs' operand' : TypedValue}

/-! ## Operations -/

theorem Literal.emit_follows (l : Literal) : Follows p t l.emit l.lower Denotes :=
  .built fun _ => (Follows.numbered _).bind fun _ _ _ _ hn =>
    .pure fun _ ht => ⟨rfl, ht.get? hn⟩

theorem BinaryImpl.emit_follows (impl : BinaryImpl) (hl : Denotes t lhs lhs')
    (hr : Denotes t rhs rhs') : Follows p t (impl.emit lhs rhs) (impl.apply lhs' rhs') Denotes := by
  have hkept {v : Ir.ValueId} {t' : TypeTable} (ht : t.Grown t') :
      Denotes t' ⟨v, lhs.number⟩ ⟨v, lhs'.type⟩ := ⟨rfl, ht.get? hl.type⟩
  unfold BinaryImpl.emit BinaryImpl.apply
  rw [← hl.value, ← hr.value]
  cases impl with
  | int op => exact .built fun _ => .pure fun _ => hkept
  | intDiv signed => exact .operated (fun _ => .pure fun _ => hkept) (.checkedDiv _ _ _)
  | intShr signed => exact .built fun _ => .pure fun _ => hkept
  | intCompare cc =>
      exact .built fun _ => (Follows.numbered _).bind fun _ _ _ _ hn =>
        .pure fun _ ht => ⟨rfl, ht.get? hn⟩
  | floatCompare cc =>
      exact .built fun _ => (Follows.numbered _).bind fun _ _ _ _ hn =>
        .pure fun _ ht => ⟨rfl, ht.get? hn⟩
  | float op =>
      refine .built fun _ => .looked hl.type ?_
      split
      · exact .operated (fun _ => .pure fun _ => hkept) (.roundHalf _)
      · exact .pure fun _ => hkept
  | widenBoolean op =>
      exact (Follows.numbered _).bind fun _ _ _ _ hn => .built fun _ => .built fun _ =>
        .built fun _ => .pure fun _ ht => ⟨rfl, ht.get? hn⟩

theorem UnaryImpl.emit_follows (impl : UnaryImpl) (h : Denotes t operand operand') :
    Follows p t (impl.emit operand) (impl.apply operand') Denotes := by
  have hkept {v : Ir.ValueId} {t' : TypeTable} (ht : t.Grown t') :
      Denotes t' ⟨v, operand.number⟩ ⟨v, operand'.type⟩ := ⟨rfl, ht.get? h.type⟩
  unfold UnaryImpl.emit UnaryImpl.apply
  rw [← h.value]
  cases impl with
  | intNegate => exact .built fun _ => .pure fun _ => hkept
  | floatNegate => exact .built fun _ => .pure fun _ => hkept
  | identity => exact .pure fun _ => h.grown
  | intTruthy =>
      exact (Follows.numbered _).bind fun _ _ _ _ hn => .built fun _ =>
        .pure fun _ ht => ⟨rfl, ht.get? hn⟩
  | floatTruthy =>
      exact (Follows.numbered _).bind fun _ _ _ _ hn => .built fun _ => .built fun _ =>
        .built fun _ => .pure fun _ ht => ⟨rfl, ht.get? hn⟩

namespace Emit

theorem binary_follows (span : Span) (op : BinaryOp) (hl : Denotes t lhs lhs')
    (hr : Denotes t rhs rhs') :
    Follows p t (binary span op lhs rhs) (Lower.binary span op lhs' rhs') Denotes := by
  refine .looked hl.type ?_
  unfold Lower.binary
  by_cases heq : lhs'.type = rhs'.type
  · rw [if_pos heq, if_pos ((hl.number_eq_iff hr).mpr heq)]
    refine (Follows.orFail span _).bind fun t' impl impl' ht himpl => ?_
    subst himpl
    exact impl.emit_follows (hl.grown ht) (hr.grown ht)
  · rw [if_neg heq, if_neg (mt (hl.number_eq_iff hr).mp heq)]
    exact .looked hr.type (.fail _ _ _)

theorem unary_follows (span : Span) (op : UnaryOperator) (h : Denotes t operand operand') :
    Follows p t (unary span op operand) (Lower.unary span op operand') Denotes := by
  refine .looked h.type ((Follows.orFail span _).bind fun t' impl impl' ht himpl => ?_)
  subst himpl
  exact impl.emit_follows (h.grown ht)

/-! ## Expressions -/

theorem parkTest_follows (form : ConditionalForm) (h : Denotes t operand operand') :
    Follows p t (parkTest form operand) (Lower.parkTest form operand') fun _ a b => a = b := by
  unfold parkTest Lower.parkTest
  rw [← h.value]
  cases form with
  | ifForm => exact .built fun _ => .built fun _ => .pure fun _ _ => rfl
  | whenForm => exact .pure fun _ _ => rfl

theorem closedArm_follows {arm : Lower NumberedValue} {arm' : Lower TypedValue}
    (h : Follows p t arm arm' Denotes) (parked : Option Ir.SlotId) (join : Ir.BlockId) :
    Follows p t (closedArm arm parked join) (Lower.closedArm arm' parked join)
      fun t' a b => Denotes t' a.1 b.1 ∧ a.2 = b.2 := by
  refine h.bind fun t' v v' _ hv => ?_
  rw [hv.value]
  cases parked with
  | some slot => exact .built fun _ => .built fun _ => .pure fun _ ht => ⟨hv.grown ht, rfl⟩
  | none => exact .built fun _ => .pure fun _ ht => ⟨hv.grown ht, rfl⟩

theorem meetingSlot_follows (parked : Option Ir.SlotId) (size : Nat) (u w : Ir.ValueId)
    (thenExit elseExit : Nat) :
    Follows p t (Lower.meetingSlot parked size u w thenExit elseExit)
      (Lower.meetingSlot parked size u w thenExit elseExit) fun _ a b => a = b := by
  cases parked with
  | some slot => exact .pure fun _ _ => rfl
  | none =>
      exact .built fun _ => .built fun _ => .built fun _ => .built fun _ => .built fun _ =>
        .pure fun _ _ => rfl

theorem conditional_follows {form : ConditionalForm} {testSpan thenSpan : Span}
    {test thenArm elseArm : Lower NumberedValue} {test' thenArm' elseArm' : Lower TypedValue}
    (ht : ∀ t, Follows p t test test' Denotes) (ha : ∀ t, Follows p t thenArm thenArm' Denotes)
    (he : ∀ t, Follows p t elseArm elseArm' Denotes) :
    Follows p t (conditional form testSpan thenSpan test thenArm elseArm)
      (Lower.conditional form testSpan thenSpan test' thenArm' elseArm') Denotes := by
  refine .built fun _ => .built fun _ => .built fun _ => .built fun _ => .built fun _ =>
    .built fun _ => (ht _).bind fun t₁ v v' _ hv =>
    (parkTest_follows form hv).bind fun t₂ parked parked' h₂ hparked => ?_
  subst hparked
  refine (unary_follows testSpan .boolify (hv.grown h₂)).bind fun t₃ c c' _ hc => ?_
  rw [hc.value]
  refine .built fun _ => .built fun _ => (closedArm_follows (ha _) parked _).bind
    fun t₄ u u' _ hu => .built fun _ => (closedArm_follows (he _) parked _).bind
    fun t₅ w w' h₅ hw => ?_
  obtain ⟨u, n⟩ := u
  obtain ⟨u', n'⟩ := u'
  obtain ⟨w, k⟩ := w
  obtain ⟨w', k'⟩ := w'
  obtain ⟨hu, rfl⟩ : Denotes t₄ u u' ∧ n = n' := hu
  obtain ⟨hw, rfl⟩ : Denotes t₅ w w' ∧ k = k' := hw
  have hu := hu.grown h₅
  refine .looked hu.type ?_
  dsimp only
  by_cases heq : u'.type = w'.type
  · rw [if_pos heq, if_pos ((hu.number_eq_iff hw).mpr heq), hu.value, hw.value]
    refine (meetingSlot_follows _ _ _ _ _ _).bind fun t₆ slot slot' h₆ hslot => ?_
    subst hslot
    exact .built fun _ => .built fun _ => .pure fun _ h₇ => ⟨rfl, (h₆.trans h₇).get? hu.type⟩
  · rw [if_neg heq, if_neg (mt (hu.number_eq_iff hw).mp heq)]
    exact .looked hw.type (.fail _ _ _)

theorem call_follows {span : Span} {callee : Ident} {count : Nat}
    {args args' : Lower (List Ir.ValueId)} (h : Follows p t args args' fun _ a b => a = b) :
    Follows p t (call p span callee count args) (Lower.call p span callee count args') Denotes := by
  unfold call Lower.call
  rcases hl : p.lookup callee.text with _ | ⟨index, routine⟩
  · exact .fail _ _ _
  · dsimp only
    split
    · refine h.bind fun t₁ values values' _ hvalues => ?_
      subst hvalues
      refine .called (Program.signatureAt?_of_lookup hl) fun v => ?_
      by_cases hempty : routine.signature.results.isEmpty = true
      · rw [if_pos hempty, if_pos hempty]
        exact .fail _ _ _
      · rw [if_neg hempty, if_neg hempty]
        exact (Follows.numbered _).bind fun _ _ _ _ hn => .pure fun _ ht => ⟨rfl, ht.get? hn⟩
    · exact .fail _ _ _

mutual

/-- Lowering an expression with numbers comes to lowering it with types. -/
theorem expression_follows (p : Program) : ∀ (node : Node) (t : TypeTable),
    Follows p t (expression p node) (Lower.expression p node) Denotes
  | .literal _ l, _ => by
      rw [expression, Lower.expression]
      exact l.emit_follows
  | .name _ _, _ => by
      rw [expression, Lower.expression]
      exact .fail _ _ _
  | .binary _ _ lhs rhs, t => by
      rw [expression, Lower.expression]
      exact (expression_follows p lhs t).bind fun t₁ _ _ _ hl =>
        (expression_follows p rhs t₁).bind fun _ _ _ ht hr => binary_follows _ _ (hl.grown ht) hr
  | .negate _ operand, t => by
      rw [expression, Lower.expression]
      exact (expression_follows p operand t).bind fun _ _ _ _ h => unary_follows _ _ h
  | .conditional _ _ test thenArm elseArm, _ => by
      rw [expression, Lower.expression]
      exact conditional_follows (expression_follows p test) (expression_follows p thenArm)
        (expression_follows p elseArm)
  | .function _ _ _ _, _ => by
      rw [expression, Lower.expression]
      exact .fail _ _ _
  | .call _ _ args, t => by
      rw [expression, Lower.expression]
      exact call_follows (arguments_follows p args t)

theorem arguments_follows (p : Program) : ∀ (nodes : List Node) (t : TypeTable),
    Follows p t (arguments p nodes) (Lower.arguments p nodes) fun _ a b => a = b
  | [], _ => by
      rw [arguments, Lower.arguments]
      exact .pure fun _ _ => rfl
  | node :: rest, t => by
      rw [arguments, Lower.arguments]
      refine (expression_follows p node t).bind fun t₁ v v' _ hv => ?_
      rw [hv.value]
      refine (arguments_follows p rest t₁).bind fun _ values values' _ hvalues => ?_
      subst hvalues
      exact .pure fun _ _ => rfl

end

/-! ## Functions -/

theorem statements_follows (p : Program) {provisional : Nat} : ∀ (nodes : List Node)
    (t : TypeTable), t.get? provisional = some .i64 →
    Follows p t (statements p provisional nodes) (Lower.statements p nodes) Denotes
  | [], _, h => .built fun _ => .pure fun _ ht => ⟨rfl, ht.get? h⟩
  | [node], t, _ => expression_follows p node t
  | node :: next :: rest, t, h =>
      (expression_follows p node t).bind fun t₁ _ _ ht _ =>
        statements_follows p (next :: rest) t₁ (ht.get? h)

theorem draft_follows {body : Nat → Lower NumberedValue} {body' : Lower TypedValue}
    (h : ∀ t n, t.get? n = some .i64 → Follows p t (body n) body' Denotes) (name : String)
    (anonymous : Bool) :
    Follows p t (draft name anonymous body) (Lower.draft name anonymous body')
      fun t' r r' => r = r' ∧ r.returnType ∈ t'.types := by
  refine .built fun _ => .built fun _ => .built fun _ => .built fun _ =>
    (Follows.numbered _).bind fun t₁ n _ _ hn => (h t₁ n hn).bind fun t₂ v v' _ hv => ?_
  refine .looked hv.type ?_
  rw [hv.value]
  refine .built fun _ => .built fun _ => .built fun _ => .built fun _ => .built fun _ =>
    .built fun _ => .built fun _ => .built fun _ => .built fun _ => .built fun _ =>
    .built fun _ => fun s hs hB => ⟨rfl, .refl _, hB, rfl, ?_⟩
  exact List.mem_of_getElem? (hs.get? hv.type)

end Emit

namespace Routine

variable (p : Program) (types : TypeTable) (name : String) (anonymous : Bool) (nodes : List Node)

theorem lower_follows :
    Follows p types (Emit.draft name anonymous (Emit.statements p · nodes))
      (Lower.draft name anonymous (Lower.statements p nodes))
      fun t r r' => r = r' ∧ r.returnType ∈ t.types :=
  Emit.draft_follows (fun t _ hn => Emit.statements_follows p nodes t hn) name anonymous

/-- Statements are lowered to what they are lowered to with types in the place of numbers, and the
    table is left the same. -/
theorem lower_eq :
    lower p types name anonymous nodes =
      ((Lower.draft name anonymous (Lower.statements p nodes)
          ⟨types, .start name⟩ : Except LowerError Routine × LowerState).1,
        (Lower.draft name anonymous (Lower.statements p nodes)
          ⟨types, .start name⟩ : Except LowerError Routine × LowerState).2.types) := by
  obtain ⟨hstate, -, -, halike⟩ := lower_follows p types name anonymous nodes
    ⟨types, .start name⟩ (.refl _) (Ir.Builder.importsFrom_start p name)
  exact Prod.ext (halike.eq fun _ _ h => h.1) (congrArg LowerState.types hstate)

/-- Lowering statements makes requests, and the type of what they are lowered to has a number. -/
theorem lower_notes :
    types.Grown (lower p types name anonymous nodes).2 ∧
      ∀ r, (lower p types name anonymous nodes).1 = .ok r →
        r.returnType ∈ (lower p types name anonymous nodes).2.types := by
  obtain ⟨hstate, hgrown, -, halike⟩ := lower_follows p types name anonymous nodes
    ⟨types, .start name⟩ (.refl _) (Ir.Builder.importsFrom_start p name)
  have htypes : (lower p types name anonymous nodes).2 = _ := congrArg LowerState.types hstate
  rw [htypes]
  refine ⟨hgrown, fun r hr => ?_⟩
  obtain ⟨r', -, hnoted⟩ := halike.of_ok hr
  exact hnoted

theorem ofDefinition_notes (d : Definition) :
    types.Grown (ofDefinition p types d).2 ∧
      ∀ r, (ofDefinition p types d).1 = .ok r →
        r.returnType ∈ (ofDefinition p types d).2.types := by
  unfold ofDefinition
  split
  · exact ⟨.refl _, fun _ hr => nomatch hr⟩
  · split
    · exact ⟨.refl _, fun _ hr => nomatch hr⟩
    · exact lower_notes _ _ _ _ _

end Routine

end ScalarLang
