import Mathlib
import ScalarLang.Proofs.Ir.WellBuilt
import ScalarLang.Proofs.Lower.Function

/-
  Who uses which slot.
  Each conditional makes one slot, and the routine one more for its result. Counting the stores and
  loads of every slot shows that none is shared: a slot is used as often as the one form that made
  it needs. Slots are numbered as they are made, an `if` making its slot after its test and a `when`
  after its arms.
-/

namespace ScalarLang

namespace Ir

/-- A use of a slot. -/
inductive Access where
  | store (slot : SlotId)
  | load (slot : SlotId)
deriving DecidableEq

def Access.slot : Access → Nat
  | store slot | load slot => slot

def Inst.access? : Inst → Option Access
  | .store _ slot => some (.store slot)
  | .load _ slot => some (.load slot)
  | _ => none

/-- How many statements of a function use a slot so. -/
def Function.uses (f : Function) (a : Access) : Nat :=
  f.blocks.flatten.countP (·.inst.access? == some a)

/-- Between the two builders some slots were made, and slots were used as planned. -/
structure Spends (B : Builder) (plan : List Access) (made : Nat) (B' : Builder) : Prop where
  slots : B'.function.slots.length = B.function.slots.length + made
  uses : ∀ a, B'.function.uses a = B.function.uses a + plan.count a

namespace Spends

variable {B B' B'' : Builder} {plan plan' : List Access} {made made' b : Nat}

theorem refl (B : Builder) : Spends B [] 0 B := ⟨rfl, fun _ => rfl⟩

theorem trans (h : Spends B plan made B') (h' : Spends B' plan' made' B'') :
    Spends B (plan ++ plan') (made + made') B'' where
  slots := by rw [h'.slots, h.slots, Nat.add_assoc]
  uses := fun a => by rw [h'.uses, h.uses, List.count_append, Nat.add_assoc]

/-- The order of uses does not matter. -/
theorem congr (h : Spends B plan made B') (hplan : ∀ a, plan'.count a = plan.count a)
    (hmade : made' = made) : Spends B plan' made' B' :=
  ⟨hmade ▸ h.slots, fun a => hplan a ▸ h.uses a⟩

theorem of_put {X Y : Block} {s : Stmt} {types : List MachineType} (h : Put B b X Y s types B') :
    Spends B s.inst.access?.toList 0 B' where
  slots := by rw [h.slots, Nat.add_zero]
  uses := by
    intro a
    have hget : B.function.blocks[b]? = some (X ++ Y) := by
      rw [Function.getElem?_blocks h.bound, h.old]
    rw [Function.uses, h.blocks, (flatten_set_perm s hget).countP_eq, List.countP_cons,
      Function.uses]
    cases s.inst.access? <;> simp [List.count_singleton]

theorem emitted (hc : B.cursor = .atEnd b) (hb : b < B.function.blocks.length) (inst : Inst)
    (types : List MachineType) : Spends B inst.access?.toList 0 (B.emitted inst types) :=
  of_put (.at_end hc hb inst types)

theorem withSlot (B : Builder) (size : Nat) : Spends B [] 1 (B.withSlot size) :=
  ⟨by simp, fun _ => rfl⟩

theorem enter (h : Spends B plan made B') (c : Nat) : Spends B plan made (B'.enter c) :=
  ⟨h.slots, h.uses⟩

theorem withBlock (B : Builder) : Spends B [] 0 B.withBlock :=
  ⟨rfl, fun a => by simp [Function.uses, Builder.withBlock]⟩

theorem imported (B : Builder) (index : Nat) (signature : Signature) :
    Spends B [] 0 (B.imported index signature).2 := by
  obtain ⟨added, h, -⟩ := B.imported_snd index signature
  rw [h]
  exact ⟨rfl, fun _ => rfl⟩

/-- Inner instructions use no slots. -/
theorem of_silent (h : Silent B B') (hc : B.cursor = .atEnd b) (hb : b < B.function.blocks.length) :
    Spends B [] 0 B' := by
  have hinline : Spends B [] 0 B' ∧ B'.cursor = .atEnd b ∧ b < B'.function.blocks.length := by
    induction h with
    | refl => exact ⟨.refl B, hc, hb⟩
    | @emitted B' inst types _ hi ih =>
        obtain ⟨hs, hc, hb⟩ := ih
        have hnone : inst.access? = none := by cases inst <;> first | rfl | cases hi
        have he := hs.trans (emitted hc hb inst types)
        rw [hnone] at he
        exact ⟨he, hc, by simpa using hb⟩
    | @imported B' index signature _ ih =>
        obtain ⟨hs, hc, hb⟩ := ih
        have hi := Inline.imported hc index signature
        exact ⟨hs.trans (imported B' index signature), hi.cursor, hi.length ▸ hb⟩
  exact hinline.1

/-! ## The stages of a conditional -/

theorem opened (hc : B.cursor = .atEnd b) (hb : b < B.function.blocks.length) :
    Spends B [] 0 B.opened := by
  have h := (((withBlock B).trans (withBlock _)).trans (withBlock _)).trans (withBlock _)
  have hj := emitted (B := B.withBlock.withBlock.withBlock.withBlock) hc
    (by simp only [Builder.withBlock_length]; omega) (.jump B.function.blocks.length) []
  exact (h.trans hj).enter _

theorem left (hc : B.cursor = .atEnd b) (hb : b < B.function.blocks.length)
    (parked : Option SlotId) (v : ValueId) (join : Nat) :
    Spends B (parked.map .store).toList 0 (B.left parked v join) := by
  have hs := Builder.stored_inline hc hb parked v
  have hstored : Spends B (parked.map .store).toList 0 (B.stored parked v) := by
    cases parked with
    | some slot => exact emitted hc hb (.store v slot) []
    | none => exact refl B
  have hj := hstored.trans (emitted hs.cursor (hs.length ▸ hb) (.jump join) [])
  rwa [show (Inst.jump join).access?.toList = [] from rfl, List.append_nil] at hj

/-- Stores inserted at two marks. -/
theorem inserted {n n' b' : Nat} {X X' : Block} {j j' : Stmt} (h : B.Marks n b X j)
    (h' : B.Marks n' b' X' j') (hne : b' ≠ b) (hn : n' < B.count) (size : Nat) (u w : ValueId) :
    Spends B [.store B.function.slots.length, .store B.function.slots.length] 1
      (B.inserted size u w n n') := by
  have h₁ : ((B.withSlot size).before n).Marks n b X j := h.of_same fun _ => rfl
  have h₂ := h₁.inserted (h'.of_same fun _ => rfl) hne hn rfl (.store u B.function.slots.length) []
  have h₃ : ((((B.withSlot size).before n).emitted (.store u B.function.slots.length) []).before
    n').Marks n' b' X' j' := h₂.of_same fun _ => rfl
  have s₁ := of_put (Put.at_mark h₁ rfl (.store u B.function.slots.length) [])
  have s₂ := of_put (Put.at_mark h₃ rfl (.store w B.function.slots.length) [])
  exact (withSlot B size).trans (Spends.trans ⟨s₁.slots, s₁.uses⟩ ⟨s₂.slots, s₂.uses⟩)

end Spends

end Ir

/-! ## The forms of a program text -/

/-- How a conditional uses its slot: a store at the end of each arm, one more if it parks its test,
    and the load where the arms join. -/
def ConditionalForm.accesses (slot : Ir.SlotId) : ConditionalForm → List Ir.Access
  | .ifForm => [.store slot, .store slot, .store slot, .load slot]
  | .whenForm => [.store slot, .store slot, .load slot]

mutual

/-- The conditionals in an expression, in the order in which they make their slots. -/
def Node.forms : Node → List ConditionalForm
  | .literal _ _ | .name _ _ | .function _ _ _ _ => []
  | .binary _ _ lhs rhs => lhs.forms ++ rhs.forms
  | .negate _ operand => operand.forms
  | .conditional _ .ifForm test thenArm elseArm =>
    test.forms ++ .ifForm :: (thenArm.forms ++ elseArm.forms)
  | .conditional _ .whenForm test thenArm elseArm =>
    test.forms ++ (thenArm.forms ++ (elseArm.forms ++ [.whenForm]))
  | .call _ _ args => Node.formsOf args

def Node.formsOf : List Node → List ConditionalForm
  | [] => []
  | node :: rest => node.forms ++ Node.formsOf rest

end

/-- The uses that forms make of their slots, the first of which is given. -/
def slotPlan (first : Nat) : List ConditionalForm → List Ir.Access
  | [] => []
  | form :: rest => form.accesses first ++ slotPlan (first + 1) rest

theorem slotPlan_append (first : Nat) (forms forms' : List ConditionalForm) :
    slotPlan first (forms ++ forms') =
      slotPlan first forms ++ slotPlan (first + forms.length) forms' := by
  induction forms generalizing first with
  | nil => rfl
  | cons form rest ih =>
      rw [List.cons_append, slotPlan, slotPlan, ih, List.append_assoc, List.length_cons,
        Nat.add_right_comm, Nat.add_assoc first]

/-- A slot is used by the form that made it only. -/
theorem count_slotPlan (first : Nat) (forms : List ConditionalForm) (a : Ir.Access) :
    (slotPlan first forms).count a =
      if first ≤ a.slot then
        (forms[a.slot - first]?.map fun form => (form.accesses a.slot).count a).getD 0
      else 0 := by
  induction forms generalizing first with
  | nil => simp [slotPlan]
  | cons form rest ih =>
      rw [slotPlan, List.count_append, ih]
      have hother (h : a.slot ≠ first) : (form.accesses first).count a = 0 := by
        refine List.count_eq_zero.mpr fun hmem => h ?_
        cases form <;> simp only [ConditionalForm.accesses, List.mem_cons, List.not_mem_nil,
          or_false] at hmem <;> rcases hmem with rfl | rfl | rfl | rfl <;> rfl
      by_cases heq : a.slot = first
      · simp [heq]
      · rw [hother heq, Nat.zero_add]
        by_cases hlt : first < a.slot
        · have hsub : a.slot - first = a.slot - (first + 1) + 1 := by omega
          rw [if_pos (Nat.succ_le_of_lt hlt), if_pos (Nat.le_of_lt hlt), hsub,
            List.getElem?_cons_succ]
        · rw [if_neg (by omega), if_neg (by omega)]

namespace Lower

open Ir (Builder Inline Spends)

variable {α β : Type} {forms forms' : List ConditionalForm}

/-- The step makes and uses one slot for each of the forms. -/
def Spending (x : Lower α) (forms : List ConditionalForm) : Prop :=
  ∀ (B : Builder) (a : α) (B' : Builder) (b : Nat), Builds x B a B' → B.cursor = .atEnd b →
    b < B.function.blocks.length → B.Numbered →
    Spends B (slotPlan B.function.slots.length forms) forms.length B'

namespace Spending

theorem pure (a : α) : Spending (pure a : Lower α) [] := by
  intro B a' B' b h _ _ _
  obtain ⟨-, rfl⟩ := h.pure
  exact .refl _

theorem of_not_builds {x : Lower α} (h : ∀ {B a B'}, ¬ Builds x B a B') : Spending x [] :=
  fun _ _ _ _ hx => absurd hx h

theorem bind {x : Lower α} {f : α → Lower β} (r : Regional x) (hx : Spending x forms)
    (hf : ∀ a, Spending (f a) forms') : Spending (x >>= f) (forms ++ forms') := by
  intro B v B'' b h hc hb hn
  obtain ⟨a, B', h₁, h₂⟩ := h.bind
  obtain ⟨b', r₁⟩ := r B a B' b h₁ hc hb hn
  have s₁ := hx B a B' b h₁ hc hb hn
  have s₂ := hf a B' v B'' b' h₂ r₁.cursor r₁.bound (r₁.grown.numbered hn)
  rw [slotPlan_append, List.length_append, ← s₁.slots]
  exact s₁.trans s₂

/-- A last step that makes no slots. -/
theorem map {x : Lower α} {f : α → Lower β} (r : Regional x) (hx : Spending x forms)
    (hf : ∀ a, Spending (f a) []) : Spending (x >>= f) forms :=
  List.append_nil forms ▸ hx.bind r hf

theorem literal (l : Literal) : Spending l.lower [] := by
  intro B tv B' b h hc hb _
  exact .of_silent (literal_silent h) hc hb

theorem binary (span : Span) (op : BinaryOp) (lhs rhs : TypedValue) :
    Spending (Lower.binary span op lhs rhs) [] := by
  intro B tv B' b h hc hb _
  exact .of_silent (binary_silent h) hc hb

theorem unary (span : Span) (op : UnaryOperator) (operand : TypedValue) :
    Spending (Lower.unary span op operand) [] := by
  intro B tv B' b h hc hb _
  exact .of_silent (unary_silent h) hc hb

theorem call {p : Program} {span : Span} {callee : Ident} {count : Nat}
    {args : Lower (List Ir.ValueId)} (r : Regional args) (h : Spending args forms) :
    Spending (Lower.call p span callee count args) forms := by
  intro B tv B' b hx hc hb hn
  obtain ⟨index, routine, values, B₁, i, -, -, -, h₁, -, -, rfl⟩ := hx.call
  obtain ⟨b', r₁⟩ := r B values B₁ b h₁ hc hb hn
  have hcall : Ir.Silent B₁ ((B₁.imported index routine.signature).2.emitted
      (.call (B₁.imported index routine.signature).1 values) i.signature.results) :=
    .emitted (.imported (.refl B₁)) rfl
  have hs := (h B values B₁ b h₁ hc hb hn).trans (.of_silent hcall r₁.cursor r₁.bound)
  rwa [List.append_nil] at hs

/-- The branch of a conditional, its arms and the stores into its slot, if that is known. -/
theorem arms {B T P D A C : Builder} {b testEnd thenEnd elseEnd : Nat} {parked : Option Ir.SlotId}
    {condition u w : Ir.ValueId} {formsA formsE : List ConditionalForm}
    (L : Ir.Layout B b T P D A C parked condition u w testEnd thenEnd elseEnd)
    (sD : Spends P [] 0 D)
    (sA : Spends (D.branched condition B.function.blocks.length) (slotPlan
      (D.branched condition B.function.blocks.length).function.slots.length formsA) formsA.length A)
    (sC : Spends ((A.left parked u (B.function.blocks.length + 3)).enter
      (B.function.blocks.length + 2)) (slotPlan ((A.left parked u
        (B.function.blocks.length + 3)).enter
        (B.function.blocks.length + 2)).function.slots.length formsE) formsE.length C) :
    Spends P (slotPlan P.function.slots.length (formsA ++ formsE) ++
      ((parked.map .store).toList ++ (parked.map .store).toList)) (formsA ++ formsE).length
      (C.left parked w (B.function.blocks.length + 3)) := by
  have sX := (Spends.emitted L.decided.cursor L.ends.2.1 (.brif condition
    (B.function.blocks.length + 1) (B.function.blocks.length + 2)) []).enter
    (B.function.blocks.length + 1)
  have sE := (Spends.left L.thenArm.cursor L.thenArm.bound parked u
    (B.function.blocks.length + 3)).enter (B.function.blocks.length + 2)
  have sF := Spends.left L.elseArm.cursor L.elseArm.bound parked w (B.function.blocks.length + 3)
  have hA : (D.branched condition B.function.blocks.length).function.slots.length =
      P.function.slots.length := sX.slots.trans sD.slots
  have hC : ((A.left parked u (B.function.blocks.length + 3)).enter
      (B.function.blocks.length + 2)).function.slots.length =
      P.function.slots.length + formsA.length := by
    rw [sE.slots, sA.slots, hA, Nat.add_zero]
  rw [hA] at sA
  rw [hC] at sC
  refine (sD.trans (sX.trans (sA.trans (sE.trans (sC.trans sF))))).congr (fun a => ?_) (by simp)
  simp only [slotPlan_append, List.count_append, Ir.Inst.access?, Option.toList, List.count_nil]
  omega

/-- An `if` uses a slot that it makes after its test, a `when` one that it makes after its arms. -/
theorem conditional {form : ConditionalForm} {testSpan thenSpan : Span}
    {test thenArm elseArm : Lower TypedValue} {formsT formsA formsE : List ConditionalForm}
    (rt : Regional test) (ra : Regional thenArm) (re : Regional elseArm)
    (ht : Spending test formsT) (ha : Spending thenArm formsA) (he : Spending elseArm formsE) :
    Spending (Lower.conditional form testSpan thenSpan test thenArm elseArm)
      (match form with
      | .ifForm => formsT ++ .ifForm :: (formsA ++ formsE)
      | .whenForm => formsT ++ (formsA ++ (formsE ++ [.whenForm]))) := by
  intro B tv B' b h hc hb hn
  obtain ⟨t, T, parked, P, condition, D, u, A, w, C, testEnd, thenEnd, elseEnd, L, h₁, h₂, h₃, h₄,
    h₅, -, -, rfl⟩ := h.layout rt ra re hc hb hn
  have hlen := L.lengths
  have sO := Spends.opened hc hb
  have sT := sO.trans (ht _ _ _ _ h₁ rfl (by simp) L.opened_numbered)
  rw [sO.slots, Nat.add_zero, List.nil_append, Nat.zero_add] at sT
  have sF := arms L (.of_silent (unary_silent h₃) L.park.cursor (L.park.length ▸ L.test.bound))
    (ha _ _ _ _ h₄ rfl (by simp [Builder.branched]; omega) L.branched_numbered)
    (he _ _ _ _ h₅ rfl
      (by rw [Builder.enter_function, Builder.left_length L.thenArm.cursor L.thenArm.bound]; omega)
      fun c s hs => L.left_numbered c s hs)
  have sZ := Spends.emitted
    (B := (A.joined C parked u.type.byteSize u.value w.value (B.function.blocks.length + 3)).2.enter
      (B.function.blocks.length + 3)) rfl
    (by rw [Builder.enter_function, L.joined_length]; omega)
    (.load u.type.machineType (A.joined C parked u.type.byteSize u.value w.value
      (B.function.blocks.length + 3)).1) [u.type.machineType]
  cases form with
  | ifForm =>
      obtain ⟨rfl, rfl⟩ := h₂.parkTest_if
      have sP := (Spends.withSlot T widestSlot).trans (Spends.emitted
        (B := T.withSlot widestSlot) L.test.cursor L.test.bound
        (.store t.value T.function.slots.length) [])
      have s := (sT.trans (sP.trans (sF.enter (B.function.blocks.length + 3)))).trans sZ
      refine s.congr (fun a => ?_) (by simp; omega)
      rw [sP.slots]
      simp only [sT.slots, slotPlan_append, slotPlan, List.count_append, Builder.joined,
        Builder.met]
      simp only [ConditionalForm.accesses, Ir.Inst.access?, Option.map_some, Option.toList,
        List.count_cons, List.count_nil, Nat.add_zero]
      omega
  | whenForm =>
      obtain ⟨rfl, rfl⟩ := h₂.parkTest_when
      have sI := Spends.inserted L.marks_then L.marks_else L.thenEnd_ne_elseEnd (Nat.lt_succ_self _)
        u.type.byteSize u.value w.value
      have s := (sT.trans (sF.trans (sI.enter (B.function.blocks.length + 3)))).trans sZ
      refine s.congr (fun a => ?_) (by simp; omega)
      simp only [sF.slots, sT.slots, slotPlan_append, slotPlan, List.count_append, Builder.joined,
        Builder.met]
      simp only [ConditionalForm.accesses, Ir.Inst.access?, Option.map_none, Option.toList,
        List.count_cons, List.count_nil, List.length_append, Nat.add_zero]
      simp only [Nat.add_assoc]
      omega

end Spending

mutual

theorem expression_spending (p : Program) : ∀ node : Node, Spending (expression p node) node.forms
  | .literal _ l => by
      rw [expression, Node.forms]
      exact .literal l
  | .name _ _ => by
      rw [expression, Node.forms]
      exact .of_not_builds not_builds_bareName
  | .binary _ _ lhs rhs => by
      rw [expression, Node.forms]
      exact .bind (expression_regional p lhs) (expression_spending p lhs) fun _ =>
        .map (expression_regional p rhs) (expression_spending p rhs) fun _ => .binary _ _ _ _
  | .negate _ operand => by
      rw [expression, Node.forms]
      exact .map (expression_regional p operand) (expression_spending p operand) fun _ =>
        .unary _ _ _
  | .conditional _ form test thenArm elseArm => by
      have h {form : ConditionalForm} {testSpan thenSpan : Span} :=
        @Spending.conditional form testSpan thenSpan _ _ _ _ _ _ (expression_regional p test)
          (expression_regional p thenArm) (expression_regional p elseArm)
          (expression_spending p test) (expression_spending p thenArm)
          (expression_spending p elseArm)
      cases form <;> rw [expression, Node.forms] <;> exact h
  | .function _ _ _ _ => by
      rw [expression, Node.forms]
      exact .of_not_builds not_builds_fail
  | .call _ _ args => by
      rw [expression, Node.forms]
      exact .call (arguments_regional p args) (arguments_spending p args)

theorem arguments_spending (p : Program) :
    ∀ nodes : List Node, Spending (arguments p nodes) (Node.formsOf nodes)
  | [] => by
      rw [arguments, Node.formsOf]
      exact .pure _
  | node :: rest => by
      rw [arguments, Node.formsOf]
      exact .bind (expression_regional p node) (expression_spending p node) fun _ =>
        .map (arguments_regional p rest) (arguments_spending p rest) fun _ => .pure _

end

theorem statements_spending (p : Program) :
    ∀ nodes : List Node, Spending (statements p nodes) (Node.formsOf nodes)
  | [] => by
      intro B tv B' b h hc hb _
      obtain ⟨v, B₁, h₁, h⟩ := Builds.bind h
      obtain ⟨-, rfl⟩ := h.pure
      obtain ⟨-, rfl⟩ := h₁.build
      exact .of_silent ((Ir.Build.Straight.iconst .i64 0).silent B) hc hb
  | [node] => by
      rw [Node.formsOf, Node.formsOf, List.append_nil]
      exact expression_spending p node
  | node :: next :: rest => by
      rw [Node.formsOf]
      exact .bind (expression_regional p node) (expression_spending p node) fun _ =>
        statements_spending p (next :: rest)

end Lower

/-! ## Routines -/

open Ir (Builder Spends)

/-- The blocks around a body make one slot, store into it once and load from it once. -/
theorem finished_spends {name : String} {E : Builder} {e : Nat}
    (hE : Ir.Region (.prepared name) 1 E e) (v : Ir.ValueId) (ty : MachineType) (size : Nat) :
    Spends E [.store E.function.slots.length, .load E.function.slots.length] 1
      (E.finished v ty size) := by
  have hb := bodyEnd_bounds hE
  have s₁ := ((Spends.refl E).enter 0).trans (.withSlot (E.enter 0) size)
  have s₂ := Spends.emitted (B := (E.enter 0).withSlot size) (b := 0) rfl
    (by rw [Builder.withSlot_blocks, Builder.enter_function]; omega) (.jump 1) []
  have s₃ := Spends.emitted (B := E.entered size E.cursor) hE.cursor
    (by simpa [Builder.entered] using hb.2.1) (.store v E.function.slots.length) []
  have s₄ := Spends.emitted (B := (E.entered size E.cursor).emitted
    (.store v E.function.slots.length) []) hE.cursor
    (by simpa [Builder.entered] using hb.2.1) (.jump 2) []
  have s₅ := Spends.emitted (B := (E.entered size E.cursor).leaving v E.function.slots.length)
    (b := 2) rfl (by simp [Builder.leaving, Builder.entered]; omega)
    (.load ty E.function.slots.length) [ty]
  have s₆ := Spends.emitted (B := (((E.entered size E.cursor).leaving v
    E.function.slots.length).emitted (.load ty E.function.slots.length) [ty]).returning ty)
    (b := 2) rfl (by simp [Builder.returning, Builder.leaving, Builder.entered]; omega)
    (.ret [((E.entered size E.cursor).leaving v E.function.slots.length).function.values.length]) []
  -- where the cursor stands and what the result type is makes no difference to slots
  exact (s₁.trans s₂).trans (Spends.trans ⟨s₃.slots, s₃.uses⟩ (s₄.trans
    (Spends.trans ⟨s₅.slots, s₅.uses⟩ ⟨s₆.slots, s₆.uses⟩)))

/-- A routine has a slot for each of its conditionals and one more, and each slot is used by the
    conditional that made it only, the last one for the result. -/
theorem Routine.lower_slots {p : Program} {types : TypeTable} {name : String} {anonymous : Bool}
    {nodes : List Node} {r : Routine}
    (h : (Routine.lower p types name anonymous nodes).1 = .ok r) :
    r.code.slots.length = (Node.formsOf nodes).length + 1 ∧
    ∀ a, r.code.uses a = (slotPlan 0 (Node.formsOf nodes) ++ [Ir.Access.store
      (Node.formsOf nodes).length, .load (Node.formsOf nodes).length]).count a := by
  obtain ⟨tv, E, hbody, rfl⟩ := Routine.lower_ok h
  obtain ⟨e, hE⟩ := statements_region hbody
  have sE := Lower.statements_spending p nodes _ _ _ 1 hbody rfl (by simp) (prepared_numbered name)
  have hlen : E.function.slots.length = (Node.formsOf nodes).length := by
    rw [sE.slots]
    exact Nat.zero_add _
  have s := sE.trans (finished_spends hE tv.value tv.type.machineType tv.type.byteSize)
  rw [hlen] at s
  exact ⟨s.slots.trans (Nat.zero_add _), fun a => (s.uses a).trans (Nat.zero_add _)⟩

end ScalarLang
