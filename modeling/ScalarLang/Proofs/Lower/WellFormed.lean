import Mathlib
import ScalarLang.Proofs.Lower.Function
import ScalarLang.Proofs.Lower.Typing
import ScalarLang.Proofs.Program

/-
  Lowered code is well formed.
  The invariant of code under construction goes through every expression: from the end of an open
  block it leads to the end of an open block that the first one dominates, with the value of the
  expression in reach. The blocks of a conditional get their dominators when they are made: each
  has those of the block that the conditional starts in.
  Lowering takes the word of a function of the program for the type of its result. If the function
  returns a word of another type then the code that uses the result has operands of the wrong types,
  but it is structured all the same.
-/

namespace ScalarLang

open Ir (Builder At Has Gives WellBuilt Layout Unfinished)

namespace Lower

variable {α : Type} {p : Program} {signature : Signature} {doms doms' doms'' : Nat → Set Nat}
  {B B' B'' : Builder} {b b' b'' : Nat}

/-- From the end of block `b` building has come to the end of block `b'`, which has all
    dominators of `b`; the dominators of older blocks are the same. -/
structure Lands (p : Program) (signature : Signature) (doms : Nat → Set Nat) (b : Nat) (B : Builder)
    (doms' : Nat → Set Nat) (b' : Nat) (B' : Builder) : Prop where
  agree : ∀ c, c < B.function.blocks.length → doms' c = doms c
  above : doms b ⊆ doms' b'
  state : At p signature doms' b' B'
  grown : B.Extends B'

/-- The step keeps code well built and gives something good. -/
def Sound (p : Program) (x : Lower α)
    (Good : Program → Builder → (Nat → Set Nat) → Nat → α → Prop) : Prop :=
  ∀ (signature : Signature) (doms : Nat → Set Nat) (B : Builder) (b : Nat) (a : α) (B' : Builder),
    Builds x B a B' → B.Numbered → At p signature doms b B →
    ∃ doms' b', Lands p signature doms b B doms' b' B' ∧ Good p B' doms' b' a

/-- A value of its type is in reach. -/
def InReach (p : Program) (B : Builder) (doms : Nat → Set Nat) (b : Nat) (tv : TypedValue) : Prop :=
  Has p B doms b tv.value tv.type.machineType

theorem Lands.trans (h : Lands p signature doms b B doms' b' B')
    (h' : Lands p signature doms' b' B' doms'' b'' B'') :
    Lands p signature doms b B doms'' b'' B'' where
  agree := fun c hc => (h'.agree c (Nat.lt_of_lt_of_le hc h.grown.length)).trans (h.agree c hc)
  above := h.above.trans h'.above
  state := h'.state
  grown := h.grown.trans h'.grown

theorem Lands.of_gives {x : Ir.Build Ir.ValueId} {ty : MachineType}
    (h : Gives p signature doms b x B ty) : Lands p signature doms b B doms b (x B).2 :=
  ⟨fun _ _ => rfl, subset_rfl, h.state, h.grown⟩

theorem InReach.mono {tv : TypedValue} (h : InReach p B doms b tv)
    (hl : Lands p signature doms b B doms' b' B') : InReach p B' doms' b' tv :=
  Has.mono h hl.grown hl.above

/-! ## Operations and calls -/

theorem type_constant (l : Literal) : l.constant.type = l.type.machineType := by cases l <;> rfl

theorem fits_constant (l : Literal) : l.constant.fits = true := by
  cases l with
  | boolean b => cases b <;> decide
  | signed v | unsigned v => exact decide_eq_true v.isLt
  | _ => rfl

theorem literal_sound (l : Literal) : Sound p l.lower InReach := by
  intro signature doms B b tv B' h _ hat
  obtain ⟨rfl, rfl⟩ := h.literal
  have g := Gives.const hat (fun _ => type_constant l) fun _ => fits_constant l
  exact ⟨doms, b, .of_gives g, g.has⟩

theorem binary_lands {span : Span} {op : BinaryOp} {lhs rhs tv : TypedValue}
    (h : Builds (binary span op lhs rhs) B tv B') (hat : At p signature doms b B)
    (hl : InReach p B doms b lhs) (hr : InReach p B doms b rhs) :
    Lands p signature doms b B doms b B' ∧ InReach p B' doms b tv := by
  obtain ⟨htype, impl, himpl, rfl, rfl⟩ := h.binary
  have g := BinaryImpl.gives_code hat (BinaryImpl.fits himpl) hl
    (htype ▸ hr : Has p B doms b rhs.value lhs.type.machineType)
  exact ⟨.of_gives g, g.has⟩

theorem unary_lands {span : Span} {op : UnaryOperator} {operand tv : TypedValue}
    (h : Builds (unary span op operand) B tv B') (hat : At p signature doms b B)
    (ho : InReach p B doms b operand) :
    Lands p signature doms b B doms b B' ∧ InReach p B' doms b tv := by
  obtain ⟨impl, himpl, rfl, rfl⟩ := h.unary
  have g := UnaryImpl.gives_code hat (UnaryImpl.fits himpl) ho
  exact ⟨.of_gives g, g.has⟩

/-- Arguments in reach, as many as there are. -/
def ArgumentsInReach (count : Nat) (p : Program) (B : Builder) (doms : Nat → Set Nat) (b : Nat)
    (vs : List Ir.ValueId) : Prop :=
  vs.length = count ∧ ∀ v ∈ vs, ∃ ty, Has p B doms b v ty

theorem call_sound {span : Span} {callee : Ident} {count : Nat}
    {args : Lower (List Ir.ValueId)} (hargs : Sound p args (ArgumentsInReach count)) :
    Sound p (call p span callee count args) InReach := by
  intro signature doms B b tv B' h hn hat
  obtain ⟨index, routine, values, B₁, i, hl, hcount, hne, h₁, hi, rfl, rfl⟩ := h.call
  obtain ⟨doms', b', hland, hlen, hreach⟩ := hargs signature doms B b values B₁ h₁ hn hat
  have hs := Program.signatureAt?_of_lookup hl
  obtain rfl : i = ⟨index, routine.signature⟩ :=
    Option.some.inj (hi.symm.trans (hland.state.built.imports.imported_fst hs))
  have hcall := hland.state.importedCall hs values (hlen.trans hcount)
    (fun _ hlt => absurd hlt (Nat.not_lt_of_le (Program.index_le_of_lookup hl))) hreach
  have hvalues : (B₁.imported index routine.signature).2.function.values.length =
      B₁.function.values.length := by
    obtain ⟨added, he, -⟩ := B₁.imported_snd index routine.signature
    rw [he]
  have hx := Ir.Builder.Extends.imported B₁ index routine.signature
  have himp := hland.state.imported hs
  refine ⟨doms', b', hland.trans ⟨fun _ _ => rfl, subset_rfl, hcall, ?_⟩, ?_⟩
  · exact hx.trans (.emitted_at _ himp.cursor himp.bound _ _)
  · have hnew := himp.has_new (.call (B₁.imported index routine.signature).1 values) hne
      fun hp => hp routine (Program.mem_of_lookup hl)
    rw [hvalues] at hnew
    exact hnew

/-! ## Conditionals -/

theorem store_lands (h : At p signature doms b B) {v : Ir.ValueId} {ty : MachineType}
    (hv : Has p B doms b v ty) {slot : Ir.SlotId} (hslot : slot < B.function.slots.length) :
    Lands p signature doms b B doms b (B.emitted (.store v slot) []) :=
  ⟨fun _ _ => rfl, subset_rfl, h.store hv hslot, .emitted_at B h.cursor h.bound _ _⟩

theorem parkTest_lands {form : ConditionalForm} {t : TypedValue} {parked : Option Ir.SlotId}
    (h : Builds (parkTest form t) B parked B') (hat : At p signature doms b B)
    (ht : InReach p B doms b t) : Lands p signature doms b B doms b B' ∧
      ∀ slot, parked = some slot → slot < B'.function.slots.length := by
  rcases h.parkTest with ⟨rfl, rfl⟩ | ⟨rfl, rfl⟩
  · exact ⟨⟨fun _ _ => rfl, subset_rfl, hat, .refl B'⟩, by simp⟩
  · have hs : Lands p signature doms b B doms b (B.withSlot widestSlot) :=
      ⟨fun _ _ => rfl, subset_rfl, hat.withSlot _, .withSlot B _⟩
    refine ⟨hs.trans (store_lands hs.state (ht.mono hs) (by simp)), ?_⟩
    rintro slot ⟨⟩
    simp

/-- An arm is left for a block that has no dominators that the arm's end lacks. -/
theorem left_built (h : At p signature doms b B) {u : Ir.ValueId} {ty : MachineType}
    (hu : Has p B doms b u ty) {parked : Option Ir.SlotId}
    (hslot : ∀ slot, parked = some slot → slot < B.function.slots.length) {join : Nat}
    (hjoin : join < B.function.blocks.length) (hdoms : doms join ⊆ insert join (doms b)) :
    WellBuilt p signature (B.left parked u join) doms := by
  have hs : Lands p signature doms b B doms b (B.stored parked u) := by
    cases parked with
    | some slot => exact store_lands h hu (hslot slot rfl)
    | none => exact ⟨fun _ _ => rfl, subset_rfl, h, .refl B⟩
  have hlt : join < (B.stored parked u).function.blocks.length :=
    Nat.lt_of_lt_of_le hjoin hs.grown.length
  refine hs.state.finish rfl ?_ (by simp [Ir.Inst.operands]) ?_
  · simp [Ir.Function.resultTypes?, Ir.Function.typesOf?, Ir.Inst.operands, Builder.code, hlt]
  · simpa [Ir.Inst.targets] using hdoms

/-- The truth of a value is a boolean. -/
theorem boolify_type {span : Span} {t tv : TypedValue}
    (h : Builds (unary span .boolify t) B tv B') : tv.type = .boolean := by
  obtain ⟨impl, himpl, rfl, -⟩ := h.unary
  cases ht : t.type <;> rw [ht] at himpl <;> cases himpl <;> rfl

/-- New blocks have the dominators of the block at hand. -/
def spread (doms : Nat → Set Nat) (b first : Nat) : Nat → Set Nat :=
  fun c => if first ≤ c then insert c (doms b) else doms c

theorem spread_old {first c : Nat} (h : c < first) : spread doms b first c = doms c :=
  if_neg (Nat.not_le_of_lt h)

theorem spread_new {first c : Nat} (h : first ≤ c) : spread doms b first c = insert c (doms b) :=
  if_pos h

theorem opened_at (h : At p signature doms b B) :
    At p signature (spread doms b B.function.blocks.length) B.function.blocks.length B.opened := by
  have hb := h.bound
  have hself : ∀ c, c ∈ spread doms b B.function.blocks.length c := by
    intro c
    unfold spread
    split
    · exact Set.mem_insert _ _
    · exact h.built.self c
  have hassign := h.built.assign (fun _ hc => spread_old hc) hself (Nat.zero_lt_of_lt hb)
  have hat : At p signature (spread doms b B.function.blocks.length) b
      B.withBlock.withBlock.withBlock.withBlock := by
    refine ⟨hassign.withBlock.withBlock.withBlock.withBlock, h.cursor, ?_, ?_⟩
    · simp only [Builder.withBlock_length]
      omega
    · simp only [Builder.withBlock_block]
      exact h.unfinished
  refine At.enter (hat.finish rfl ?_ (by simp [Ir.Inst.operands]) ?_) (by simp; omega) ?_
  · have hlt : B.function.blocks.length < B.function.blocks.length + 1 + 1 + 1 + 1 := by omega
    simp only [Ir.Function.resultTypes?, Ir.Function.typesOf?, Ir.Inst.operands, Builder.code,
      Builder.withBlock_length, List.mapM_nil, Option.bind_eq_bind, Option.pure_def,
      Option.bind_some, if_pos hlt]
  · simp only [Ir.Inst.targets, List.mem_singleton, forall_eq]
    rw [spread_new (Nat.le_refl _), spread_old hb]
  · have he := Ir.Builder.block_opened h.cursor hb B.function.blocks.length
    rw [if_neg (by omega), Ir.Function.block_eq_nil (Nat.le_refl _)] at he
    rw [Builder.opened, Builder.enter_function] at he
    rw [he]
    exact Ir.unfinished_nil

/-- A value in reach of the end of a block, seen from a place in it. -/
theorem reach_of_has {v : Ir.ValueId} {ty : MachineType} (h : Has p B doms b v ty)
    (hx : B.Extends B') : (∃ t ∈ B.function.block b, v ∈ t.results) ∨
      ∃ d, d ≠ b ∧ d ∈ doms b ∧ B'.function.Defines d v := by
  obtain ⟨d, hd, s, hs, hv⟩ := h.reach
  by_cases hdb : d = b
  · subst hdb
    exact Or.inl ⟨s, hs, hv⟩
  · exact Or.inr ⟨d, hdb, hd, s, hx.mem d s hs, hv⟩

/-- Stores inserted at two marks keep code well built. -/
theorem inserted_built (h : WellBuilt p signature B doms) {n n' : Nat} {X X' : Ir.Block}
    {j j' : Ir.Stmt} {u w : Ir.ValueId} (hm : B.Marks n b X j)
    (hm' : B.Marks n' b' X' j') (hne : b' ≠ b) (hn : n' < B.count) (hX : Unfinished X)
    (hX' : Unfinished X') (hj : j.inst.isTerminator = true) (hj' : j'.inst.isTerminator = true)
    (hu : u < B.function.values.length) (hw : w < B.function.values.length)
    (hru : (∃ t ∈ X, u ∈ t.results) ∨ ∃ d, d ≠ b ∧ d ∈ doms b ∧ B.function.Defines d u)
    (hrw : (∃ t ∈ X', w ∈ t.results) ∨ ∃ d, d ≠ b' ∧ d ∈ doms b' ∧ B.function.Defines d w)
    (size : Nat) : WellBuilt p signature (B.inserted size u w n n') doms := by
  have hslot : B.function.slots.length < (B.withSlot size).function.slots.length := by simp
  have hs : (B.withSlot size).Marks n b X j := hm.of_same fun _ => rfl
  have h₁ := (h.withSlot size).insertStore hs hX hj hu hslot hru
  have hx : (B.withSlot size).Extends
      (((B.withSlot size).before n).emitted (.store u B.function.slots.length) []) :=
    (Builder.Extends.before _ n).trans (.emitted_before _ rfl _ _)
  have hm₁ := (hm.of_same (C := (B.withSlot size).before n) fun _ => rfl).inserted
    (hm'.of_same fun _ => rfl) hne hn rfl (.store u B.function.slots.length) []
  refine h₁.insertStore hm₁ hX' hj' (hw.trans_le hx.values.length_le) hslot ?_
  refine hrw.imp_right fun ⟨d, hd, hdoms, s, hs, hv⟩ => ⟨d, hd, hdoms, s, hx.mem d s hs, hv⟩

section Join

variable {T P D A C : Builder} {parked : Option Ir.SlotId} {condition u w : Ir.ValueId}
  {testEnd thenEnd elseEnd : Nat} {ty : MachineType}
  (L : Layout B b T P D A C parked condition u w testEnd thenEnd elseEnd)
include L

/-- Where arms with values of one type meet, code is well built and the slot exists. -/
theorem joined_built (hA : Unfinished (A.function.block thenEnd)) (hu : Has p A doms thenEnd u ty)
    (hC : Unfinished (C.function.block elseEnd)) (hw : Has p C doms elseEnd w ty)
    (hslot : ∀ slot, parked = some slot → slot < C.function.slots.length)
    (hF : WellBuilt p signature (C.left parked w (B.function.blocks.length + 3)) doms)
    (size : Nat) :
    WellBuilt p signature (A.joined C parked size u w (B.function.blocks.length + 3)).2 doms ∧
      (A.joined C parked size u w (B.function.blocks.length + 3)).1 <
        (A.joined C parked size u w (B.function.blocks.length + 3)).2.function.slots.length := by
  have hxC := Builder.left_grown L.elseArm.cursor L.elseArm.bound parked w
    (B.function.blocks.length + 3)
  cases parked with
  | some slot => exact ⟨hF, Nat.lt_of_lt_of_le (hslot slot rfl) hxC.slots.length_le⟩
  | none =>
      have hxA := (Builder.left_grown L.thenArm.cursor L.thenArm.bound none u
        (B.function.blocks.length + 3)).toExtends.trans L.grown_left.toExtends
      refine ⟨inserted_built hF L.marks_then L.marks_else L.thenEnd_ne_elseEnd (Nat.lt_succ_self _)
        hA hC rfl rfl (hu.lt.trans_le hxA.values.length_le)
        (hw.lt.trans_le hxC.values.length_le) (reach_of_has hu hxA)
        (reach_of_has hw hxC.toExtends) size, ?_⟩
      simp [Builder.joined, Builder.met, Builder.inserted]

/-- The branch leads into both arms. -/
theorem branched_at (h : At p signature doms testEnd D) (hc : Has p D doms testEnd condition .i8)
    (hthen : doms (B.function.blocks.length + 1) ⊆
      insert (B.function.blocks.length + 1) (doms testEnd))
    (helse : doms (B.function.blocks.length + 2) ⊆
      insert (B.function.blocks.length + 2) (doms testEnd)) :
    At p signature doms (B.function.blocks.length + 1)
      (D.branched condition B.function.blocks.length) := by
  have hlen := L.lengths
  have hlt₁ : B.function.blocks.length + 1 < D.function.blocks.length := by omega
  have hlt₂ : B.function.blocks.length + 2 < D.function.blocks.length := by omega
  refine At.enter (h.ended rfl ?_ (fun hp => h.typed_stmt (by simp) ?_) ?_ ?_) (by simp; omega) ?_
  · simpa [Ir.Function.Shaped, Builder.stmt, Builder.code] using ⟨hlt₁, hlt₂⟩
  · simp [Ir.Function.resultTypes?, Ir.Function.typesOf?, Ir.Inst.operands, Builder.code,
      hc.type hp, hlt₁, hlt₂, MachineType.isInt]
  · simpa [Ir.Inst.operands] using ⟨_, hc⟩
  · simpa [Ir.Inst.targets] using ⟨hthen, helse⟩
  · exact L.block_thenStart ▸ Ir.unfinished_nil

end Join

/-- Code is well built before and after each part of a conditional, and the values of the parts are
    in reach. Each part is given by its builders and its dominators. -/
structure Stages (p : Program) (signature : Signature) (doms : Nat → Set Nat) (b : Nat)
    (B T D A C : Builder) (parked : Option Ir.SlotId) (t condition u w : TypedValue)
    (testEnd thenEnd elseEnd : Nat) (doms₁ doms₂ doms₃ : Nat → Set Nat) : Prop where
  opened : At p signature (spread doms b B.function.blocks.length) B.function.blocks.length B.opened
  test : Lands p signature (spread doms b B.function.blocks.length) B.function.blocks.length
    B.opened doms₁ testEnd T
  testValue : InReach p T doms₁ testEnd t
  decided : Lands p signature doms₁ testEnd T doms₁ testEnd D
  slot : ∀ slot, parked = some slot → slot < D.function.slots.length
  branched : At p signature doms₁ (B.function.blocks.length + 1)
    (D.branched condition.value B.function.blocks.length)
  thenArm : Lands p signature doms₁ (B.function.blocks.length + 1)
    (D.branched condition.value B.function.blocks.length) doms₂ thenEnd A
  thenValue : InReach p A doms₂ thenEnd u
  entered : At p signature doms₂ (B.function.blocks.length + 2)
    ((A.left parked u.value (B.function.blocks.length + 3)).enter (B.function.blocks.length + 2))
  elseArm : Lands p signature doms₂ (B.function.blocks.length + 2)
    ((A.left parked u.value (B.function.blocks.length + 3)).enter (B.function.blocks.length + 2))
    doms₃ elseEnd C
  elseValue : InReach p C doms₃ elseEnd w

theorem conditional_stages {form : ConditionalForm} {testSpan : Span}
    {test thenArm elseArm : Lower TypedValue} {T P D A C : Builder} {parked : Option Ir.SlotId}
    {t condition u w : TypedValue} {testEnd thenEnd elseEnd : Nat}
    (ht : Sound p test InReach) (ha : Sound p thenArm InReach) (he : Sound p elseArm InReach)
    (L : Layout B b T P D A C parked condition.value u.value w.value testEnd thenEnd elseEnd)
    (h₁ : Builds test B.opened t T) (h₂ : Builds (parkTest form t) T parked P)
    (h₃ : Builds (unary testSpan .boolify t) P condition D)
    (h₄ : Builds thenArm (D.branched condition.value B.function.blocks.length) u A)
    (h₅ : Builds elseArm ((A.left parked u.value (B.function.blocks.length + 3)).enter
      (B.function.blocks.length + 2)) w C) (hat : At p signature doms b B) :
    ∃ doms₁ doms₂ doms₃, Stages p signature doms b B T D A C parked t condition u w testEnd thenEnd
      elseEnd doms₁ doms₂ doms₃ := by
  have hlen := L.lengths
  have hends := L.ends
  -- the test, parked or not, and its truth
  obtain ⟨doms₁, b₁, l₁, r₁⟩ := ht signature _ _ _ t T h₁ L.opened_numbered (opened_at hat)
  obtain rfl : b₁ = testEnd := by injection l₁.state.cursor.symm.trans L.test.cursor
  obtain ⟨l₂, hslot⟩ := parkTest_lands h₂ l₁.state r₁
  obtain ⟨l₃, rc⟩ := unary_lands h₃ l₂.state (r₁.mono l₂)
  have lD := (l₁.trans l₂).trans l₃
  have hnew : ∀ c, B.function.blocks.length ≤ c → c < B.function.blocks.length + 4 →
      doms₁ c = insert c (doms b) := by
    intro c hc hc'
    rw [lD.agree c (by rw [Builder.opened_length]; exact hc'), spread_new hc]
  have hup : doms b ⊆ doms₁ b₁ := by
    have := lD.above
    rw [spread_new (Nat.le_refl _)] at this
    exact (Set.subset_insert _ _).trans this
  -- the branch leads into both arms
  have hX : At p signature doms₁ (B.function.blocks.length + 1)
      (D.branched condition.value B.function.blocks.length) := by
    rw [InReach, boolify_type h₃] at rc
    refine branched_at L l₃.state rc ?_ ?_
    · rw [hnew (B.function.blocks.length + 1) (by omega) (by omega)]
      exact Set.insert_subset_insert hup
    · rw [hnew (B.function.blocks.length + 2) (by omega) (by omega)]
      exact Set.insert_subset_insert hup
  -- the first arm
  obtain ⟨doms₂, b₂, l₄, r₄⟩ := ha signature doms₁ _ _ u A h₄ L.branched_numbered hX
  obtain rfl : b₂ = thenEnd := by injection l₄.state.cursor.symm.trans L.thenArm.cursor
  have hslotD : ∀ slot, parked = some slot → slot < D.function.slots.length := fun slot hs =>
    (hslot slot hs).trans_le l₃.grown.slots.length_le
  have hslotA : ∀ slot, parked = some slot → slot < A.function.slots.length := fun slot hs =>
    (hslotD slot hs).trans_le l₄.grown.slots.length_le
  have hup₂ : doms b ⊆ doms₂ b₂ := by
    have := l₄.above
    rw [hnew _ (by omega) (by omega)] at this
    exact (Set.subset_insert _ _).trans this
  have hdoms₂ : doms₂ (B.function.blocks.length + 3) ⊆
      insert (B.function.blocks.length + 3) (doms₂ b₂) := by
    rw [l₄.agree _ (by simp [Builder.branched]; omega),
      hnew (B.function.blocks.length + 3) (by omega) (by omega)]
    exact Set.insert_subset_insert hup₂
  have hE := left_built l₄.state r₄ hslotA (by omega) hdoms₂
  -- the second arm
  have hY : At p signature doms₂ (B.function.blocks.length + 2)
      ((A.left parked u.value (B.function.blocks.length + 3)).enter
        (B.function.blocks.length + 2)) :=
    At.enter hE (by rw [Builder.left_length L.thenArm.cursor L.thenArm.bound]; omega)
      (L.block_elseStart ▸ Ir.unfinished_nil)
  obtain ⟨doms₃, b₃, l₅, r₅⟩ := he signature doms₂ _ _ w C h₅ (fun c s hs => L.left_numbered c s hs)
    hY
  obtain rfl : b₃ = elseEnd := by injection l₅.state.cursor.symm.trans L.elseArm.cursor
  exact ⟨doms₁, doms₂, doms₃, opened_at hat, l₁, r₁, l₂.trans l₃, hslotD, hX, l₄, r₄, hY, l₅, r₅⟩

theorem conditional_sound {form : ConditionalForm} {testSpan thenSpan : Span}
    {test thenArm elseArm : Lower TypedValue} (rt : Regional test) (ra : Regional thenArm)
    (re : Regional elseArm) (ht : Sound p test InReach) (ha : Sound p thenArm InReach)
    (he : Sound p elseArm InReach) :
    Sound p (conditional form testSpan thenSpan test thenArm elseArm) InReach := by
  intro signature doms B b tv B' h hn hat
  obtain ⟨t, T, parked, P, condition, D, u, A, w, C, testEnd, thenEnd, elseEnd, L, h₁, h₂, h₃, h₄,
    h₅, htype, rfl, rfl⟩ := h.layout rt ra re hat.cursor hat.bound hn
  have hlen := L.lengths
  have hlenE := Builder.left_length L.thenArm.cursor L.thenArm.bound parked u.value
    (B.function.blocks.length + 3)
  obtain ⟨doms₁, doms₂, doms₃, S⟩ := conditional_stages ht ha he L h₁ h₂ h₃ h₄ h₅ hat
  -- the dominators of older blocks and of the four new ones
  have hagree₃ : ∀ c, c < A.function.blocks.length → doms₃ c = doms₂ c := by
    intro c hc
    exact S.elseArm.agree c (by rw [Builder.enter_function, hlenE]; exact hc)
  have hagree : ∀ c, c < B.function.blocks.length + 4 →
      doms₃ c = spread doms b B.function.blocks.length c := by
    intro c hc
    rw [hagree₃ c (by omega), S.thenArm.agree c (by simp [Builder.branched]; omega),
      S.test.agree c (by rw [Builder.opened_length]; exact hc)]
  have hnew₃ : ∀ c, B.function.blocks.length ≤ c → c < B.function.blocks.length + 4 →
      doms₃ c = insert c (doms b) := fun c hc hc' => (hagree c hc').trans (spread_new hc)
  have hslotC : ∀ slot, parked = some slot → slot < C.function.slots.length := by
    intro slot hs
    have hEx := (Builder.left_grown L.thenArm.cursor L.thenArm.bound parked u.value
      (B.function.blocks.length + 3)).slots.length_le
    exact (S.slot slot hs).trans_le (S.thenArm.grown.slots.length_le.trans
      (hEx.trans S.elseArm.grown.slots.length_le))
  have hup₃ : doms b ⊆ doms₃ elseEnd := by
    have := S.elseArm.above
    rw [← hagree₃ _ (by omega), hnew₃ _ (by omega) (by omega)] at this
    exact (Set.subset_insert _ _).trans this
  have hdoms₃ : doms₃ (B.function.blocks.length + 3) ⊆
      insert (B.function.blocks.length + 3) (doms₃ elseEnd) := by
    rw [hnew₃ (B.function.blocks.length + 3) (by omega) (by omega)]
    exact Set.insert_subset_insert hup₃
  have hF := left_built S.elseArm.state S.elseValue hslotC (by omega) hdoms₃
  -- the join
  have hu₃ : Has p A doms₃ thenEnd u.value u.type.machineType :=
    Has.mono S.thenValue (.refl A) (hagree₃ thenEnd L.thenArm.bound).superset
  have hw₃ : Has p C doms₃ elseEnd w.value u.type.machineType := htype ▸ S.elseValue
  obtain ⟨hJ, hs⟩ := joined_built L S.thenArm.state.unfinished hu₃ S.elseArm.state.unfinished hw₃
    hslotC hF u.type.byteSize
  have hZ := At.enter hJ (c := B.function.blocks.length + 3) (by rw [L.joined_length]; omega)
    (L.block_join _ ▸ Ir.unfinished_nil)
  refine ⟨doms₃, B.function.blocks.length + 3, ⟨?_, ?_, hZ.load _ hs, ?_⟩,
    hZ.has_new _ (List.cons_ne_nil _ _) fun _ => rfl⟩
  · intro c hc
    rw [hagree c (by omega), spread_old hc]
  · rw [hnew₃ _ (by omega) (by omega)]
    exact Set.subset_insert _ _
  · exact (L.region _ _).grown.toExtends

/-! ## Expressions and statements -/

mutual

theorem expression_sound : ∀ node : Node, Sound p (expression p node) InReach
  | .literal _ l => by
      rw [expression]
      exact literal_sound l
  | .name _ _ => by
      intro signature doms B b tv B' h _ _
      rw [expression] at h
      exact absurd h not_builds_bareName
  | .binary _ _ lhs rhs => by
      intro signature doms B b tv B' h hn hat
      rw [expression] at h
      obtain ⟨x, B₁, h₁, h⟩ := h.bind
      obtain ⟨y, B₂, h₂, h⟩ := h.bind
      obtain ⟨doms₁, b₁, l₁, r₁⟩ := expression_sound lhs signature doms B b x B₁ h₁ hn hat
      obtain ⟨_, g₁⟩ := expression_regional p lhs B x B₁ b h₁ hat.cursor hat.bound hn
      obtain ⟨doms₂, b₂, l₂, r₂⟩ := expression_sound rhs signature doms₁ B₁ b₁ y B₂ h₂
        (g₁.grown.numbered hn) l₁.state
      obtain ⟨l₃, r₃⟩ := binary_lands h l₂.state (r₁.mono l₂) r₂
      exact ⟨doms₂, b₂, (l₁.trans l₂).trans l₃, r₃⟩
  | .negate _ operand => by
      intro signature doms B b tv B' h hn hat
      rw [expression] at h
      obtain ⟨x, B₁, h₁, h⟩ := h.bind
      obtain ⟨doms₁, b₁, l₁, r₁⟩ := expression_sound operand signature doms B b x B₁ h₁ hn hat
      obtain ⟨l₂, r₂⟩ := unary_lands h l₁.state r₁
      exact ⟨doms₁, b₁, l₁.trans l₂, r₂⟩
  | .conditional _ _ test thenArm elseArm => by
      rw [expression]
      exact conditional_sound (expression_regional p test) (expression_regional p thenArm)
        (expression_regional p elseArm) (expression_sound test) (expression_sound thenArm)
        (expression_sound elseArm)
  | .function _ _ _ _ => by
      intro signature doms B b tv B' h _ _
      rw [expression] at h
      exact absurd h not_builds_fail
  | .call _ _ args => by
      rw [expression]
      exact call_sound (arguments_sound args)

theorem arguments_sound :
    ∀ nodes : List Node, Sound p (arguments p nodes) (ArgumentsInReach nodes.length)
  | [] => by
      intro signature doms B b vs B' h _ hat
      rw [arguments] at h
      obtain ⟨rfl, rfl⟩ := h.pure
      exact ⟨doms, b, ⟨fun _ _ => rfl, subset_rfl, hat, .refl _⟩, rfl, by simp⟩
  | node :: rest => by
      intro signature doms B b vs B' h hn hat
      rw [arguments] at h
      obtain ⟨x, B₁, h₁, h⟩ := h.bind
      obtain ⟨xs, B₂, h₂, h⟩ := h.bind
      obtain ⟨rfl, rfl⟩ := h.pure
      obtain ⟨doms₁, b₁, l₁, r₁⟩ := expression_sound node signature doms B b x B₁ h₁ hn hat
      obtain ⟨_, g₁⟩ := expression_regional p node B x B₁ b h₁ hat.cursor hat.bound hn
      obtain ⟨doms₂, b₂, l₂, hlen, r₂⟩ := arguments_sound rest signature doms₁ B₁ b₁ xs _ h₂
        (g₁.grown.numbered hn) l₁.state
      refine ⟨doms₂, b₂, l₁.trans l₂, by simp [hlen], ?_⟩
      intro v hv
      rcases List.mem_cons.mp hv with rfl | hv
      · exact ⟨_, r₁.mono l₂⟩
      · exact r₂ v hv

end

theorem statements_sound :
    ∀ nodes : List Node, Sound p (statements p nodes) InReach
  | [] => by
      intro signature doms B b tv B' h _ hat
      obtain ⟨v, B₁, h₁, h⟩ := Builds.bind h
      obtain ⟨rfl, rfl⟩ := h.pure
      obtain ⟨rfl, rfl⟩ := h₁.build
      have g : Gives p signature doms b (Ir.Build.iconst .i64 0) B .i64 :=
        .const hat (fun _ => rfl) fun _ => by decide
      exact ⟨doms, b, .of_gives g, g.has⟩
  | [node] => expression_sound node
  | node :: next :: rest => by
      intro signature doms B b tv B' h hn hat
      obtain ⟨x, B₁, h₁, h⟩ := Builds.bind h
      obtain ⟨doms₁, b₁, l₁, -⟩ := expression_sound node signature doms B b x B₁ h₁ hn hat
      obtain ⟨_, g₁⟩ := expression_regional p node B x B₁ b h₁ hat.cursor hat.bound hn
      obtain ⟨doms₂, b₂, l₂, r₂⟩ := statements_sound (next :: rest) signature doms₁ B₁ b₁ tv B' h
        (g₁.grown.numbered hn) l₁.state
      exact ⟨doms₂, b₂, l₁.trans l₂, r₂⟩

end Lower

/-! ## Routines -/

theorem prepared_at (p : Program) (signature : Signature) (name : String) :
    At p signature (fun c => {c}) 1 (.prepared name) where
  built := by
    have hblock := prepared_block name
    refine ⟨?_, ?_, ?_, ?_, ?_, ⟨subset_rfl, ?_⟩, fun _ => rfl, ?_⟩
    · intro c
      rw [hblock]
      exact Or.inl Ir.unfinished_nil
    · intro c s hs
      rw [hblock] at hs
      cases hs
    · intro _ c s hs
      rw [hblock] at hs
      cases hs
    · exact List.Perm.refl []
    · intro c
      rw [hblock]
      trivial
    · rintro b c ⟨s, hs, -⟩
      rw [hblock] at hs
      cases hs
    · rintro i ⟨⟩
  cursor := rfl
  bound := by simp
  unfinished := by
    rw [prepared_block]
    exact Ir.unfinished_nil

section Finished

variable {p : Program} {name : String} {E : Builder} {e : Nat} {doms : Nat → Set Nat}
  {signature : Signature} {v : Ir.ValueId} {ty : MachineType}

/-- The blocks around a body keep code well built. -/
theorem finished_built (hE : Ir.Region (.prepared name) 1 E e)
    (hat : At p ⟨[], [ty]⟩ doms e E) (hv : Has p E doms e v ty)
    (hdoms : ∀ c, c < 3 → doms c = {c}) (size : Nat) :
    WellBuilt p ⟨[], [ty]⟩ (E.finished v ty size) doms := by
  have hb := bodyEnd_bounds hE
  -- the entry
  have h₀ : At p ⟨[], [ty]⟩ doms 0 ((E.enter 0).withSlot size) :=
    (At.enter hat.built (by omega) (outer_block hE (Or.inl rfl) ▸ Ir.unfinished_nil)).withSlot size
  have hjump : WellBuilt p ⟨[], [ty]⟩ (((E.enter 0).withSlot size).emitted (.jump 1) []) doms := by
    refine h₀.finish rfl ?_ (by simp [Ir.Inst.operands]) ?_
    · have hlt : 1 < E.function.blocks.length := by omega
      simp [Ir.Function.resultTypes?, Ir.Function.typesOf?, Ir.Inst.operands, Builder.code, hlt]
    · simp [Ir.Inst.targets, hdoms]
  have hx := ((Builder.Extends.enter E 0).trans (.withSlot _ size)).trans
    (.emitted_at _ h₀.cursor h₀.bound (.jump 1) [])
  -- the end of the body
  have h₁ : At p ⟨[], [ty]⟩ doms e (E.entered size E.cursor) := by
    refine ⟨hjump.of_same (fun _ => rfl) ⟨List.prefix_rfl, List.prefix_rfl, Nat.le_refl _,
      Nat.le_refl _, rfl⟩ rfl rfl hjump.imports, hE.cursor, ?_, ?_⟩
    · simpa [Builder.entered] using hb.2.1
    · rw [Ir.Builder.block_entered (by omega), if_neg (by omega)]
      exact hat.unfinished
  have hx₁ : E.Extends (E.entered size E.cursor) :=
    ⟨hx.values, hx.slots, hx.imports, hx.signature, hx.count, hx.length, hx.mem⟩
  have hslot : E.function.slots.length < (E.entered size E.cursor).function.slots.length := by
    simp [Builder.entered]
  have h₂ := h₁.store (hv.mono hx₁ subset_rfl) hslot
  have hleft : WellBuilt p ⟨[], [ty]⟩ (((E.entered size E.cursor).emitted
      (.store v E.function.slots.length) []).emitted (.jump 2) []) doms := by
    refine h₂.finish rfl ?_ (by simp [Ir.Inst.operands]) ?_
    · have hlt : 2 < E.function.blocks.length := by omega
      simp [Ir.Function.resultTypes?, Ir.Function.typesOf?, Ir.Inst.operands, Builder.code,
        Builder.entered, hlt]
    · simp [Ir.Inst.targets, hdoms]
  -- the exit
  have h₃ : At p ⟨[], [ty]⟩ doms 2
      ((E.entered size E.cursor).leaving v E.function.slots.length) := by
    refine At.enter hleft (by simp [Builder.entered]; omega) ?_
    have he := Ir.Builder.block_leaving h₁.cursor h₁.bound v E.function.slots.length 2
    rw [if_neg (by omega), Ir.Builder.block_entered (by omega), if_neg (by omega),
      outer_block hE (Or.inr rfl)] at he
    rw [Builder.leaving, Builder.enter_function] at he
    rw [he]
    exact Ir.unfinished_nil
  have hload := h₃.load ty hslot
  have hret : At p ⟨[], [ty]⟩ doms 2
      ((((E.entered size E.cursor).leaving v E.function.slots.length).emitted
        (.load ty E.function.slots.length) [ty]).returning ty) :=
    ⟨hload.built.of_same (fun _ => rfl) ⟨List.prefix_rfl, List.prefix_rfl, Nat.le_refl _,
      Nat.le_refl _, rfl⟩ rfl rfl hload.built.imports, hload.cursor, hload.bound, hload.unfinished⟩
  have hnew := h₃.has_new (.load ty E.function.slots.length) (List.cons_ne_nil ty []) fun _ => rfl
  refine hret.finish rfl ?_ ?_ (by simp [Ir.Inst.targets])
  · simp [Ir.Function.resultTypes?, Ir.Function.typesOf?, Ir.Inst.operands, Builder.code,
      Builder.returning]
  · intro u hu
    rw [Ir.Inst.operands, List.mem_singleton] at hu
    subst hu
    exact ⟨ty, hnew.lt, hnew.type, hnew.reach⟩

/-- All blocks of a finished routine are ended. -/
theorem finished_ended (hE : Ir.Region (.prepared name) 1 E e) (size : Nat) {c : Nat}
    (hc : c < (E.finished v ty size).function.blocks.length) :
    Ir.Ended ((E.finished v ty size).function.block c) := by
  rw [Builder.finished_length] at hc
  rw [finished_block hE v ty size c]
  split
  · exact ⟨_, List.mem_singleton_self _, rfl⟩
  · split
    · exact ⟨⟨E.count + 2, [], .jump 2⟩, by simp, rfl⟩
    · split
      · exact ⟨⟨E.count + 4, [], .ret [E.function.values.length]⟩, by simp, rfl⟩
      · rename_i h₀ he h₂
        exact hE.ended c he (by simp; omega) hc

end Finished

/-- A routine that was lowered from statements is structured. Its signature has no parameters and
    returns the machine type of its result; and what it imports has the signature that it was
    imported with. It is well formed if the functions of the program return what they are said to
    return. -/
theorem Routine.lower_structured {p : Program} {types : TypeTable} {name : String}
    {anonymous : Bool} {nodes : List Node} {r : Routine}
    (h : (Routine.lower p types name anonymous nodes).1 = .ok r) :
    r.code.Structured ∧ r.code.signature = ⟨[], [r.returnType.machineType]⟩ ∧
      (∀ i ∈ r.code.imports, p.signatureAt? i.index = some i.signature) ∧
      (p.Consistent → r.code.WellFormed) := by
  obtain ⟨tv, E, hb, rfl⟩ := Routine.lower_ok h
  obtain ⟨e, hE⟩ := statements_region hb
  obtain ⟨doms, e', l, hv⟩ := Lower.statements_sound nodes ⟨[], [tv.type.machineType]⟩ _ _ _ tv E
    hb (prepared_numbered name) (prepared_at p _ name)
  obtain rfl : e' = e := by injection l.state.cursor.symm.trans hE.cursor
  have hbuilt := finished_built hE l.state hv (fun c hc => l.agree c hc) tv.type.byteSize
  have hsig : (E.finished tv.value tv.type.machineType tv.type.byteSize).function.signature =
      ⟨[], [tv.type.machineType]⟩ := finished_signature hE _ _ _
  have hended : ∀ c, c < (E.finished tv.value tv.type.machineType
      tv.type.byteSize).function.blocks.length → Ir.Ended ((E.finished tv.value
        tv.type.machineType tv.type.byteSize).function.block c) :=
    fun c hc => finished_ended hE tv.type.byteSize hc
  exact ⟨hbuilt.structured hsig hended, hsig, hbuilt.imports, hbuilt.wellFormed hsig hended⟩


theorem Routine.lower_wellFormed {p : Program} (hp : p.Consistent) {types : TypeTable}
    {name : String} {anonymous : Bool} {nodes : List Node} {r : Routine}
    (h : (Routine.lower p types name anonymous nodes).1 = .ok r) :
    r.code.WellFormed ∧ r.code.signature = ⟨[], [r.returnType.machineType]⟩ ∧
      (∀ i ∈ r.code.imports, p.signatureAt? i.index = some i.signature) := by
  obtain ⟨-, hsig, himports, hwf⟩ := Routine.lower_structured h
  exact ⟨hwf hp, hsig, himports⟩

/-- A program with a function from outside that takes and returns a byte. -/
def outsideProgram : Program :=
  { routines := [⟨"f", .unsigned .w8, false, .empty "f" ⟨[.i8], [.i8]⟩⟩] }

/-- A conditional that calls the function with integers of 64 bits and divides the results. -/
def outsideCalls : Node :=
  let call := fun n => Node.call ⟨0, 0⟩ ⟨"f", ⟨0, 0⟩⟩ [.literal ⟨0, 0⟩ (.signed n)]
  .conditional ⟨0, 0⟩ .whenForm (call 0) (.binary ⟨0, 0⟩ .div (call 1) (call 2)) (call 3)

/-- A program with a function from outside that is said to return an integer and returns a float. -/
def misreportedProgram : Program :=
  { routines := [⟨"f", .i64, false, .empty "f" ⟨[], [.f64]⟩⟩] }

end ScalarLang
