import Mathlib
import ScalarLang.Proofs.Ir.Slots
import ScalarLang.Proofs.Lower.SlotUse
import ScalarLang.Proofs.Lower.WellFormed

/-
  Lowered code keeps to the discipline of slots.
  The invariant goes through every expression, along with the invariant of well-built code, which
  says what types the values of the arms have. Code that is made for an expression leads to blocks
  of its own only, and has its loads there. So a join is entered from the two arms alone, which
  have just stored their values when they leave for it.
-/

namespace ScalarLang

namespace Ir

/-- What was made since `B` leads to new blocks only and loads in new blocks only. -/
structure Contained (B B' : Builder) : Prop where
  length : B.function.blocks.length ≤ B'.function.blocks.length
  edges : ∀ c t : Nat, B'.function.Edge c t → B.function.Edge c t ∨ B.function.blocks.length ≤ t
  loads : ∀ c : Nat, c < B.function.blocks.length → NoLoad (B.function.block c) →
    NoLoad (B'.function.block c)

variable {B B' B'' T P D A C : Builder} {b c t : Nat}

theorem Contained.refl (B : Builder) : Contained B B :=
  ⟨Nat.le_refl _, fun _ _ => Or.inl, fun _ _ => id⟩

theorem Contained.trans (h : Contained B B') (h' : Contained B' B'') : Contained B B'' where
  length := h.length.trans h'.length
  edges := by
    intro c t he
    rcases h'.edges c t he with he | hlt
    · exact h.edges c t he
    · exact Or.inr (h.length.trans hlt)
  loads := fun c hc hno => h'.loads c (hc.trans_le h.length) (h.loads c hc hno)

theorem Contained.of_same (hlen : B.function.blocks.length ≤ B'.function.blocks.length)
    (hblock : ∀ c, B'.function.block c = B.function.block c) : Contained B B' where
  length := hlen
  edges := by
    rintro c t ⟨s, hs, ht⟩
    rw [hblock] at hs
    exact Or.inl ⟨s, hs, ht⟩
  loads := by
    intro c _ hno
    rw [hblock]
    exact hno

/-- An instruction that neither ends the block nor loads. -/
theorem Contained.emitted (hc : B.cursor = .atEnd b) (hb : b < B.function.blocks.length)
    (hu : Unfinished (B.function.block b)) {inst : Inst} (hi : inst.isTerminator = false)
    (hload : ∀ ty slot, inst ≠ .load ty slot) (types : List MachineType) :
    Contained B (B.emitted inst types) where
  length := (B.emitted_length inst types).symm.le
  edges := fun c t he => Or.inl ((Inline.emitted hc hb inst hi types).edge hu he)
  loads := by
    intro c _ hno
    rw [B.block_emitted inst types hc hb]
    split
    · rename_i hcb
      intro s hs
      rcases List.mem_append.mp hs with hs | hs
      · exact hno s (hcb ▸ hs)
      · rw [List.mem_singleton.mp hs]
        exact hload
    · exact hno

theorem Builder.imported_block (B : Builder) (index : Nat) (signature : Signature) (c : Nat) :
    (B.imported index signature).2.function.block c = B.function.block c := by
  obtain ⟨added, h, -⟩ := B.imported_snd index signature
  rw [h]
  rfl

/-- Inner instructions change nothing about edges and slots. -/
theorem Silent.contained (h : Silent B B') (hc : B.cursor = .atEnd b)
    (hb : b < B.function.blocks.length) (hu : Unfinished (B.function.block b)) :
    Contained B B' ∧ (B.function.Disciplined → B'.function.Disciplined) := by
  have hstate : B'.cursor = .atEnd b ∧ b < B'.function.blocks.length ∧
      Unfinished (B'.function.block b) ∧ Contained B B' ∧
      (B.function.Disciplined → B'.function.Disciplined) := by
    induction h with
    | refl => exact ⟨hc, hb, hu, .refl B, id⟩
    | @emitted B' inst types _ hi ih =>
        obtain ⟨hc, hb, hu, hcontained, hkeeps⟩ := ih
        have hterm := Inst.isTerminator_of_isInner hi
        have hinline := Inline.emitted hc hb inst hterm types
        have hload : ∀ ty slot, inst ≠ .load ty slot := by
          rintro ty slot rfl
          cases hi
        have hfits : B'.function.SlotFits inst := by cases inst <;> trivial
        refine ⟨hc, hinline.length ▸ hb, hinline.unfinished hu,
          hcontained.trans (.emitted hc hb hu hterm hload types),
          fun hd => (hkeeps hd).emitted hc hb hu hload hfits ?_⟩
        rw [Inst.targets_eq_nil hterm]
        simp
    | @imported B' index signature _ ih =>
        obtain ⟨hc, hb, hu, hcontained, hkeeps⟩ := ih
        have hinline := Inline.imported hc index signature
        have hblock := B'.imported_block index signature
        exact ⟨hinline.cursor, hinline.length ▸ hb, hinline.unfinished hu,
          hcontained.trans (.of_same hinline.length.symm.le hblock),
          fun hd => (hkeeps hd).of_same hinline.grown.toExtends hblock⟩
  exact hstate.2.2.2

/-! ## The steps of a conditional -/

/-- A block that is empty later has no load now. -/
theorem noLoad_of_later (hx : B.Extends B') (h : B'.function.block c = []) :
    NoLoad (B.function.block c) := by
  intro s hs
  have hs := hx.mem c s hs
  rw [h] at hs
  cases hs

namespace Function.Disciplined

theorem opened (h : B.function.Disciplined) (hc : B.cursor = .atEnd b)
    (hb : b < B.function.blocks.length) (hu : Unfinished (B.function.block b)) :
    B.opened.function.Disciplined := by
  have hx := (((Builder.Extends.withBlock B).trans (.withBlock _)).trans (.withBlock _)).trans
    (.withBlock _)
  have hblock (c : Nat) : B.withBlock.withBlock.withBlock.withBlock.function.block c =
      B.function.block c := by simp only [Builder.withBlock_block]
  refine emitted (h.of_same hx hblock) hc ?_ ?_ (by simp) trivial ?_
  · simp only [Builder.withBlock_length]
    omega
  · rw [hblock]
    exact hu
  · intro t ht
    rw [List.mem_singleton.mp ht, hblock, Function.block_eq_nil (Nat.le_refl _)]
    exact noLoad_nil

/-- An arm is left for a block without a load. -/
theorem left (h : B.function.Disciplined) (hc : B.cursor = .atEnd b)
    (hb : b < B.function.blocks.length) (hu : Unfinished (B.function.block b))
    {parked : Option SlotId} {v : ValueId} {join : Nat}
    (hfits : ∀ slot, parked = some slot → B.function.SlotFits (.store v slot))
    (hjoin : NoLoad ((B.left parked v join).function.block join)) :
    (B.left parked v join).function.Disciplined := by
  have hs := Builder.stored_inline hc hb parked v
  have hstored : (B.stored parked v).function.Disciplined := by
    cases parked with
    | some slot => exact h.emitted hc hb hu (by simp) (hfits slot rfl) (by simp [Inst.targets])
    | none => exact h
  refine hstored.emitted hs.cursor (hs.length ▸ hb) (hs.unfinished hu) (by simp) trivial ?_
  intro t ht
  rw [List.mem_singleton.mp ht]
  intro s hmem
  exact hjoin s ((Builder.Extends.emitted_at _ hs.cursor (hs.length ▸ hb) _ _).mem join s hmem)

/-- A store is inserted before the jump that leaves an arm. -/
theorem insertStore (h : B.function.Disciplined) {n : Nat} {X : Block} {j : Stmt}
    (hm : B.Marks n b X j) (hc : B.cursor = .before n) (hX : Unfinished X)
    (hj : j.inst = .jump t) (ht : NoLoad (B.function.block t)) {v : ValueId} {slot : SlotId}
    (hfits : B.function.SlotFits (.store v slot)) :
    (B.emitted (.store v slot) []).function.Disciplined := by
  have hx := Builder.Extends.emitted_before B hc (.store v slot) []
  refine h.put (.at_mark hm hc (.store v slot) []) hx (by simp [Builder.stmt]) ?_ (hfits.mono hx)
    (by simp [Builder.stmt, Inst.targets]) ?_
  · intro s hs
    rw [List.mem_singleton.mp hs, hj]
    simp
  · rintro c ⟨s, hs, hmem⟩
    rw [hm.block] at hs
    rcases List.mem_append.mp hs with hs | hs
    · rw [Inst.targets_eq_nil (hX s hs)] at hmem
      cases hmem
    · rw [List.mem_singleton.mp hs, hj] at hmem
      rw [List.mem_singleton.mp hmem]
      exact ht

/-- Stores of values of one type inserted before two jumps to one block. -/
theorem inserted (h : B.function.Disciplined) {n n' b' : Nat} {X X' : Block} {j j' : Stmt}
    (hm : B.Marks n b X j) (hm' : B.Marks n' b' X' j') (hne : b' ≠ b) (hn : n' < B.count)
    (hX : Unfinished X) (hX' : Unfinished X') (hj : j.inst = .jump t) (hj' : j'.inst = .jump t)
    (hb : t ≠ b) (ht : NoLoad (B.function.block t)) {u w : ValueId} {ty : MachineType}
    (hu : B.function.values[u]? = some ty) (hw : B.function.values[w]? = some ty) :
    (B.inserted ty.bytes u w n n').function.Disciplined := by
  have h₁ : ((B.withSlot ty.bytes).before n).Marks n b X j := hm.of_same fun _ => rfl
  have h₂ := h₁.inserted (hm'.of_same fun _ => rfl) hne hn rfl (.store u B.function.slots.length) []
  have h₃ : ((((B.withSlot ty.bytes).before n).emitted (.store u B.function.slots.length)
    []).before n').Marks n' b' X' j' := h₂.of_same fun _ => rfl
  have hslot : ((B.withSlot ty.bytes).before n).function.slots[B.function.slots.length]? =
      some ty.bytes := by simp [Builder.before, Builder.withSlot]
  have hx := Builder.Extends.emitted_before ((B.withSlot ty.bytes).before n) rfl
    (.store u B.function.slots.length) []
  have hw' : ((B.withSlot ty.bytes).before n).function.SlotFits
      (.store w B.function.slots.length) := ⟨ty, ty.bytes, hw, hslot, Nat.le_refl _⟩
  have d₁ : ((B.withSlot ty.bytes).before n).function.Disciplined :=
    h.of_same ((Builder.Extends.withSlot B _).trans (.before _ n)) fun _ => rfl
  have d₂ : ((((B.withSlot ty.bytes).before n).emitted (.store u B.function.slots.length)
      []).before n').function.Disciplined :=
    d₁.insertStore h₁ rfl hX hj ht ⟨ty, ty.bytes, hu, hslot, Nat.le_refl _⟩
  refine d₂.insertStore h₃ rfl hX' hj' ?_ (hw'.mono hx)
  rw [Builder.before_function, h₁.block_inserted rfl, if_neg hb]
  exact ht

end Function.Disciplined

/-! ## The edges and slots of a conditional -/

namespace Layout

variable {parked : Option SlotId} {condition u w : ValueId} {testEnd thenEnd elseEnd : Nat}
  (L : Layout B b T P D A C parked condition u w testEnd thenEnd elseEnd)
include L

/-- The edges of a conditional: into its test, from the test to the arms, from the arms to the join,
    and those within the parts. -/
theorem edge_cases (hT : Contained B.opened T)
    (hA : Contained (D.branched condition B.function.blocks.length) A)
    (hC : Contained ((A.left parked u (B.function.blocks.length + 3)).enter
      (B.function.blocks.length + 2)) C) {size : Nat}
    (he : (A.joined C parked size u w (B.function.blocks.length + 3)).2.function.Edge c t) :
    B.function.Edge c t ∨ (c = b ∧ t = B.function.blocks.length) ∨
      (c = testEnd ∧ (t = B.function.blocks.length + 1 ∨ t = B.function.blocks.length + 2)) ∨
      ((c = thenEnd ∨ c = elseEnd) ∧ t = B.function.blocks.length + 3) ∨
      B.function.blocks.length + 4 ≤ t := by
  have hlen := L.lengths
  have hX : (D.branched condition B.function.blocks.length).function.blocks.length =
      D.function.blocks.length := by simp [Builder.branched]
  have hE := Builder.left_length L.thenArm.cursor L.thenArm.bound parked u
    (B.function.blocks.length + 3)
  have hO := B.opened_length
  obtain ⟨huT, huA, huC⟩ := L.unfinished_ends
  -- back from the end: the second arm
  rcases Builder.left_edge L.elseArm.cursor L.elseArm.bound huC (L.joined_edge he) with
    he | ⟨rfl, rfl⟩
  swap
  · exact Or.inr (Or.inr (Or.inr (Or.inl ⟨Or.inr rfl, rfl⟩)))
  rcases hC.edges c t he with he | hlt
  swap
  · rw [Builder.enter_function] at hlt
    omega
  -- the first arm
  rcases Builder.left_edge L.thenArm.cursor L.thenArm.bound huA he with he | ⟨rfl, rfl⟩
  swap
  · exact Or.inr (Or.inr (Or.inr (Or.inl ⟨Or.inl rfl, rfl⟩)))
  rcases hA.edges c t he with he | hlt
  swap
  · omega
  -- the test and the branch
  rcases Builder.emitted_edge L.decided.cursor L.ends.2.1 he with he | ⟨rfl, ht⟩
  swap
  · simp only [Inst.targets, List.mem_cons, List.not_mem_nil, or_false] at ht
    exact Or.inr (Or.inr (Or.inl ⟨rfl, ht⟩))
  rcases hT.edges c t ((L.park.trans L.decided).edge huT he) with he | hlt
  swap
  · omega
  exact (Builder.opened_edge L.cursor L.bound he).imp_right Or.inl

theorem contained (hT : Contained B.opened T)
    (hA : Contained (D.branched condition B.function.blocks.length) A)
    (hC : Contained ((A.left parked u (B.function.blocks.length + 3)).enter
      (B.function.blocks.length + 2)) C) (size : Nat) (ty : MachineType) (slot : SlotId) :
    Contained B (((A.joined C parked size u w (B.function.blocks.length + 3)).2.enter
      (B.function.blocks.length + 3)).emitted (.load ty slot) [ty]) := by
  have hlen := L.lengths
  have hb := L.bound
  have hJ := L.joined_length size
  have hload (c : Nat) := Builder.block_emitted (b := B.function.blocks.length + 3)
    ((A.joined C parked size u w (B.function.blocks.length + 3)).2.enter
      (B.function.blocks.length + 3)) (.load ty slot) [ty] rfl
    (by rw [Builder.enter_function, hJ]; omega) c
  refine ⟨by rw [Builder.emitted_length, Builder.enter_function, hJ]; omega, ?_, ?_⟩
  · intro c t he
    have hjoin : B.function.blocks.length + 3 < ((A.joined C parked size u w
      (B.function.blocks.length + 3)).2.enter
      (B.function.blocks.length + 3)).function.blocks.length := by
      rw [Builder.enter_function, hJ]
      omega
    rcases Builder.emitted_edge rfl hjoin he with he | ⟨-, ht⟩
    · rcases L.edge_cases hT hA hC he with he | ⟨-, rfl⟩ | ⟨-, rfl | rfl⟩ | ⟨-, rfl⟩ | hlt
      · exact Or.inl he
      all_goals exact Or.inr (by omega)
    · cases ht
  · -- older blocks get at most the jump into the conditional
    intro c hc hno
    have hold : ¬ (c = B.function.blocks.length ∨ c = B.function.blocks.length + 1 ∨
        c = B.function.blocks.length + 2) := by omega
    rw [hload, if_neg (by omega), Builder.enter_function,
      (L.grown_opened_joined size).block_eq (by rw [Builder.opened_length]; omega) hold,
      Builder.block_opened L.cursor L.bound]
    split
    · rename_i hcb
      intro s hs
      rcases List.mem_append.mp hs with hs | hs
      · exact hno s (hcb ▸ hs)
      · rw [List.mem_singleton.mp hs]
        simp [Builder.stmt]
    · exact hno

/-- Arms with values of one type meet in a slot that they fit. -/
theorem joined_disciplined {ty : MachineType} (h : C.function.Disciplined)
    (hu : A.function.values[u]? = some ty) (hw : C.function.values[w]? = some ty)
    (hslot : ∀ slot, parked = some slot →
      ∃ size, C.function.slots[slot]? = some size ∧ ty.bytes ≤ size) :
    (A.joined C parked ty.bytes u w (B.function.blocks.length + 3)).2.function.Disciplined ∧
      (A.joined C parked ty.bytes u w (B.function.blocks.length + 3)).2.function.SlotFits
        (.load ty (A.joined C parked ty.bytes u w (B.function.blocks.length + 3)).1) := by
  obtain ⟨-, huA, huC⟩ := L.unfinished_ends
  have hlen := L.lengths
  have hends := L.ends
  have hleft := (Builder.left_grown L.elseArm.cursor L.elseArm.bound parked w
    (B.function.blocks.length + 3)).toExtends
  have hjoin : NoLoad ((C.left parked w (B.function.blocks.length + 3)).function.block
      (B.function.blocks.length + 3)) :=
    noLoad_of_later (Builder.met_extends _ parked ty.bytes u w _ _) (L.block_join ty.bytes)
  have hd := h.left L.elseArm.cursor L.elseArm.bound huC (fun slot hs => by
    obtain ⟨size, hsize, hle⟩ := hslot slot hs
    exact ⟨ty, size, hw, hsize, hle⟩) hjoin
  cases parked with
  | some slot =>
      exact ⟨hd, (show C.function.SlotFits (.load ty slot) from hslot slot rfl).mono hleft⟩
  | none =>
      have hA : A.Extends (C.left none w (B.function.blocks.length + 3)) :=
        (Builder.left_grown L.thenArm.cursor L.thenArm.bound none u _).toExtends.trans
          L.grown_left.toExtends
      refine ⟨hd.inserted L.marks_then L.marks_else L.thenEnd_ne_elseEnd (Nat.lt_succ_self _)
        huA huC rfl rfl (by omega) hjoin (hA.getElem?_values hu) (hleft.getElem?_values hw),
        ty.bytes, ?_, Nat.le_refl _⟩
      simp [Builder.joined, Builder.met, Builder.inserted, Builder.withSlot]

/-- The load where arms meet is fed by both of them. -/
theorem load_disciplined {ty : MachineType} (hT : Contained B.opened T)
    (hA : Contained (D.branched condition B.function.blocks.length) A)
    (hC : Contained ((A.left parked u (B.function.blocks.length + 3)).enter
      (B.function.blocks.length + 2)) C)
    (hB : ∀ c t : Nat, B.function.Edge c t → t < B.function.blocks.length)
    (h : C.function.Disciplined) (hu : A.function.values[u]? = some ty)
    (hw : C.function.values[w]? = some ty)
    (hslot : ∀ slot, parked = some slot →
      ∃ size, C.function.slots[slot]? = some size ∧ ty.bytes ≤ size) :
    (((A.joined C parked ty.bytes u w (B.function.blocks.length + 3)).2.enter
      (B.function.blocks.length + 3)).emitted
      (.load ty (A.joined C parked ty.bytes u w (B.function.blocks.length + 3)).1)
      [ty]).function.Disciplined := by
  obtain ⟨hd, hfits⟩ := L.joined_disciplined h hu hw hslot
  have hlen := L.lengths
  have hJ := L.joined_length ty.bytes
  have hjoin : B.function.blocks.length + 3 < ((A.joined C parked ty.bytes u w
      (B.function.blocks.length + 3)).2.enter
      (B.function.blocks.length + 3)).function.blocks.length := by
    rw [Builder.enter_function, hJ]
    omega
  have hput := Put.at_end rfl hjoin (.load ty (A.joined C parked ty.bytes u w
    (B.function.blocks.length + 3)).1) [ty]
  rw [Builder.enter_function, L.block_join] at hput
  have hx := Builder.Extends.emitted_at _ rfl hjoin (.load ty (A.joined C parked ty.bytes u w
    (B.function.blocks.length + 3)).1) [ty]
  refine Function.Disciplined.load (B := (A.joined C parked ty.bytes u w
    (B.function.blocks.length + 3)).2.enter (B.function.blocks.length + 3)) hd hput hx rfl
    (Nat.succ_ne_zero _) (Function.SlotFits.mono hx hfits) ?_
  intro d he
  rcases L.edge_cases hT hA hC he with he | ⟨-, he⟩ | ⟨-, he⟩ | ⟨rfl | rfl, -⟩ | he
  · have := hB _ _ he
    omega
  · omega
  · omega
  · obtain ⟨m, n, hblock⟩ := L.block_thenEnd ty.bytes
    exact ⟨_, m, n, u, hblock, (L.thenArm_extends ty.bytes).getElem?_values hu⟩
  · obtain ⟨m, n, hblock⟩ := L.block_elseEnd ty.bytes
    exact ⟨_, m, n, w, hblock, (L.elseArm_extends ty.bytes).getElem?_values hw⟩
  · omega

end Layout

end Ir

/-! ## Lowering -/

namespace Lower

open Ir (Builder At WellBuilt Contained Silent Layout)

variable {α β : Type} {p : Program} {signature : Signature} {doms : Nat → Set Nat}
  {B B' : Builder} {b : Nat}

/-- What the step makes at the end of an open block is contained and keeps the discipline. -/
def Orderly (p : Program) (x : Lower α) : Prop :=
  ∀ (signature : Signature) (doms : Nat → Set Nat) (B : Builder) (b : Nat) (a : α) (B' : Builder),
    Builds x B a B' → B.Numbered → At p signature doms b B →
      Contained B B' ∧ (B.function.Disciplined → B'.function.Disciplined)

theorem edge_lt (h : WellBuilt p signature B doms) {c t : Nat} (he : B.function.Edge c t) :
    t < B.function.blocks.length := by
  obtain ⟨s, hs, ht⟩ := he
  exact (h.shaped c s hs).targets t ht

theorem bytes_le_widestSlot (ty : MachineType) : ty.bytes ≤ widestSlot := by
  cases ty <;> decide

/-- A test of any type fits the slot that it is parked in. -/
theorem parkTest_disciplined (hp : p.Consistent) {form : ConditionalForm} {t : TypedValue}
    {parked : Option Ir.SlotId} (h : Builds (parkTest form t) B parked B')
    (hat : At p signature doms b B) (ht : InReach p B doms b t) (hd : B.function.Disciplined) :
    B'.function.Disciplined ∧
      ∀ slot, parked = some slot → B'.function.slots[slot]? = some widestSlot := by
  cases form with
  | ifForm =>
      obtain ⟨rfl, rfl⟩ := h.parkTest_if
      have hslot : (B.withSlot widestSlot).function.slots[B.function.slots.length]? =
          some widestSlot := by simp [Builder.withSlot]
      have hS : (B.withSlot widestSlot).function.Disciplined :=
        hd.of_same (.withSlot B _) fun _ => rfl
      refine ⟨hS.emitted hat.cursor hat.bound hat.unfinished (by simp)
        ⟨_, _, ht.type hp, hslot, bytes_le_widestSlot _⟩ (by simp [Ir.Inst.targets]), ?_⟩
      rintro slot ⟨⟩
      exact hslot
  | whenForm =>
      obtain ⟨rfl, rfl⟩ := h.parkTest_when
      exact ⟨hd, by simp⟩

namespace Orderly

theorem of_silent {x : Lower α} (h : ∀ {B a B'}, Builds x B a B' → Silent B B') : Orderly p x :=
  fun _ _ _ _ _ _ hx _ hat => (h hx).contained hat.cursor hat.bound hat.unfinished

theorem of_not_builds {x : Lower α} (h : ∀ {B a B'}, ¬ Builds x B a B') : Orderly p x :=
  fun _ _ _ _ _ _ hx => absurd hx h

theorem pure (a : α) : Orderly p (pure a : Lower α) :=
  of_silent fun h => by
    obtain ⟨-, rfl⟩ := h.pure
    exact .refl _

theorem bind {x : Lower α} {f : α → Lower β}
    {Good : Program → Builder → (Nat → Set Nat) → Nat → α → Prop} (r : Regional x)
    (s : Sound p x Good) (hx : Orderly p x) (hf : ∀ a, Orderly p (f a)) : Orderly p (x >>= f) := by
  intro signature doms B b v B'' h hn hat
  obtain ⟨a, B', h₁, h₂⟩ := h.bind
  obtain ⟨_, r₁⟩ := r B a B' b h₁ hat.cursor hat.bound hn
  obtain ⟨doms', b', l₁, -⟩ := s signature doms B b a B' h₁ hn hat
  obtain ⟨c₁, d₁⟩ := hx signature doms B b a B' h₁ hn hat
  obtain ⟨c₂, d₂⟩ := hf a signature doms' B' b' v B'' h₂ (r₁.grown.numbered hn) l₁.state
  exact ⟨c₁.trans c₂, d₂ ∘ d₁⟩

theorem call {span : Span} {callee : Ident} {count : Nat} {args : Lower (List Ir.ValueId)}
    (s : Sound p args (ArgumentsInReach count)) (h : Orderly p args) :
    Orderly p (Lower.call p span callee count args) := by
  intro signature doms B b tv B' hx hn hat
  obtain ⟨index, routine, values, B₁, i, -, -, -, h₁, -, -, rfl⟩ := hx.call
  obtain ⟨doms', b', l₁, -⟩ := s signature doms B b values B₁ h₁ hn hat
  obtain ⟨c₁, d₁⟩ := h signature doms B b values B₁ h₁ hn hat
  have hcall : Silent B₁ ((B₁.imported index routine.signature).2.emitted
      (.call (B₁.imported index routine.signature).1 values) i.signature.results) :=
    .emitted (.imported (.refl B₁)) rfl
  obtain ⟨c₂, d₂⟩ := hcall.contained l₁.state.cursor l₁.state.bound l₁.state.unfinished
  exact ⟨c₁.trans c₂, d₂ ∘ d₁⟩

theorem conditional (hp : p.Consistent) {form : ConditionalForm} {testSpan thenSpan : Span}
    {test thenArm elseArm : Lower TypedValue} (rt : Regional test) (ra : Regional thenArm)
    (re : Regional elseArm) (st : Sound p test InReach) (sa : Sound p thenArm InReach)
    (se : Sound p elseArm InReach) (ht : Orderly p test) (ha : Orderly p thenArm)
    (he : Orderly p elseArm) :
    Orderly p (Lower.conditional form testSpan thenSpan test thenArm elseArm) := by
  intro signature doms B b tv B' h hn hat
  obtain ⟨t, T, parked, P, condition, D, u, A, w, C, testEnd, thenEnd, elseEnd, L, h₁, h₂, h₃, h₄,
    h₅, htype, -, rfl⟩ := h.layout rt ra re hat.cursor hat.bound hn
  obtain ⟨doms₁, doms₂, doms₃, S⟩ := conditional_stages st sa se L h₁ h₂ h₃ h₄ h₅ hat
  obtain ⟨cT, dT⟩ := ht signature _ _ _ t T h₁ L.opened_numbered S.opened
  obtain ⟨cA, dA⟩ := ha signature _ _ _ u A h₄ L.branched_numbered S.branched
  obtain ⟨cC, dC⟩ := he signature _ _ _ w C h₅ (fun c s hs => L.left_numbered c s hs) S.entered
  refine ⟨L.contained cT cA cC _ _ _, fun hd => ?_⟩
  obtain ⟨huT, huA, huC⟩ := L.unfinished_ends
  -- the test, parked or not
  obtain ⟨hP, hslot⟩ := parkTest_disciplined hp h₂ S.test.state S.testValue
    (dT (hd.opened hat.cursor hat.bound hat.unfinished))
  have hD := ((unary_silent h₃).contained L.park.cursor (L.park.length ▸ L.test.bound)
    (L.park.unfinished huT)).2 hP
  -- the slot of a parked test is as wide as can be
  have hX := (Builder.branched_grown L.decided.cursor L.ends.2.1 condition.value
    B.function.blocks.length).toExtends
  have hE := (Builder.left_grown L.thenArm.cursor L.thenArm.bound parked u.value
    (B.function.blocks.length + 3)).toExtends
  have hxA : P.Extends A := (L.decided.grown.toExtends.trans hX).trans L.thenArm.grown.toExtends
  have hxC : A.Extends C := (hE.trans (.enter _ _)).trans L.elseArm.grown.toExtends
  have hslotA : ∀ slot, parked = some slot → A.function.slots[slot]? = some widestSlot :=
    fun slot hs => hxA.getElem?_slots (hslot slot hs)
  -- the branch and the first arm
  have hthen : Ir.NoLoad (D.function.block (B.function.blocks.length + 1)) :=
    Ir.noLoad_of_later hX L.block_thenStart
  have helse : Ir.NoLoad (D.function.block (B.function.blocks.length + 2)) :=
    Ir.noLoad_of_later ((hX.trans L.thenArm.grown.toExtends).trans hE) L.block_elseStart
  have hA := dA (hD.emitted L.decided.cursor L.ends.2.1
    ((L.park.trans L.decided).unfinished huT) (by simp) trivial (by
      intro c hc
      simp only [Ir.Inst.targets, List.mem_cons, List.not_mem_nil, or_false] at hc
      rcases hc with rfl | rfl
      · exact hthen
      · exact helse))
  have hjoin := Ir.noLoad_of_later (L.grown_left.toExtends.trans
    (Builder.met_extends _ parked 0 u.value w.value _ _)) (L.block_join 0)
  have hC := dC (hA.left L.thenArm.cursor L.thenArm.bound huA
    (fun slot hs => ⟨_, _, S.thenValue.type hp, hslotA slot hs, bytes_le_widestSlot _⟩) hjoin)
  exact L.load_disciplined cT cA cC (fun _ _ => edge_lt hat.built) hC (S.thenValue.type hp)
    (htype ▸ S.elseValue.type hp)
    fun slot hs => ⟨_, hxC.getElem?_slots (hslotA slot hs), bytes_le_widestSlot _⟩

end Orderly

mutual

theorem expression_orderly (hp : p.Consistent) : ∀ node : Node, Orderly p (expression p node)
  | .literal _ l => by
      rw [expression]
      exact .of_silent literal_silent
  | .name _ _ => by
      rw [expression]
      exact .of_not_builds not_builds_bareName
  | .binary _ _ lhs rhs => by
      rw [expression]
      exact .bind (expression_regional p lhs) (expression_sound lhs) (expression_orderly hp lhs)
        fun _ => .bind (expression_regional p rhs) (expression_sound rhs)
          (expression_orderly hp rhs) fun _ => .of_silent binary_silent
  | .negate _ operand => by
      rw [expression]
      exact .bind (expression_regional p operand) (expression_sound operand)
        (expression_orderly hp operand) fun _ => .of_silent unary_silent
  | .conditional _ _ test thenArm elseArm => by
      rw [expression]
      exact .conditional hp (expression_regional p test) (expression_regional p thenArm)
        (expression_regional p elseArm) (expression_sound test) (expression_sound thenArm)
        (expression_sound elseArm) (expression_orderly hp test) (expression_orderly hp thenArm)
        (expression_orderly hp elseArm)
  | .function _ _ _ _ => by
      rw [expression]
      exact .of_not_builds not_builds_fail
  | .call _ _ args => by
      rw [expression]
      exact .call (arguments_sound args) (arguments_orderly hp args)

theorem arguments_orderly (hp : p.Consistent) :
    ∀ nodes : List Node, Orderly p (arguments p nodes)
  | [] => by
      rw [arguments]
      exact .pure _
  | node :: rest => by
      rw [arguments]
      exact .bind (expression_regional p node) (expression_sound node)
        (expression_orderly hp node) fun _ => .bind (arguments_regional p rest)
          (arguments_sound rest) (arguments_orderly hp rest) fun _ => .pure _

end

theorem statements_orderly (hp : p.Consistent) :
    ∀ nodes : List Node, Orderly p (statements p nodes)
  | [] => .of_silent fun h => by
      obtain ⟨v, B₁, h₁, h⟩ := Builds.bind h
      obtain ⟨-, rfl⟩ := h.pure
      obtain ⟨-, rfl⟩ := h₁.build
      exact (Ir.Build.Straight.iconst .i64 0).silent _
  | [node] => expression_orderly hp node
  | node :: next :: rest =>
      .bind (expression_regional p node) (expression_sound node) (expression_orderly hp node)
        fun _ => statements_orderly hp (next :: rest)

end Lower

/-! ## Routines -/

open Ir (Builder At Contained)

theorem prepared_disciplined (name : String) : (Builder.prepared name).function.Disciplined where
  first := by simp [prepared_block]
  fed := by simp [prepared_block]
  fits := by simp [prepared_block]

section Finished

variable {name : String} {E : Builder} {e : Nat} {v : Ir.ValueId} {ty : MachineType}
  (hE : Ir.Region (.prepared name) 1 E e) (hu : Ir.Unfinished (E.function.block e))
  (hc : Contained (.prepared name) E)
include hE

/-- The blocks around a body are made apart from its end. -/
theorem entered_bodyEnd (hu : Ir.Unfinished (E.function.block e)) (size : Nat) :
    e < (E.entered size E.cursor).function.blocks.length ∧
      Ir.Unfinished ((E.entered size E.cursor).function.block e) := by
  have hb := bodyEnd_bounds hE
  refine ⟨by simpa [Builder.entered] using hb.2.1, ?_⟩
  rw [Builder.block_entered (by omega), if_neg (by omega)]
  exact hu

theorem leaving_block (size c : Nat) :
    ((E.entered size E.cursor).leaving v E.function.slots.length).function.block c =
      if c = e then (E.entered size E.cursor).function.block e ++
        [⟨(E.entered size E.cursor).count, [], .store v E.function.slots.length⟩,
          ⟨(E.entered size E.cursor).count + 1, [], .jump 2⟩]
      else (E.entered size E.cursor).function.block c :=
  Builder.block_leaving (B := E.entered size E.cursor) hE.cursor
    (by simpa [Builder.entered] using (bodyEnd_bounds hE).2.1) v _ c

theorem leaving_exit (size : Nat) : ((E.entered size E.cursor).leaving v
    E.function.slots.length).function.block 2 = [] := by
  have hb := bodyEnd_bounds hE
  rw [leaving_block hE, if_neg (by omega), Builder.block_entered (by omega), if_neg (by omega),
    outer_block hE (Or.inr rfl)]

include hu hc

/-- The body's end alone leads to the block that returns. -/
theorem leaving_edge {size : Nat} {d : Nat}
    (h : ((E.entered size E.cursor).leaving v E.function.slots.length).function.Edge d 2) :
    d = e := by
  have hb := bodyEnd_bounds hE
  have hentry : 0 < ((E.enter 0).withSlot size).function.blocks.length := Nat.zero_lt_of_lt hb.2.1
  obtain ⟨hlt, hopen⟩ := entered_bodyEnd hE hu size
  have hs := Ir.Inline.emitted (B := E.entered size E.cursor) hE.cursor hlt
    (.store v E.function.slots.length) rfl []
  rcases Builder.emitted_edge hs.cursor (hs.length ▸ hlt) h with h | ⟨rfl, -⟩
  swap
  · rfl
  rcases Builder.emitted_edge rfl hentry (hs.edge hopen h) with h | ⟨-, ht⟩
  · rcases hc.edges d 2 h with ⟨s, hs, -⟩ | hlt
    · rw [prepared_block] at hs
      cases hs
    · simp at hlt
  · simp [Ir.Inst.targets] at ht

/-- The entry leads to the body, whose end stores the result. -/
theorem leaving_disciplined (hv : E.function.values[v]? = some ty) (hd : E.function.Disciplined) :
    ((E.entered ty.bytes E.cursor).leaving v E.function.slots.length).function.Disciplined := by
  have hb := bodyEnd_bounds hE
  have hentry : 0 < ((E.enter 0).withSlot ty.bytes).function.blocks.length :=
    Nat.zero_lt_of_lt hb.2.1
  have h₀ : ((E.enter 0).withSlot ty.bytes).function.Disciplined :=
    hd.of_same ((Builder.Extends.enter E 0).trans (.withSlot _ _)) fun _ => rfl
  have h₁ : (E.entered ty.bytes E.cursor).function.Disciplined := by
    refine h₀.emitted rfl hentry ?_ (by simp) trivial ?_
    · exact outer_block hE (Or.inl rfl) ▸ Ir.unfinished_nil
    · intro t ht
      rw [List.mem_singleton.mp ht]
      exact hc.loads 1 (by simp) (by rw [prepared_block]; exact Ir.noLoad_nil)
  obtain ⟨hlt, hopen⟩ := entered_bodyEnd hE hu ty.bytes
  have hs := Ir.Inline.emitted (B := E.entered ty.bytes E.cursor) hE.cursor hlt
    (.store v E.function.slots.length) rfl []
  have hfits : (E.entered ty.bytes E.cursor).function.SlotFits
      (.store v E.function.slots.length) :=
    ⟨ty, ty.bytes, by simpa [Builder.entered] using hv, by simp [Builder.entered, Builder.withSlot],
      Nat.le_refl _⟩
  have h₂ : ((E.entered ty.bytes E.cursor).emitted
      (.store v E.function.slots.length) []).function.Disciplined :=
    h₁.emitted hE.cursor hlt hopen (by simp) hfits (by simp [Ir.Inst.targets])
  refine h₂.emitted hs.cursor (hs.length ▸ hlt) (hs.unfinished hopen) (by simp) trivial ?_
  intro t ht
  rw [List.mem_singleton.mp ht]
  exact Ir.noLoad_of_later (.emitted_at _ hs.cursor (hs.length ▸ hlt) (.jump 2) [])
    (leaving_exit hE ty.bytes)

/-- The blocks around a body keep the discipline. -/
theorem finished_disciplined (hv : E.function.values[v]? = some ty) (hd : E.function.Disciplined) :
    (E.finished v ty ty.bytes).function.Disciplined := by
  have hb := bodyEnd_bounds hE
  have hbound : 2 < ((E.entered ty.bytes E.cursor).leaving v
      E.function.slots.length).function.blocks.length := by
    simp [Builder.leaving, Builder.entered]
    omega
  have hexit := leaving_exit (v := v) hE ty.bytes
  have hput := Ir.Put.at_end rfl hbound (.load ty E.function.slots.length) [ty]
  rw [hexit] at hput
  have hx := Builder.Extends.emitted_at ((E.entered ty.bytes E.cursor).leaving v
    E.function.slots.length) rfl hbound (.load ty E.function.slots.length) [ty]
  have hload := (leaving_disciplined hE hu hc hv hd).load hput hx rfl (by decide)
    ⟨ty.bytes, by simp [Builder.leaving, Builder.entered, Builder.withSlot], Nat.le_refl _⟩ (by
      intro d he
      obtain rfl := leaving_edge hE hu hc he
      exact ⟨_, _, _, v, (leaving_block hE _ d).trans (if_pos rfl),
        by simpa [Builder.leaving, Builder.entered] using hv⟩)
  -- the signature, which is set before the return, has no part in it
  have hreturning : ((((E.entered ty.bytes E.cursor).leaving v E.function.slots.length).emitted
      (.load ty E.function.slots.length) [ty]).returning ty).function.Disciplined :=
    ⟨hload.first, hload.fed, hload.fits⟩
  have hl := Ir.Inline.emitted rfl hbound (.load ty E.function.slots.length) rfl [ty]
  exact hreturning.emitted (b := 2) rfl (hl.length ▸ hbound)
    (hl.unfinished (hexit ▸ Ir.unfinished_nil)) (by simp) trivial (by simp [Ir.Inst.targets])

end Finished

theorem Routine.lower_disciplined {p : Program} (hp : p.Consistent) {types : TypeTable}
    {name : String} {anonymous : Bool} {nodes : List Node} {r : Routine}
    (h : (Routine.lower p types name anonymous nodes).1 = .ok r) : r.code.Disciplined := by
  obtain ⟨tv, E, hb, rfl⟩ := Routine.lower_ok h
  obtain ⟨e, hE⟩ := statements_region hb
  obtain ⟨doms, e', l, hv⟩ := Lower.statements_sound nodes ⟨[], [tv.type.machineType]⟩ _ _ _ tv E
    hb (prepared_numbered name) (prepared_at p _ name)
  obtain rfl : e' = e := by injection l.state.cursor.symm.trans hE.cursor
  obtain ⟨hc, hd⟩ := Lower.statements_orderly hp nodes _ _ _ _ tv E hb (prepared_numbered name)
    (prepared_at p ⟨[], [tv.type.machineType]⟩ name)
  exact finished_disciplined hE l.state.unfinished hc (hv.type hp) (hd (prepared_disciplined name))

/-- The code has a slot for each of the forms and one for the result. What is loaded was stored last
    on the way, where an arm or the body was left, and fits. -/
structure Ir.Function.SlotsInOrder (f : Ir.Function) (forms : List ConditionalForm) : Prop where
  loaded : ∀ b visited X s Y ty slot, f.Path (b :: visited) → f.block b = X ++ s :: Y →
    s.inst = .load ty slot →
    ∃ c v, Ir.lastStore? slot (f.trace visited ++ X.map (b, ·)) = some (c, v) ∧
      f.values[v]? = some ty ∧
      (∃ W m n, f.block c = W ++ [⟨m, [], .store v slot⟩, ⟨n, [], .jump b⟩]) ∧
      ¬ f.Branches c
  fits : ∀ b, ∀ s ∈ f.block b, f.SlotFits s.inst
  length : f.slots.length = forms.length + 1
  conditional : ∀ slot form, forms[slot]? = some form → f.uses (.load slot) = 1 ∧
    f.uses (.store slot) = match form with | .ifForm => 3 | .whenForm => 2
  resultLoad : f.uses (.load forms.length) = 1
  resultStore : f.uses (.store forms.length) = 1

theorem Routine.lower_slotsInOrder {p : Program} (hp : p.Consistent) {types : TypeTable}
    {name : String} {anonymous : Bool} {nodes : List Node} {r : Routine}
    (h : (Routine.lower p types name anonymous nodes).1 = .ok r) :
    r.code.SlotsInOrder (Node.formsOf nodes) := by
  have hd := Routine.lower_disciplined hp h
  obtain ⟨hlen, huses⟩ := Routine.lower_slots h
  refine ⟨fun b visited X s Y ty slot hpath hb hs => hd.lastStore hpath hb hs,
    fun b s hs => hd.fits hs, hlen, ?_, ?_, ?_⟩
  · intro slot form hform
    have hne : (Node.formsOf nodes).length ≠ slot :=
      (List.getElem?_eq_some_iff.mp hform).1.ne'
    rw [huses, huses, List.count_append, List.count_append, count_slotPlan, count_slotPlan]
    cases form <;>
      simp [Ir.Access.slot, hform, ConditionalForm.accesses, hne]
  · rw [huses, List.count_append, count_slotPlan]
    simp [Ir.Access.slot]
  · rw [huses, List.count_append, count_slotPlan]
    simp [Ir.Access.slot]

/-- Slots are used in order. On every path to a load something was stored in its slot before, the
    last store has the type that is loaded, and it is the one that leaves an arm for the load, not
    that of a parked test, which stands in a block that branches. All that is stored and loaded fits
    its slot. Each conditional has a slot of its own, with one load and two stores, or three if it
    parks its test; and so has the result, with one load and one store. -/
theorem slots_used_in_order {p : Program} (hp : p.Consistent) {types : TypeTable}
    {name : String} {anonymous : Bool} {nodes : List Node} {r : Routine}
    (h : (Routine.lower p types name anonymous nodes).1 = .ok r) :
    (∀ b visited X s Y ty slot, r.code.Path (b :: visited) → r.code.block b = X ++ s :: Y →
      s.inst = .load ty slot →
      ∃ c v, Ir.lastStore? slot (r.code.trace visited ++ X.map (b, ·)) = some (c, v) ∧
        r.code.values[v]? = some ty ∧
        (∃ W m n, r.code.block c = W ++ [⟨m, [], .store v slot⟩, ⟨n, [], .jump b⟩]) ∧
        ¬ r.code.Branches c) ∧
    (∀ b, ∀ s ∈ r.code.block b, r.code.SlotFits s.inst) ∧
    r.code.slots.length = (Node.formsOf nodes).length + 1 ∧
    (∀ slot form, (Node.formsOf nodes)[slot]? = some form →
      r.code.uses (.load slot) = 1 ∧
        r.code.uses (.store slot) = match form with | .ifForm => 3 | .whenForm => 2) ∧
    r.code.uses (.load (Node.formsOf nodes).length) = 1 ∧
    r.code.uses (.store (Node.formsOf nodes).length) = 1 := by
  have hslots := Routine.lower_slotsInOrder hp h
  exact ⟨hslots.loaded, hslots.fits, hslots.length, hslots.conditional, hslots.resultLoad,
    hslots.resultStore⟩

/-- An `if` with a boolean test around a `when`, both with integers in their arms. -/
def nestedForms : Node :=
  let number := fun n => Node.literal ⟨0, 0⟩ (.signed n)
  let test := Node.literal ⟨0, 0⟩ (.boolean true)
  .conditional ⟨0, 0⟩ .ifForm test (.conditional ⟨0, 0⟩ .whenForm test (number 1) (number 2))
    (number 3)

/-- On the way through both first arms the slot of the `if` holds its test, a byte, first; where
    its arms meet the last store is that of an integer. -/
theorem nestedForms_used_in_order :
    ∃ r, (Routine.lower {} .empty "f" false [nestedForms]).1 = .ok r ∧
      r.code.Path [6, 10, 8, 7, 4, 3, 1, 0] ∧
      (∃ v, Ir.lastStore? 0 (r.code.trace [3, 1, 0]) = some (3, v) ∧
        r.code.values[v]? = some .i8) ∧
      (∃ c v, Ir.lastStore? 0 (r.code.trace [10, 8, 7, 4, 3, 1, 0]) = some (c, v) ∧
        r.code.values[v]? = some .i64 ∧
        (∃ W m n, r.code.block c = W ++ [⟨m, [], .store v 0⟩, ⟨n, [], .jump 6⟩]) ∧
        ¬ r.code.Branches c) ∧
      r.code.slots.length = 3 ∧
      [0, 1, 2].map (fun slot => r.code.uses (.store slot)) = [3, 2, 1] := by
  have hrun : (match (Routine.lower {} .empty "f" false [nestedForms]).1 with
      | .ok r =>
        ([(0, 1), (1, 3), (3, 4), (4, 7), (7, 8), (8, 10), (10, 6)].all fun (b, c) =>
          (r.code.block b).any fun s => decide (c ∈ s.inst.targets)) &&
        decide (Ir.lastStore? 0 (r.code.trace [3, 1, 0]) = some (3, 0)) &&
        decide (r.code.values[0]? = some .i8) &&
        decide ((r.code.block 6).head?.map (·.inst) = some (.load .i64 0))
      | .error _ => false) = true := by
    decide +kernel
  split at hrun
  · rename_i r hr
    simp only [Bool.and_eq_true, List.all_cons, List.any_eq_true, decide_eq_true_eq] at hrun
    obtain ⟨⟨⟨⟨h₀, h₁, h₃, h₄, h₇, h₈, h₁₀, -⟩, hparked⟩, hbyte⟩, hload⟩ := hrun
    have hpath : r.code.Path [6, 10, 8, 7, 4, 3, 1, 0] :=
      .step (.step (.step (.step (.step (.step (.step .entry h₀) h₁) h₃) h₄) h₇) h₈) h₁₀
    obtain ⟨horder, -, hlen, huses, -, hresult⟩ :=
      slots_used_in_order (p := {}) (by simp [Program.Consistent]) hr
    obtain ⟨s, rest, hblock, hs⟩ : ∃ s rest, r.code.block 6 = [] ++ s :: rest ∧
        s.inst = .load .i64 0 := by
      cases hb : r.code.block 6 with
      | nil => simp [hb] at hload
      | cons s rest => exact ⟨s, rest, rfl, by simpa [hb] using hload⟩
    have hlast := horder 6 _ [] s rest .i64 0 hpath hblock hs
    rw [List.map_nil, List.append_nil] at hlast
    refine ⟨r, hr, hpath, ⟨0, hparked, hbyte⟩, hlast, hlen, ?_⟩
    have h₀ := (huses 0 .ifForm rfl).2
    have h₁ := (huses 1 .whenForm rfl).2
    have h₂ : r.code.uses (.store 2) = 1 := hresult
    simp only [List.map_cons, List.map_nil, h₀, h₁, h₂]
  · cases hrun

end ScalarLang
