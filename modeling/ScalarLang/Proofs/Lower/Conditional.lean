import Mathlib
import ScalarLang.Proofs.Lower.Region

/-
  The stages of a conditional.
  With `N` blocks there before, the test starts in block `N`, the arms in `N + 1` and `N + 2`, and
  they join in `N + 3`. `Layout` keeps the builders between the stages. Of it follows what the
  blocks look like in the end; the two ways in which arms leave their value in the slot come out
  the same.
-/

namespace ScalarLang

namespace Ir.Builder

/-- The builder with the blocks of a conditional, in the block of its test. -/
def opened (B : Builder) : Builder :=
  (B.withBlock.withBlock.withBlock.withBlock.emitted (.jump B.function.blocks.length) []).enter
    B.function.blocks.length

/-- The builder after the branch, in the block of the first arm. -/
def branched (B : Builder) (condition : ValueId) (first : Nat) : Builder :=
  (B.emitted (.brif condition (first + 1) (first + 2)) []).enter (first + 1)

/-- The builder after an arm's value was stored, if its slot is known. -/
def stored (B : Builder) (parked : Option SlotId) (v : ValueId) : Builder :=
  match parked with
  | some slot => B.emitted (.store v slot) []
  | none => B

/-- The builder after an arm was left. -/
def left (B : Builder) (parked : Option SlotId) (v : ValueId) (join : Nat) : Builder :=
  (B.stored parked v).emitted (.jump join) []

/-- The builder after stores were inserted where arms are left. -/
def inserted (B : Builder) (size : Nat) (u w : ValueId) (thenExit elseExit : Nat) : Builder :=
  ((((B.withSlot size).before thenExit).emitted (.store u B.function.slots.length) []).before
    elseExit).emitted (.store w B.function.slots.length) []

/-- The slot in which arms meet, and the builder once they do. -/
def met (B : Builder) (parked : Option SlotId) (size : Nat) (u w : ValueId)
    (thenExit elseExit : Nat) : SlotId × Builder :=
  match parked with
  | some slot => (slot, B)
  | none => (B.function.slots.length, B.inserted size u w thenExit elseExit)

/-- The slot in which arms meet that end with the builders `A` and `C`, and the builder then. -/
def joined (A C : Builder) (parked : Option SlotId) (size : Nat) (u w : ValueId) (join : Nat) :
    SlotId × Builder :=
  (C.left parked w join).met parked size u w (A.stored parked u).count (C.stored parked w).count

end Ir.Builder

namespace Lower

open Ir (Builder)

variable {B B' : Builder} {tv : TypedValue}

/-! ## Taking a conditional apart -/

theorem Builds.parkTest_if {test : TypedValue} {parked : Option Ir.SlotId}
    (h : Builds (parkTest .ifForm test) B parked B') : parked = some B.function.slots.length ∧
      B' = (B.withSlot widestSlot).emitted (.store test.value B.function.slots.length) [] := by
  obtain ⟨slot, B₁, h₁, h⟩ := Builds.bind h
  obtain ⟨_, B₂, h₂, h⟩ := h.bind
  obtain ⟨rfl, rfl⟩ := h.pure
  obtain ⟨rfl, rfl⟩ := h₁.build
  obtain ⟨-, rfl⟩ := h₂.build
  exact ⟨rfl, rfl⟩

theorem Builds.parkTest_when {test : TypedValue} {parked : Option Ir.SlotId}
    (h : Builds (parkTest .whenForm test) B parked B') : parked = none ∧ B' = B :=
  Builds.pure h

theorem Builds.parkTest {form : ConditionalForm} {test : TypedValue} {parked : Option Ir.SlotId}
    (h : Builds (parkTest form test) B parked B') :
    (parked = none ∧ B' = B) ∨ (parked = some B.function.slots.length ∧
      B' = (B.withSlot widestSlot).emitted (.store test.value B.function.slots.length) []) := by
  cases form with
  | ifForm => exact Or.inr h.parkTest_if
  | whenForm => exact Or.inl h.parkTest_when

theorem Builds.closedArm {arm : Lower TypedValue} {parked : Option Ir.SlotId} {join : Nat}
    {exit : Nat} (h : Builds (closedArm arm parked join) B (tv, exit) B') :
    ∃ A, Builds arm B tv A ∧ exit = (A.stored parked tv.value).count ∧
      B' = A.left parked tv.value join := by
  obtain ⟨v, A, h₁, h⟩ := h.bind
  cases parked with
  | some slot =>
      obtain ⟨_, B₁, h₂, h⟩ := h.bind
      obtain ⟨n, B₂, h₃, h⟩ := h.bind
      obtain ⟨he, rfl⟩ := h.pure
      obtain ⟨rfl, rfl⟩ := Prod.mk.inj he
      obtain ⟨-, rfl⟩ := h₂.build
      obtain ⟨rfl, rfl⟩ := h₃.build
      exact ⟨A, h₁, rfl, rfl⟩
  | none =>
      obtain ⟨n, B₂, h₃, h⟩ := h.bind
      obtain ⟨he, rfl⟩ := h.pure
      obtain ⟨rfl, rfl⟩ := Prod.mk.inj he
      obtain ⟨rfl, rfl⟩ := h₃.build
      exact ⟨A, h₁, rfl, rfl⟩

theorem Builds.meetingSlot {parked : Option Ir.SlotId} {size : Nat} {u w : Ir.ValueId}
    {thenExit elseExit : Nat} {slot : Ir.SlotId}
    (h : Builds (meetingSlot parked size u w thenExit elseExit) B slot B') :
    (slot, B') = B.met parked size u w thenExit elseExit := by
  cases parked with
  | some slot =>
      obtain ⟨rfl, rfl⟩ := Builds.pure h
      rfl
  | none =>
      obtain ⟨slot, B₁, h₁, h⟩ := Builds.bind h
      obtain ⟨_, B₂, h₂, h⟩ := h.bind
      obtain ⟨_, B₃, h₃, h⟩ := h.bind
      obtain ⟨_, B₄, h₄, h⟩ := h.bind
      obtain ⟨_, B₅, h₅, h⟩ := h.bind
      obtain ⟨rfl, rfl⟩ := h.pure
      obtain ⟨rfl, rfl⟩ := h₁.build
      obtain ⟨-, rfl⟩ := h₂.build
      obtain ⟨-, rfl⟩ := h₃.build
      obtain ⟨-, rfl⟩ := h₄.build
      obtain ⟨-, rfl⟩ := h₅.build
      rfl

/-- The builders between the stages of a conditional. -/
theorem Builds.conditional {form : ConditionalForm} {testSpan thenSpan : Span}
    {test thenArm elseArm : Lower TypedValue}
    (h : Builds (conditional form testSpan thenSpan test thenArm elseArm) B tv B') :
    ∃ t T parked P condition D u A w C slot M,
      Builds test B.opened t T ∧ Builds (Lower.parkTest form t) T parked P ∧
      Builds (Lower.unary testSpan .boolify t) P condition D ∧
      Builds thenArm (D.branched condition.value B.function.blocks.length) u A ∧
      Builds elseArm ((A.left parked u.value (B.function.blocks.length + 3)).enter
        (B.function.blocks.length + 2)) w C ∧
      u.type = w.type ∧
      (slot, M) = A.joined C parked u.type.byteSize u.value w.value
        (B.function.blocks.length + 3) ∧
      tv = ⟨M.function.values.length, u.type⟩ ∧
      B' = (M.enter (B.function.blocks.length + 3)).emitted (.load u.type.machineType slot)
        [u.type.machineType] := by
  obtain ⟨n₀, B₁, h₁, h⟩ := h.bind
  obtain ⟨rfl, rfl⟩ := h₁.build
  obtain ⟨n₁, B₂, h₂, h⟩ := h.bind
  obtain ⟨rfl, rfl⟩ := h₂.build
  obtain ⟨n₂, B₃, h₃, h⟩ := h.bind
  obtain ⟨rfl, rfl⟩ := h₃.build
  obtain ⟨n₃, B₄, h₄, h⟩ := h.bind
  obtain ⟨rfl, rfl⟩ := h₄.build
  obtain ⟨_, B₅, h₅, h⟩ := h.bind
  obtain ⟨-, rfl⟩ := h₅.build
  obtain ⟨_, B₆, h₆, h⟩ := h.bind
  obtain ⟨-, rfl⟩ := h₆.build
  simp only [Ir.Build.createBlock_apply, Builder.withBlock_length] at h
  obtain ⟨t, T, ht, h⟩ := h.bind
  obtain ⟨parked, P, hp, h⟩ := h.bind
  obtain ⟨condition, D, hd, h⟩ := h.bind
  obtain ⟨_, B₇, h₇, h⟩ := h.bind
  obtain ⟨-, rfl⟩ := h₇.build
  obtain ⟨_, B₈, h₈, h⟩ := h.bind
  obtain ⟨-, rfl⟩ := h₈.build
  obtain ⟨⟨u, thenExit⟩, B₉, h₉, h⟩ := h.bind
  obtain ⟨A, ha, rfl, rfl⟩ := h₉.closedArm
  obtain ⟨_, B₁₀, h₁₀, h⟩ := h.bind
  obtain ⟨-, rfl⟩ := h₁₀.build
  obtain ⟨⟨w, elseExit⟩, B₁₁, h₁₁, h⟩ := h.bind
  obtain ⟨C, hc, rfl, rfl⟩ := h₁₁.closedArm
  dsimp only at h
  split at h
  · rename_i htype
    obtain ⟨slot, M, hm, h⟩ := h.bind
    obtain ⟨_, B₁₂, h₁₂, h⟩ := h.bind
    obtain ⟨-, rfl⟩ := h₁₂.build
    obtain ⟨v, B₁₃, h₁₃, h⟩ := h.bind
    obtain ⟨rfl, rfl⟩ := h.pure
    obtain ⟨rfl, rfl⟩ := h₁₃.build
    exact ⟨t, T, parked, P, condition, D, u, A, w, C, slot, M, ht, hp, hd, ha, hc, htype,
      hm.meetingSlot, rfl, rfl⟩
  · exact absurd h not_builds_fail

end Lower

/-! ## The blocks of a conditional -/

namespace Ir

namespace Builder

variable {A B C : Builder} {b : Nat}

@[simp] theorem opened_length (B : Builder) :
    B.opened.function.blocks.length = B.function.blocks.length + 4 := by
  simp [opened]

theorem block_opened (hc : B.cursor = .atEnd b) (hb : b < B.function.blocks.length) (c : Nat) :
    B.opened.function.block c =
      if c = b then B.function.block b ++ [B.stmt (.jump B.function.blocks.length) []]
      else B.function.block c := by
  have hlt : b < B.withBlock.withBlock.withBlock.withBlock.function.blocks.length := by
    simp only [withBlock_length]
    omega
  rw [opened, enter_function, block_emitted B.withBlock.withBlock.withBlock.withBlock _ _ hc hlt]
  simp only [withBlock_block]
  rfl

theorem opened_grown (hc : B.cursor = .atEnd b) (hb : b < B.function.blocks.length) :
    B.Grown (· = b) B.opened := by
  have hlt : b < B.withBlock.withBlock.withBlock.withBlock.function.blocks.length := by
    simp only [withBlock_length]
    omega
  have h := (Grown.refl B (· = b)).withBlock.withBlock.withBlock.withBlock
  exact (h.emitted_at hc hlt (Or.inl rfl) _ _).enter _

theorem branched_grown (hc : B.cursor = .atEnd b) (hb : b < B.function.blocks.length)
    (condition : ValueId) (first : Nat) : B.Grown (· = b) (B.branched condition first) :=
  ((Grown.refl B (· = b)).emitted_at hc hb (Or.inl rfl) _ _).enter _

theorem stored_inline (hc : B.cursor = .atEnd b) (hb : b < B.function.blocks.length)
    (parked : Option SlotId) (v : ValueId) : Inline B b (B.stored parked v) := by
  cases parked with
  | some slot => exact .emitted hc hb _ rfl []
  | none => exact .refl hc

theorem left_grown (hc : B.cursor = .atEnd b) (hb : b < B.function.blocks.length)
    (parked : Option SlotId) (v : ValueId) (join : Nat) :
    B.Grown (· = b) (B.left parked v join) := by
  have h := stored_inline hc hb parked v
  exact h.grown.emitted_at h.cursor (h.length ▸ hb) (Or.inl rfl) _ _

theorem left_length (hc : B.cursor = .atEnd b) (hb : b < B.function.blocks.length)
    (parked : Option SlotId) (v : ValueId) (join : Nat) :
    (B.left parked v join).function.blocks.length = B.function.blocks.length := by
  simp [left, (stored_inline hc hb parked v).length]

theorem met_length (B : Builder) (parked : Option SlotId) (size : Nat) (u w : ValueId)
    (n n' : Nat) :
    (B.met parked size u w n n').2.function.blocks.length = B.function.blocks.length := by
  cases parked <;> simp [met, inserted]

/-- Arms that are left after `A` also meet after `A`. -/
theorem Grown.met {touched : BlockId → Prop} (h : A.Grown touched B) (hA : A.Numbered)
    (parked : Option SlotId) (size : Nat) (u w : ValueId) {n n' : Nat} (hn : A.count ≤ n)
    (hn' : A.count ≤ n') : A.Grown touched (B.met parked size u w n n').2 := by
  cases parked with
  | some slot => exact h
  | none =>
      exact ((((h.withSlot size).before n).emitted_before hA rfl hn _ _).before n').emitted_before
        hA rfl hn' _ _

theorem met_extends (B : Builder) (parked : Option SlotId) (size : Nat) (u w : ValueId)
    (n n' : Nat) : B.Extends (B.met parked size u w n n').2 := by
  cases parked with
  | some slot => exact .refl B
  | none =>
      have h := ((Extends.withSlot B size).trans (.before _ n)).trans
        (.emitted_before _ rfl (.store u B.function.slots.length) [])
      exact (h.trans (.before _ n')).trans (.emitted_before _ rfl _ _)

/-- Stores inserted at two marks. -/
theorem block_doubleStore {n n' b' : Nat} {X X' : Block} {j j' : Stmt} (h : B.Marks n b X j)
    (h' : B.Marks n' b' X' j') (hne : b' ≠ b) (hn : n' < B.count) (size : Nat) (u w : ValueId)
    (c : Nat) :
    (B.inserted size u w n n').function.block c =
      if c = b' then X' ++ [⟨B.count + 1, [], .store w B.function.slots.length⟩, j']
      else if c = b then X ++ [⟨B.count, [], .store u B.function.slots.length⟩, j]
      else B.function.block c := by
  have h₁ : ((B.withSlot size).before n).Marks n b X j := h.of_same fun _ => rfl
  have h₂ := h₁.inserted (h'.of_same fun _ => rfl) hne hn rfl (.store u B.function.slots.length) []
  have h₃ : ((((B.withSlot size).before n).emitted (.store u B.function.slots.length) []).before
    n').Marks n' b' X' j' := h₂.of_same fun _ => rfl
  rw [inserted, h₃.block_inserted rfl, before_function, h₁.block_inserted rfl]
  rfl

end Builder

/-- The builders between the stages of a conditional in block `b` of `B`, and the blocks in which
    its test and its arms end. -/
structure Layout (B : Builder) (b : Nat) (T P D A C : Builder) (parked : Option SlotId)
    (condition u w : ValueId) (testEnd thenEnd elseEnd : Nat) : Prop where
  cursor : B.cursor = .atEnd b
  bound : b < B.function.blocks.length
  numbered : B.Numbered
  test : Region B.opened B.function.blocks.length T testEnd
  park : Inline T testEnd P
  decided : Inline P testEnd D
  thenArm : Region (D.branched condition B.function.blocks.length)
    (B.function.blocks.length + 1) A thenEnd
  elseArm : Region ((A.left parked u (B.function.blocks.length + 3)).enter
    (B.function.blocks.length + 2)) (B.function.blocks.length + 2) C elseEnd

namespace Layout

variable {B T P D A C : Builder} {parked : Option SlotId} {condition u w : ValueId}
  {b testEnd thenEnd elseEnd : Nat}
  (L : Layout B b T P D A C parked condition u w testEnd thenEnd elseEnd)
include L

theorem lengths :
    B.function.blocks.length + 4 ≤ T.function.blocks.length ∧
      D.function.blocks.length = T.function.blocks.length ∧
      D.function.blocks.length ≤ A.function.blocks.length ∧
      A.function.blocks.length ≤ C.function.blocks.length := by
  have h₁ := L.test.grown.length
  have h₂ := L.thenArm.grown.length
  have h₃ := L.elseArm.grown.length
  rw [Builder.opened_length] at h₁
  rw [Builder.enter_function,
    Builder.left_length L.thenArm.cursor L.thenArm.bound parked u] at h₃
  simp only [Builder.branched, Builder.enter_function, Builder.emitted_length] at h₂
  exact ⟨h₁, L.decided.length.trans L.park.length, h₂, h₃⟩

theorem ends :
    (testEnd = B.function.blocks.length ∨ B.function.blocks.length + 4 ≤ testEnd) ∧
      testEnd < D.function.blocks.length ∧
      (thenEnd = B.function.blocks.length + 1 ∨ D.function.blocks.length ≤ thenEnd) ∧
      thenEnd < A.function.blocks.length ∧
      (elseEnd = B.function.blocks.length + 2 ∨ A.function.blocks.length ≤ elseEnd) ∧
      elseEnd < C.function.blocks.length := by
  have h₁ := L.test.exit
  have h₂ := L.thenArm.exit
  have h₃ := L.elseArm.exit
  rw [Builder.opened_length] at h₁
  simp only [Builder.branched, Builder.enter_function, Builder.emitted_length] at h₂
  rw [Builder.enter_function,
    Builder.left_length L.thenArm.cursor L.thenArm.bound parked u] at h₃
  refine ⟨h₁, ?_, h₂, L.thenArm.bound, h₃, L.elseArm.bound⟩
  rw [L.lengths.2.1]
  exact L.test.bound

/-! What was made since the first arm was left and since the branch, until the second arm is
left. -/

theorem grown_left :
    (A.left parked u (B.function.blocks.length + 3)).Grown
      (fun c => c = B.function.blocks.length + 2)
      (C.left parked w (B.function.blocks.length + 3)) := by
  have hE := Builder.left_length L.thenArm.cursor L.thenArm.bound parked u
    (B.function.blocks.length + 3)
  have h := ((Builder.Grown.refl (A.left parked u (B.function.blocks.length + 3))
    (fun c => c = B.function.blocks.length + 2)).enter (B.function.blocks.length + 2)).trans
    L.elseArm.grown (fun _ => Or.inl)
  refine h.trans (Builder.left_grown L.elseArm.cursor L.elseArm.bound parked w _) ?_
  rintro c rfl
  rw [hE]
  exact L.ends.2.2.2.2.1

theorem grown_branched :
    (D.branched condition B.function.blocks.length).Grown
      (fun c => c = B.function.blocks.length + 1 ∨ c = B.function.blocks.length + 2)
      (C.left parked w (B.function.blocks.length + 3)) := by
  have h := (Builder.Grown.refl (D.branched condition B.function.blocks.length)
    (fun c => c = B.function.blocks.length + 1 ∨ c = B.function.blocks.length + 2)).trans
    L.thenArm.grown (fun _ hc => Or.inl (Or.inl hc))
  refine (h.trans (Builder.left_grown L.thenArm.cursor L.thenArm.bound parked u _) ?_).trans
    L.grown_left (fun _ hc => Or.inl (Or.inr hc))
  rintro c rfl
  exact L.thenArm.exit.imp_left Or.inl

theorem grown_opened_branched :
    B.opened.Grown (fun c => c = B.function.blocks.length)
      (D.branched condition B.function.blocks.length) := by
  have hend : ∀ c, c = testEnd →
      c = B.function.blocks.length ∨ B.opened.function.blocks.length ≤ c := by
    rintro c rfl
    exact L.test.exit
  exact ((L.test.grown.trans L.park.grown hend).trans L.decided.grown hend).trans
    (Builder.branched_grown L.decided.cursor L.ends.2.1 condition _) hend

theorem opened_numbered :
    B.opened.Numbered := (Builder.opened_grown L.cursor L.bound).numbered L.numbered

theorem branched_numbered :
    (D.branched condition B.function.blocks.length).Numbered := by
  have hP := L.park.grown.numbered (L.test.grown.numbered L.opened_numbered)
  exact (Builder.branched_grown L.decided.cursor L.ends.2.1 condition _).numbered
    (L.decided.grown.numbered hP)

theorem left_numbered :
    (A.left parked u (B.function.blocks.length + 3)).Numbered :=
  (Builder.left_grown L.thenArm.cursor L.thenArm.bound parked u _).numbered
    (L.thenArm.grown.numbered L.branched_numbered)

/-- The jump that leaves the first arm stays the last instruction of its block. -/
theorem marks_then :
    (C.left parked w (B.function.blocks.length + 3)).Marks (A.stored parked u).count thenEnd
      ((A.stored parked u).function.block thenEnd)
      ((A.stored parked u).stmt (.jump (B.function.blocks.length + 3)) []) := by
  have hs := Builder.stored_inline L.thenArm.cursor L.thenArm.bound parked u
  have hm := Builder.Marks.emitted
    (hs.grown.numbered (L.thenArm.grown.numbered L.branched_numbered)) hs.cursor
    (hs.length ▸ L.thenArm.bound) (.jump (B.function.blocks.length + 3)) []
  refine hm.grown L.grown_left ?_ (Nat.lt_succ_self _)
  show ¬ thenEnd = B.function.blocks.length + 2
  have := L.ends
  have := L.lengths
  omega

theorem marks_else :
    (C.left parked w (B.function.blocks.length + 3)).Marks (C.stored parked w).count elseEnd
      ((C.stored parked w).function.block elseEnd)
      ((C.stored parked w).stmt (.jump (B.function.blocks.length + 3)) []) := by
  have hs := Builder.stored_inline L.elseArm.cursor L.elseArm.bound parked w
  have hC := L.elseArm.grown.numbered (fun c s hc => L.left_numbered c s hc)
  exact Builder.Marks.emitted (hs.grown.numbered hC) hs.cursor (hs.length ▸ L.elseArm.bound) _ _

theorem thenEnd_ne_elseEnd : elseEnd ≠ thenEnd := by
  have := L.ends
  have := L.lengths
  omega

/-- The first arm ends by storing its value and going to the join. -/
theorem block_thenEnd (size : Nat) : ∃ m n,
    (A.joined C parked size u w (B.function.blocks.length + 3)).2.function.block thenEnd =
      A.function.block thenEnd ++
        [⟨m, [], .store u (A.joined C parked size u w (B.function.blocks.length + 3)).1⟩,
          ⟨n, [], .jump (B.function.blocks.length + 3)⟩] := by
  have hm := L.marks_then
  cases parked with
  | some slot =>
      refine ⟨A.count, A.count + 1, hm.block.trans ?_⟩
      rw [Builder.stored, Builder.block_emitted_self A _ _ L.thenArm.cursor L.thenArm.bound,
        List.append_assoc]
      rfl
  | none =>
      refine ⟨(C.left none w (B.function.blocks.length + 3)).count, A.count, ?_⟩
      refine (Builder.block_doubleStore hm L.marks_else L.thenEnd_ne_elseEnd (Nat.lt_succ_self _)
        size u w thenEnd).trans ?_
      rw [if_neg L.thenEnd_ne_elseEnd.symm, if_pos rfl]
      rfl

/-- So does the second one. -/
theorem block_elseEnd (size : Nat) : ∃ m n,
    (A.joined C parked size u w (B.function.blocks.length + 3)).2.function.block elseEnd =
      C.function.block elseEnd ++
        [⟨m, [], .store w (A.joined C parked size u w (B.function.blocks.length + 3)).1⟩,
          ⟨n, [], .jump (B.function.blocks.length + 3)⟩] := by
  have hm := L.marks_else
  cases parked with
  | some slot =>
      refine ⟨C.count, C.count + 1, hm.block.trans ?_⟩
      rw [Builder.stored, Builder.block_emitted_self C _ _ L.elseArm.cursor L.elseArm.bound,
        List.append_assoc]
      rfl
  | none =>
      refine ⟨(C.left none w (B.function.blocks.length + 3)).count + 1, C.count, ?_⟩
      refine (Builder.block_doubleStore L.marks_then hm L.thenEnd_ne_elseEnd (Nat.lt_succ_self _)
        size u w elseEnd).trans ?_
      rw [if_pos rfl]
      rfl

/-- Arms meet without a change to other blocks. -/
theorem block_joined (size : Nat) {c : Nat} (ht : c ≠ thenEnd) (he : c ≠ elseEnd) :
    (A.joined C parked size u w (B.function.blocks.length + 3)).2.function.block c =
      (C.left parked w (B.function.blocks.length + 3)).function.block c := by
  cases parked with
  | some slot => rfl
  | none =>
      refine (Builder.block_doubleStore L.marks_then L.marks_else L.thenEnd_ne_elseEnd
        (Nat.lt_succ_self _) size u w c).trans ?_
      rw [if_neg he, if_neg ht]

/-- What was made since the branch, until the arms meet. -/
theorem grown_branched_joined (size : Nat) :
    (D.branched condition B.function.blocks.length).Grown
      (fun c => c = B.function.blocks.length + 1 ∨ c = B.function.blocks.length + 2)
      (A.joined C parked size u w (B.function.blocks.length + 3)).2 := by
  have hA := L.thenArm.grown.count
  have hs := (Builder.stored_inline L.thenArm.cursor L.thenArm.bound parked u).grown.count
  have hE : A.count ≤ (A.left parked u (B.function.blocks.length + 3)).count :=
    (Builder.left_grown L.thenArm.cursor L.thenArm.bound parked u _).count
  have hC : (A.left parked u (B.function.blocks.length + 3)).count ≤ C.count :=
    L.elseArm.grown.count
  have hs' := (Builder.stored_inline L.elseArm.cursor L.elseArm.bound parked w).grown.count
  exact L.grown_branched.met L.branched_numbered parked size u w (by omega) (by omega)

/-- What was made since the blocks of the conditional were there. -/
theorem grown_opened_joined (size : Nat) :
    B.opened.Grown
      (fun c => c = B.function.blocks.length ∨ c = B.function.blocks.length + 1 ∨
        c = B.function.blocks.length + 2)
      (A.joined C parked size u w (B.function.blocks.length + 3)).2 := by
  have h := (Builder.Grown.refl B.opened (fun c => c = B.function.blocks.length ∨
    c = B.function.blocks.length + 1 ∨ c = B.function.blocks.length + 2)).trans
    L.grown_opened_branched (fun _ hc => Or.inl (Or.inl hc))
  exact h.trans (L.grown_branched_joined size) (fun _ hc => Or.inl (Or.inr hc))

theorem joined_length (size : Nat) :
    (A.joined C parked size u w (B.function.blocks.length + 3)).2.function.blocks.length =
      C.function.blocks.length := by
  rw [Builder.joined, Builder.met_length,
    Builder.left_length L.elseArm.cursor L.elseArm.bound parked w]

theorem test_extends (size : Nat) :
    T.Extends (A.joined C parked size u w (B.function.blocks.length + 3)).2 :=
  L.park.grown.toExtends.trans <| L.decided.grown.toExtends.trans <|
    (Builder.branched_grown L.decided.cursor L.ends.2.1 condition _).toExtends.trans
      (L.grown_branched_joined size).toExtends

theorem thenArm_extends (size : Nat) :
    A.Extends (A.joined C parked size u w (B.function.blocks.length + 3)).2 :=
  (Builder.left_grown L.thenArm.cursor L.thenArm.bound parked u _).toExtends.trans <|
    L.grown_left.toExtends.trans (Builder.met_extends _ parked size u w _ _)

theorem elseArm_extends (size : Nat) :
    C.Extends (A.joined C parked size u w (B.function.blocks.length + 3)).2 :=
  (Builder.left_grown L.elseArm.cursor L.elseArm.bound parked w _).toExtends.trans
    (Builder.met_extends _ parked size u w _ _)

/-! ## A conditional is a region -/

/-- The block of the test is ended, and so are all that were made with it. -/
theorem ended_test (size : Nat) {c : Nat}
    (hc : c = B.function.blocks.length ∨ B.function.blocks.length + 4 ≤ c)
    (hlt : c < D.function.blocks.length) :
    Ended ((A.joined C parked size u w (B.function.blocks.length + 3)).2.function.block c) := by
  by_cases he : c = testEnd
  · refine Ended.mono (L.grown_branched_joined size).toExtends ⟨D.stmt (.brif condition
      (B.function.blocks.length + 1) (B.function.blocks.length + 2)) [], ?_, rfl⟩
    rw [he, Builder.branched, Builder.enter_function,
      Builder.block_emitted_self D _ _ L.decided.cursor L.ends.2.1]
    exact List.mem_append_right _ (List.mem_singleton_self _)
  · have h := L.test.ended c he (by rwa [Builder.opened_length]) (L.lengths.2.1 ▸ hlt)
    exact h.mono (L.test_extends size)

theorem ended_thenArm (size : Nat) {c : Nat}
    (hc : c = B.function.blocks.length + 1 ∨ D.function.blocks.length ≤ c)
    (hlt : c < A.function.blocks.length) :
    Ended ((A.joined C parked size u w (B.function.blocks.length + 3)).2.function.block c) := by
  by_cases he : c = thenEnd
  · obtain ⟨m, n, h⟩ := L.block_thenEnd size
    rw [he, h]
    exact ⟨_, List.mem_append_right _ (List.mem_cons_of_mem _ List.mem_cons_self), rfl⟩
  · have h := L.thenArm.ended c he (by simpa [Builder.branched] using hc) hlt
    exact h.mono (L.thenArm_extends size)

theorem ended_elseArm (size : Nat) {c : Nat}
    (hc : c = B.function.blocks.length + 2 ∨ A.function.blocks.length ≤ c)
    (hlt : c < C.function.blocks.length) :
    Ended ((A.joined C parked size u w (B.function.blocks.length + 3)).2.function.block c) := by
  have hlen := Builder.left_length L.thenArm.cursor L.thenArm.bound parked u
    (B.function.blocks.length + 3)
  by_cases he : c = elseEnd
  · obtain ⟨m, n, h⟩ := L.block_elseEnd size
    rw [he, h]
    exact ⟨_, List.mem_append_right _ (List.mem_cons_of_mem _ List.mem_cons_self), rfl⟩
  · have h := L.elseArm.ended c he (by rwa [Builder.enter_function, hlen]) hlt
    exact h.mono (L.elseArm_extends size)

/-- The blocks of a conditional are empty when they are made. -/
theorem block_opened {c : Nat} (hc : B.function.blocks.length ≤ c) :
    B.opened.function.block c = [] := by
  have hb := L.bound
  rw [Builder.block_opened L.cursor L.bound, if_neg (by omega), Function.block_eq_nil hc]

theorem block_thenStart :
    (D.branched condition B.function.blocks.length).function.block
      (B.function.blocks.length + 1) = [] := by
  rw [L.grown_opened_branched.block_eq (by simp) (by simp), L.block_opened (by omega)]

theorem block_elseStart :
    (A.left parked u (B.function.blocks.length + 3)).function.block
      (B.function.blocks.length + 2) = [] := by
  have hend : ∀ c, c = thenEnd → c = B.function.blocks.length + 1 ∨
      (D.branched condition B.function.blocks.length).function.blocks.length ≤ c := by
    rintro c rfl
    exact L.thenArm.exit
  have hX : B.function.blocks.length + 2 <
      (D.branched condition B.function.blocks.length).function.blocks.length := by
    have := L.lengths
    simp only [Builder.branched, Builder.enter_function, Builder.emitted_length]
    omega
  have h := L.thenArm.grown.trans (Builder.left_grown L.thenArm.cursor L.thenArm.bound parked u
    (B.function.blocks.length + 3)) hend
  rw [h.block_eq hX (by simp), L.grown_opened_branched.block_eq (by simp) (by simp),
    L.block_opened (by omega)]

theorem block_join (size : Nat) :
    (A.joined C parked size u w (B.function.blocks.length + 3)).2.function.block
      (B.function.blocks.length + 3) = [] := by
  rw [(L.grown_opened_joined size).block_eq (by simp) (by simp), L.block_opened (by omega)]

theorem region (size : Nat) (ty : MachineType) :
    Region B b
      (((A.joined C parked size u w (B.function.blocks.length + 3)).2.enter
        (B.function.blocks.length + 3)).emitted
        (.load ty (A.joined C parked size u w (B.function.blocks.length + 3)).1) [ty])
      (B.function.blocks.length + 3) := by
  have hlen := L.lengths
  have hbound : B.function.blocks.length + 3 <
      (A.joined C parked size u w (B.function.blocks.length + 3)).2.function.blocks.length := by
    rw [L.joined_length size]
    omega
  have hload := Inline.emitted (B := (A.joined C parked size u w
    (B.function.blocks.length + 3)).2.enter (B.function.blocks.length + 3)) rfl hbound
    (.load ty (A.joined C parked size u w (B.function.blocks.length + 3)).1) rfl [ty]
  refine ⟨?_, rfl, Or.inr (Nat.le_add_right _ 3), hload.length ▸ hbound, ?_, ?_⟩
  · have h := (Builder.opened_grown L.cursor L.bound).trans (L.grown_opened_joined size)
      (fun c hc => Or.inr (by rcases hc with rfl | rfl | rfl <;> omega))
    exact (h.enter _).emitted_at rfl hbound (Or.inr (Nat.le_add_right _ 3)) _ _
  · intro _
    refine hload.unfinished ?_
    rw [Builder.enter_function, L.block_join size]
    exact unfinished_nil
  · intro c hne hc hlt
    rw [hload.length, Builder.enter_function, L.joined_length size] at hlt
    refine Ended.mono ((Builder.Extends.enter _ _).trans hload.grown.toExtends) ?_
    -- the block the conditional starts in, then those of the test and of the two arms
    rcases hc with rfl | hc
    · refine Ended.mono (L.grown_opened_joined size).toExtends
        ⟨B.stmt (.jump B.function.blocks.length) [], ?_, rfl⟩
      rw [Builder.block_opened L.cursor L.bound, if_pos rfl]
      exact List.mem_append_right _ (List.mem_singleton_self _)
    · by_cases hD : c < D.function.blocks.length
      · by_cases h₁ : c = B.function.blocks.length + 1
        · exact L.ended_thenArm size (Or.inl h₁) (by omega)
        · by_cases h₂ : c = B.function.blocks.length + 2
          · exact L.ended_elseArm size (Or.inl h₂) (by omega)
          · exact L.ended_test size (by omega) hD
      · by_cases hA : c < A.function.blocks.length
        · exact L.ended_thenArm size (Or.inr (by omega)) hA
        · exact L.ended_elseArm size (Or.inr (by omega)) (by omega)

end Layout

end Ir

end ScalarLang
