import Mathlib
import ScalarLang.Proofs.Ir.Dominance
import ScalarLang.Proofs.Lower.Conditional

/-
  Edges that building makes.
  Only the instructions that end blocks make edges: the jump into a conditional, the branch after
  its test and the jumps that leave its arms.
-/

namespace ScalarLang.Ir

theorem Inst.targets_eq_nil {inst : Inst} (h : inst.isTerminator = false) : inst.targets = [] := by
  cases inst <;> first | rfl | cases h

theorem Unfinished.not_edge {f : Function} {b c : BlockId} (h : Unfinished (f.block b)) :
    ¬ f.Edge b c := by
  rintro ⟨s, hs, ht⟩
  rw [Inst.targets_eq_nil (h s hs)] at ht
  cases ht

variable {B B' T P D A C : Builder} {b c t : Nat}

/-- Straight code makes no edges. -/
theorem Inline.edge (h : Inline B b B') (hu : Unfinished (B.function.block b))
    (he : B'.function.Edge c t) : B.function.Edge c t := by
  obtain ⟨s, hs, ht⟩ := he
  have hc : c ≠ b := by
    rintro rfl
    exact (h.unfinished hu).not_edge ⟨s, hs, ht⟩
  have hlt : c < B.function.blocks.length := h.length ▸ Function.block_mem hs
  rw [h.grown.block_eq hlt hc] at hs
  exact ⟨s, hs, ht⟩

theorem Builder.emitted_edge (hc : B.cursor = .atEnd b) (hb : b < B.function.blocks.length)
    {inst : Inst} {types : List MachineType} (he : (B.emitted inst types).function.Edge c t) :
    B.function.Edge c t ∨ (c = b ∧ t ∈ inst.targets) := by
  obtain ⟨s, hs, ht⟩ := he
  rw [B.block_emitted inst types hc hb] at hs
  split at hs
  · rename_i hcb
    rcases List.mem_append.mp hs with hs | hs
    · exact Or.inl ⟨s, hcb ▸ hs, ht⟩
    · rw [List.mem_singleton.mp hs] at ht
      exact Or.inr ⟨hcb, ht⟩
  · exact Or.inl ⟨s, hs, ht⟩

theorem Builder.opened_edge (hc : B.cursor = .atEnd b) (hb : b < B.function.blocks.length)
    (he : B.opened.function.Edge c t) :
    B.function.Edge c t ∨ (c = b ∧ t = B.function.blocks.length) := by
  obtain ⟨s, hs, ht⟩ := he
  rw [Builder.block_opened hc hb] at hs
  split at hs
  · rename_i hcb
    rcases List.mem_append.mp hs with hs | hs
    · exact Or.inl ⟨s, hcb ▸ hs, ht⟩
    · rw [List.mem_singleton.mp hs] at ht
      exact Or.inr ⟨hcb, List.mem_singleton.mp ht⟩
  · exact Or.inl ⟨s, hs, ht⟩

theorem Builder.left_edge (hc : B.cursor = .atEnd b) (hb : b < B.function.blocks.length)
    (hu : Unfinished (B.function.block b)) {parked : Option SlotId} {v : ValueId} {join : Nat}
    (he : (B.left parked v join).function.Edge c t) :
    B.function.Edge c t ∨ (c = b ∧ t = join) := by
  have hs := Builder.stored_inline hc hb parked v
  rcases Builder.emitted_edge hs.cursor (hs.length ▸ hb) he with he | ⟨hcb, ht⟩
  · exact Or.inl (hs.edge hu he)
  · exact Or.inr ⟨hcb, List.mem_singleton.mp ht⟩

namespace Layout

variable {parked : Option SlotId} {condition u w : ValueId} {testEnd thenEnd elseEnd : Nat}
  (L : Layout B b T P D A C parked condition u w testEnd thenEnd elseEnd)
include L

theorem unfinished_ends : Unfinished (T.function.block testEnd) ∧
    Unfinished (A.function.block thenEnd) ∧ Unfinished (C.function.block elseEnd) := by
  refine ⟨L.test.unfinished ?_, L.thenArm.unfinished ?_, L.elseArm.unfinished ?_⟩
  · rw [L.block_opened (Nat.le_refl _)]
    exact unfinished_nil
  · rw [L.block_thenStart]
    exact unfinished_nil
  · rw [Builder.enter_function, L.block_elseStart]
    exact unfinished_nil

/-- Where arms meet, the second arm leads to the join as well. -/
theorem joined_edge {size : Nat}
    (he : (A.joined C parked size u w (B.function.blocks.length + 3)).2.function.Edge c t) :
    (C.left parked w (B.function.blocks.length + 3)).function.Edge c t := by
  obtain ⟨s, hs, ht⟩ := he
  have hlast {X : Block} {m n v slot : Nat}
      (hs : s ∈ X ++ [⟨m, [], .store v slot⟩, ⟨n, [], .jump (B.function.blocks.length + 3)⟩]) :
      s ∈ X ∨ t = B.function.blocks.length + 3 := by
    simp only [List.mem_append, List.mem_cons, List.not_mem_nil, or_false] at hs
    rcases hs with hs | rfl | rfl
    · exact Or.inl hs
    · cases ht
    · exact Or.inr (List.mem_singleton.mp ht)
  by_cases hthen : c = thenEnd
  · subst hthen
    obtain ⟨m, n, hblock⟩ := L.block_thenEnd size
    rw [hblock] at hs
    rcases hlast hs with hs | rfl
    · have hs := (Builder.left_grown L.thenArm.cursor L.thenArm.bound parked u
        (B.function.blocks.length + 3)).mem c s hs
      exact ⟨s, L.grown_left.mem c s hs, ht⟩
    · refine ⟨_, L.marks_then.block ▸ List.mem_append_right _ (List.mem_singleton_self _), ?_⟩
      exact List.mem_singleton_self _
  by_cases helse : c = elseEnd
  · subst helse
    obtain ⟨m, n, hblock⟩ := L.block_elseEnd size
    rw [hblock] at hs
    rcases hlast hs with hs | rfl
    · exact ⟨s, (Builder.left_grown L.elseArm.cursor L.elseArm.bound parked w _).mem c s hs, ht⟩
    · refine ⟨_, L.marks_else.block ▸ List.mem_append_right _ (List.mem_singleton_self _), ?_⟩
      exact List.mem_singleton_self _
  rw [L.block_joined size hthen helse] at hs
  exact ⟨s, hs, ht⟩

end Layout

end ScalarLang.Ir
