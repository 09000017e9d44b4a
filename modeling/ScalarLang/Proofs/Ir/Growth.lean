import Mathlib
import ScalarLang.Proofs.Ir.Building

/-
  How builders grow.
  Building never takes anything away: tables of values, slots and imports only get longer, and
  statements stay. `Extends` says so. `Grown A touched B` says moreover what became of the blocks
  since `A`: each has what it had in `A` in front, in one piece, and of the blocks that `A` had only
  the touched ones got more. Statements that are inserted before a jump made since `A` do not
  disturb that, because instructions are numbered in the order they were made.
-/

namespace ScalarLang.Ir.Builder

variable {A B C : Builder}

/-- Everything that `A` has is there in `B`. -/
structure Extends (A B : Builder) : Prop where
  values : A.function.values <+: B.function.values
  slots : A.function.slots <+: B.function.slots
  imports : A.function.imports <+: B.function.imports
  signature : B.function.signature = A.function.signature
  count : A.count ≤ B.count
  length : A.function.blocks.length ≤ B.function.blocks.length
  mem : ∀ (c : Nat) s, s ∈ A.function.block c → s ∈ B.function.block c

/-- What is in the blocks of `B` and was not there in `A` stands behind what was there, was made
    since, and is in touched blocks or in new ones. -/
structure Grown (A : Builder) (touched : BlockId → Prop) (B : Builder) : Prop extends
    Extends A B where
  block : ∀ c : Nat, ∃ added, B.function.block c = A.function.block c ++ added ∧
    (c < A.function.blocks.length → ¬ touched c → added = []) ∧
    ∀ s ∈ added, A.count ≤ s.number ∧ s.number < B.count

/-- Every statement was made before the instruction that is made next. -/
def Numbered (B : Builder) : Prop := ∀ c : Nat, ∀ s ∈ B.function.block c, s.number < B.count

/-! ## Tables -/

namespace Extends

theorem refl (A : Builder) : Extends A A where
  values := List.prefix_rfl
  slots := List.prefix_rfl
  imports := List.prefix_rfl
  signature := rfl
  count := Nat.le_refl _
  length := Nat.le_refl _
  mem := fun _ _ h => h

theorem trans (h : Extends A B) (h' : Extends B C) : Extends A C where
  values := h.values.trans h'.values
  slots := h.slots.trans h'.slots
  imports := h.imports.trans h'.imports
  signature := h'.signature.trans h.signature
  count := Nat.le_trans h.count h'.count
  length := Nat.le_trans h.length h'.length
  mem := fun c s hs => h'.mem c s (h.mem c s hs)

/-- A type that a value has stays. -/
theorem getElem?_values (h : Extends A B) {v : ValueId} {ty : MachineType}
    (hv : A.function.values[v]? = some ty) : B.function.values[v]? = some ty := by
  obtain ⟨more, he⟩ := h.values
  obtain ⟨hlt, -⟩ := List.getElem?_eq_some_iff.mp hv
  rw [← he, List.getElem?_append_left hlt, hv]

theorem getElem?_slots (h : Extends A B) {slot : SlotId} {size : Nat}
    (hs : A.function.slots[slot]? = some size) : B.function.slots[slot]? = some size := by
  obtain ⟨more, he⟩ := h.slots
  obtain ⟨hlt, -⟩ := List.getElem?_eq_some_iff.mp hs
  rw [← he, List.getElem?_append_left hlt, hs]

theorem withBlock (A : Builder) : Extends A A.withBlock :=
  { refl A with length := by simp, mem := by simp }

theorem withSlot (A : Builder) (size : Nat) : Extends A (A.withSlot size) :=
  { refl A with slots := List.prefix_append _ _ }

theorem enter (A : Builder) (b : Nat) : Extends A (A.enter b) := { refl A with }

theorem before (A : Builder) (n : Nat) : Extends A (A.before n) := { refl A with }

theorem imported (A : Builder) (index : Nat) (signature : Signature) :
    Extends A (A.imported index signature).2 := by
  obtain ⟨added, h, -⟩ := A.imported_snd index signature
  rw [h]
  exact { refl A with imports := List.prefix_append _ _ }

end Extends

theorem mem_insertBefore {n : Nat} {s t : Stmt} {block : Block} (h : t ∈ block) :
    t ∈ insertBefore n s block := by
  unfold insertBefore
  rw [List.mem_flatMap]
  refine ⟨t, h, ?_⟩
  split <;> simp

theorem mem_of_mem_insertBefore {n : Nat} {s t : Stmt} {block : Block}
    (h : t ∈ insertBefore n s block) : t = s ∨ t ∈ block := by
  unfold insertBefore at h
  obtain ⟨u, hu, ht⟩ := List.mem_flatMap.mp h
  split at ht
  · rcases List.mem_cons.mp ht with rfl | ht
    · exact Or.inl rfl
    · rw [List.mem_singleton] at ht
      exact Or.inr (ht ▸ hu)
  · rw [List.mem_singleton] at ht
    exact Or.inr (ht ▸ hu)

theorem insertBefore_append (n : Nat) (s : Stmt) (X Y : Block) :
    insertBefore n s (X ++ Y) = insertBefore n s X ++ insertBefore n s Y := by
  simp [insertBefore]

theorem Extends.emitted_at {b : Nat} (A : Builder) (hc : A.cursor = .atEnd b)
    (hb : b < A.function.blocks.length) (inst : Inst) (types : List MachineType) :
    Extends A (A.emitted inst types) :=
  { refl A with
    values := List.prefix_append _ _
    count := Nat.le_succ _
    length := by simp
    mem := by
      intro c s hs
      rw [block_emitted A inst types hc hb]
      split
      · rename_i h
        subst h
        exact List.mem_append_left _ hs
      · exact hs }

theorem Extends.emitted_before {n : Nat} (A : Builder) (hc : A.cursor = .before n) (inst : Inst)
    (types : List MachineType) : Extends A (A.emitted inst types) :=
  { refl A with
    values := List.prefix_append _ _
    count := Nat.le_succ _
    length := by simp
    mem := by
      intro c s hs
      rw [block_emitted_before A inst types hc]
      exact mem_insertBefore hs }

/-! ## Blocks -/

namespace Grown

variable {touched touched' : BlockId → Prop}

theorem refl (A : Builder) (touched : BlockId → Prop) : Grown A touched A where
  toExtends := Extends.refl A
  block := fun c => ⟨[], by simp, fun _ _ => rfl, by simp⟩

theorem trans (h : Grown A touched B) (h' : Grown B touched' C)
    (ht : ∀ c, touched' c → touched c ∨ A.function.blocks.length ≤ c) : Grown A touched C where
  toExtends := h.toExtends.trans h'.toExtends
  block := by
    intro c
    obtain ⟨added, he, hno, hnum⟩ := h.block c
    obtain ⟨added', he', hno', hnum'⟩ := h'.block c
    refine ⟨added ++ added', by rw [he', he, List.append_assoc], ?_, ?_⟩
    · intro hc hnt
      have hnt' : ¬ touched' c := fun hu =>
        (ht c hu).elim hnt (Nat.not_le_of_lt hc)
      rw [hno hc hnt, hno' (Nat.lt_of_lt_of_le hc h.length) hnt', List.append_nil]
    · intro s hs
      rcases List.mem_append.mp hs with hs | hs
      · have := hnum s hs
        have := h'.count
        omega
      · have := hnum' s hs
        have := h.count
        omega

/-- The blocks that were not touched are as they were. -/
theorem block_eq (h : Grown A touched B) {c : Nat} (hc : c < A.function.blocks.length)
    (ht : ¬ touched c) : B.function.block c = A.function.block c := by
  obtain ⟨added, he, hno, -⟩ := h.block c
  rw [he, hno hc ht, List.append_nil]

theorem block_isPrefix (h : Grown A touched B) (c : Nat) :
    A.function.block c <+: B.function.block c := by
  obtain ⟨added, he, -, -⟩ := h.block c
  exact ⟨added, he.symm⟩

theorem numbered (h : Grown A touched B) (hA : Numbered A) : Numbered B := by
  intro c s hs
  obtain ⟨added, he, -, hnum⟩ := h.block c
  rw [he] at hs
  rcases List.mem_append.mp hs with hs | hs
  · exact Nat.lt_of_lt_of_le (hA c s hs) h.count
  · exact (hnum s hs).2

/-- Steps that make no instruction leave the blocks alone. -/
theorem of_same (h : Grown A touched B) (hx : Extends B C) (hcount : C.count = B.count)
    (hblock : ∀ c, C.function.block c = B.function.block c) : Grown A touched C where
  toExtends := h.toExtends.trans hx
  block := by
    intro c
    rw [hblock, hcount]
    exact h.block c

theorem withBlock (h : Grown A touched B) : Grown A touched B.withBlock :=
  h.of_same (Extends.withBlock B) rfl B.withBlock_block

theorem withSlot (h : Grown A touched B) (size : Nat) : Grown A touched (B.withSlot size) :=
  h.of_same (Extends.withSlot B size) rfl fun _ => rfl

theorem enter (h : Grown A touched B) (b : Nat) : Grown A touched (B.enter b) :=
  h.of_same (Extends.enter B b) rfl fun _ => rfl

theorem before (h : Grown A touched B) (n : Nat) : Grown A touched (B.before n) :=
  h.of_same (Extends.before B n) rfl fun _ => rfl

theorem imported (h : Grown A touched B) (index : Nat) (signature : Signature) :
    Grown A touched (B.imported index signature).2 := by
  obtain ⟨added, he, -⟩ := B.imported_snd index signature
  refine h.of_same (Extends.imported B index signature) ?_ ?_
  · rw [he]
  · intro c
    rw [he]
    rfl

theorem emitted_at (h : Grown A touched B) {b : Nat} (hc : B.cursor = .atEnd b)
    (hb : b < B.function.blocks.length) (ht : touched b ∨ A.function.blocks.length ≤ b)
    (inst : Inst) (types : List MachineType) : Grown A touched (B.emitted inst types) where
  toExtends := h.toExtends.trans (Extends.emitted_at B hc hb inst types)
  block := by
    intro c
    obtain ⟨added, he, hno, hnum⟩ := h.block c
    rw [block_emitted B inst types hc hb]
    by_cases hcb : c = b
    · subst hcb
      refine ⟨added ++ [B.stmt inst types], by rw [if_pos rfl, he, List.append_assoc], ?_, ?_⟩
      · intro hlt hnt
        exact (ht.elim hnt (Nat.not_le_of_lt hlt)).elim
      · intro s hs
        rcases List.mem_append.mp hs with hs | hs
        · have := hnum s hs
          exact ⟨this.1, Nat.lt_succ_of_lt this.2⟩
        · rw [List.mem_singleton] at hs
          subst hs
          exact ⟨h.count, Nat.lt_succ_self _⟩
    · refine ⟨added, by rw [if_neg hcb, he], hno, ?_⟩
      intro s hs
      have := hnum s hs
      exact ⟨this.1, Nat.lt_succ_of_lt this.2⟩

/-- A statement inserted before an instruction that was made since `A` goes behind all of `A`. -/
theorem emitted_before (h : Grown A touched B) (hA : Numbered A) {n : Nat}
    (hc : B.cursor = .before n) (hn : A.count ≤ n) (inst : Inst) (types : List MachineType) :
    Grown A touched (B.emitted inst types) where
  toExtends := h.toExtends.trans (Extends.emitted_before B hc inst types)
  block := by
    intro c
    obtain ⟨added, he, hno, hnum⟩ := h.block c
    have hold : ∀ t ∈ A.function.block c, t.number ≠ n := by
      intro t ht
      have := hA c t ht
      omega
    refine ⟨insertBefore n (B.stmt inst types) added, ?_, ?_, ?_⟩
    · rw [block_emitted_before B inst types hc, he, insertBefore_append, insertBefore_of_ne hold]
    · intro hlt hnt
      rw [hno hlt hnt]
      rfl
    · intro s hs
      rcases mem_of_mem_insertBefore hs with rfl | hs
      · exact ⟨h.count, Nat.lt_succ_self _⟩
      · have := hnum s hs
        exact ⟨this.1, Nat.lt_succ_of_lt this.2⟩

end Grown

/-! ## Marked places -/

/-- Instruction `n` is the last one of block `b`, behind `X`, and stands nowhere else. -/
structure Marks (B : Builder) (n : Nat) (b : Nat) (X : Block) (j : Stmt) : Prop where
  block : B.function.block b = X ++ [j]
  number : j.number = n
  front : ∀ s ∈ X, s.number ≠ n
  other : ∀ c : Nat, c ≠ b → ∀ s ∈ B.function.block c, s.number ≠ n

namespace Marks

variable {n n' : Nat} {b b' : Nat} {X X' : Block} {j j' : Stmt}

/-- An instruction that was just made at the end of a block is marked. -/
theorem emitted (hB : Numbered B) (hc : B.cursor = .atEnd b) (hb : b < B.function.blocks.length)
    (inst : Inst) (types : List MachineType) :
    Marks (B.emitted inst types) B.count b (B.function.block b) (B.stmt inst types) where
  block := block_emitted_self B inst types hc hb
  number := rfl
  front := fun s hs => Nat.ne_of_lt (hB b s hs)
  other := by
    intro c hne s hs
    rw [block_emitted_other B inst types hc hb hne] at hs
    exact Nat.ne_of_lt (hB c s hs)

theorem of_same (h : Marks B n b X j) (hs : ∀ c, C.function.block c = B.function.block c) :
    Marks C n b X j where
  block := (hs b).trans h.block
  number := h.number
  front := h.front
  other := by
    intro c
    rw [hs]
    exact h.other c

theorem lt_length (h : Marks B n b X j) : b < B.function.blocks.length :=
  Function.block_mem (s := j) (by rw [h.block]; simp)

/-- Code that is made elsewhere leaves the mark alone. -/
theorem grown (h : Marks B n b X j) {touched : BlockId → Prop} (hg : Grown B touched C)
    (ht : ¬ touched b) (hn : n < B.count) : Marks C n b X j where
  block := (hg.block_eq h.lt_length ht).trans h.block
  number := h.number
  front := h.front
  other := by
    intro c hne s hs
    obtain ⟨added, he, -, hnum⟩ := hg.block c
    rw [he] at hs
    rcases List.mem_append.mp hs with hs | hs
    · exact h.other c hne s hs
    · have := hnum s hs
      omega

/-- A statement inserted at the mark goes before the last instruction of that block. -/
theorem block_inserted (h : Marks B n b X j) (hc : B.cursor = .before n) (inst : Inst)
    (types : List MachineType) (c : Nat) :
    (B.emitted inst types).function.block c =
      if c = b then X ++ [B.stmt inst types, j] else B.function.block c := by
  rw [block_emitted_before B inst types hc]
  split
  · rename_i hcb
    rw [hcb, h.block, insertBefore_last h.front h.number]
  · rename_i hne
    exact insertBefore_of_ne (h.other c hne)

/-- An insertion at one mark leaves the others alone. -/
theorem inserted (h : Marks B n b X j) (h' : Marks B n' b' X' j') (hne : b' ≠ b)
    (hn : n' < B.count) (hc : B.cursor = .before n) (inst : Inst) (types : List MachineType) :
    Marks (B.emitted inst types) n' b' X' j' where
  block := by rw [h.block_inserted hc, if_neg hne, h'.block]
  number := h'.number
  front := h'.front
  other := by
    intro c hcb s hs
    rw [block_emitted_before B inst types hc] at hs
    rcases mem_of_mem_insertBefore hs with rfl | hs
    · exact Nat.ne_of_gt hn
    · exact h'.other c hcb s hs

end Marks

end ScalarLang.Ir.Builder
