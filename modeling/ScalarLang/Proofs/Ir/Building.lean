import Mathlib
import ScalarLang.Ir.Builder

/-
  Building steps as functions from builder to builder.
  Making an instruction puts one statement where the cursor stands and defines the values that
  come next; everything else that a step does is to add a block, a slot or an import, or to move
  the cursor. The lemmas here say what each step does to the blocks, so that later proofs never
  open a step.
-/

namespace ScalarLang.Ir

/-! ## Blocks of a function -/

namespace Function

/-- The statements of a block; a block that does not exist has none. -/
def block (f : Function) (b : Nat) : Block := f.blocks.getD b []

theorem block_eq_nil {f : Function} {b : Nat} (h : f.blocks.length ≤ b) : f.block b = [] := by
  simp [block, List.getElem?_eq_none h]

theorem getElem?_blocks {f : Function} {b : Nat} (h : b < f.blocks.length) :
    f.blocks[b]? = some (f.block b) := by
  simp [block, List.getElem?_eq_getElem h]

theorem block_mem {f : Function} {b : Nat} {s : Stmt} (h : s ∈ f.block b) :
    b < f.blocks.length := by
  by_contra hb
  rw [block_eq_nil (Nat.le_of_not_lt hb)] at h
  simp at h

/-- The blocks of a function are what `block` gives below their number. -/
theorem mem_blocks_iff {f : Function} {block : Block} :
    block ∈ f.blocks ↔ ∃ b, b < f.blocks.length ∧ f.block b = block := by
  constructor
  · intro h
    obtain ⟨b, hb, rfl⟩ := List.getElem_of_mem h
    exact ⟨b, hb, by simp [Function.block, List.getElem?_eq_getElem hb]⟩
  · rintro ⟨b, hb, rfl⟩
    simp [Function.block, List.getElem?_eq_getElem hb]

end Function

/-! ## Steps -/

namespace Builder

/-- The statement that an instruction made now becomes. -/
def stmt (B : Builder) (inst : Inst) (types : List MachineType) : Stmt :=
  ⟨B.count, List.range' B.function.values.length types.length, inst⟩

/-- The builder after an instruction was made. -/
def emitted (B : Builder) (inst : Inst) (types : List MachineType) : Builder :=
  { B with
    count := B.count + 1
    function := { B.function with
      values := B.function.values ++ types
      blocks := place B.cursor (B.stmt inst types) B.function.blocks } }

/-- The builder with one more block. -/
def withBlock (B : Builder) : Builder :=
  { B with function := { B.function with blocks := B.function.blocks ++ [[]] } }

/-- The builder with one more slot. -/
def withSlot (B : Builder) (size : Nat) : Builder :=
  { B with function := { B.function with slots := B.function.slots ++ [size] } }

/-- The builder at the end of a block. -/
def enter (B : Builder) (b : Nat) : Builder := { B with cursor := .atEnd b }

/-- The builder before an instruction. -/
def before (B : Builder) (inst : Nat) : Builder := { B with cursor := .before inst }

/-- The type of a value. -/
def typeOf (B : Builder) (v : ValueId) : MachineType := (B.function.values[v]?).getD .i64

/-- The number under which an external index is imported, and the builder that has it. -/
def imported (B : Builder) (index : Nat) (signature : Signature) : ImportId × Builder :=
  Build.importFunction index signature B

end Builder

namespace Build

theorem bind_apply {α β : Type} (x : Build α) (f : α → Build β) (B : Builder) :
    (x >>= f) B = f (x B).1 (x B).2 := rfl

@[simp] theorem pure_apply {α : Type} (a : α) (B : Builder) : (pure a : Build α) B = (a, B) := rfl

@[simp] theorem createBlock_apply (B : Builder) :
    createBlock B = (B.function.blocks.length, B.withBlock) := rfl

@[simp] theorem createSlot_apply (size : Nat) (B : Builder) :
    createSlot size B = (B.function.slots.length, B.withSlot size) := rfl

@[simp] theorem switchTo_apply (b : Nat) (B : Builder) : switchTo b B = ((), B.enter b) := rfl

@[simp] theorem insertBefore_apply (inst : Nat) (B : Builder) :
    insertBefore inst B = ((), B.before inst) := rfl

@[simp] theorem cursor_apply (B : Builder) : cursor B = (B.cursor, B) := rfl

@[simp] theorem setCursor_apply (c : Cursor) (B : Builder) :
    setCursor c B = ((), { B with cursor := c }) := rfl

@[simp] theorem typeOf_apply (v : ValueId) (B : Builder) : typeOf v B = (B.typeOf v, B) := rfl

@[simp] theorem emit_apply (inst : Inst) (types : List MachineType) (B : Builder) :
    emit inst types B =
      ((B.count, List.range' B.function.values.length types.length), B.emitted inst types) := rfl

@[simp] theorem value_apply (inst : Inst) (ty : MachineType) (B : Builder) :
    value inst ty B = (B.function.values.length, B.emitted inst [ty]) := rfl

@[simp] theorem effect_apply (inst : Inst) (B : Builder) :
    effect inst B = (B.count, B.emitted inst []) := rfl

@[simp] theorem importFunction_apply (index : Nat) (signature : Signature) (B : Builder) :
    importFunction index signature B = B.imported index signature := rfl

/-- The values that a call of an import defines. -/
theorem call_apply (callee : ImportId) (args : List ValueId) (B : Builder) {i : Import}
    (h : B.function.imports[callee]? = some i) :
    call callee args B =
      ((List.range' B.function.values.length i.signature.results.length).head?,
        B.emitted (.call callee args) i.signature.results) := by
  simp only [call, bind_apply, emit_apply, pure_apply]
  change ((List.range' B.function.values.length
      ((B.function.imports[callee]?.map (·.signature.results)).getD []).length).head?,
    B.emitted (.call callee args)
      ((B.function.imports[callee]?.map (·.signature.results)).getD [])) = _
  rw [h]
  rfl

end Build

/-! ## What the steps do -/

namespace Builder

variable (B : Builder) (inst : Inst) (types : List MachineType)

@[simp] theorem emitted_values : (B.emitted inst types).function.values =
    B.function.values ++ types := rfl

@[simp] theorem emitted_slots : (B.emitted inst types).function.slots = B.function.slots := rfl

@[simp] theorem emitted_imports :
    (B.emitted inst types).function.imports = B.function.imports := rfl

@[simp] theorem emitted_signature : (B.emitted inst types).function.signature =
    B.function.signature := rfl

@[simp] theorem emitted_count : (B.emitted inst types).count = B.count + 1 := rfl

@[simp] theorem emitted_cursor : (B.emitted inst types).cursor = B.cursor := rfl

@[simp] theorem withBlock_values : B.withBlock.function.values = B.function.values := rfl

@[simp] theorem withBlock_slots : B.withBlock.function.slots = B.function.slots := rfl

@[simp] theorem withBlock_imports : B.withBlock.function.imports = B.function.imports := rfl

@[simp] theorem withBlock_signature : B.withBlock.function.signature = B.function.signature := rfl

@[simp] theorem withBlock_count : B.withBlock.count = B.count := rfl

@[simp] theorem withBlock_cursor : B.withBlock.cursor = B.cursor := rfl

@[simp] theorem withSlot_count (size : Nat) : (B.withSlot size).count = B.count := rfl

@[simp] theorem withSlot_cursor (size : Nat) : (B.withSlot size).cursor = B.cursor := rfl

@[simp] theorem withSlot_values (size : Nat) :
    (B.withSlot size).function.values = B.function.values := rfl

@[simp] theorem withSlot_slots (size : Nat) :
    (B.withSlot size).function.slots = B.function.slots ++ [size] := rfl

@[simp] theorem withSlot_imports (size : Nat) :
    (B.withSlot size).function.imports = B.function.imports := rfl

@[simp] theorem withSlot_signature (size : Nat) :
    (B.withSlot size).function.signature = B.function.signature := rfl

@[simp] theorem withSlot_blocks (size : Nat) :
    (B.withSlot size).function.blocks = B.function.blocks := rfl

@[simp] theorem withSlot_block (size : Nat) (c : Nat) :
    (B.withSlot size).function.block c = B.function.block c := rfl

@[simp] theorem enter_function (b : Nat) : (B.enter b).function = B.function := rfl

@[simp] theorem enter_count (b : Nat) : (B.enter b).count = B.count := rfl

@[simp] theorem enter_cursor (b : Nat) : (B.enter b).cursor = .atEnd b := rfl

@[simp] theorem before_function (n : Nat) : (B.before n).function = B.function := rfl

@[simp] theorem before_count (n : Nat) : (B.before n).count = B.count := rfl

@[simp] theorem before_cursor (n : Nat) : (B.before n).cursor = .before n := rfl

@[simp] theorem emitted_length :
    (B.emitted inst types).function.blocks.length = B.function.blocks.length := by
  simp only [emitted, place]
  split <;> simp

@[simp] theorem withBlock_length :
    B.withBlock.function.blocks.length = B.function.blocks.length + 1 := by
  simp [withBlock]

@[simp] theorem withBlock_block (c : Nat) : B.withBlock.function.block c = B.function.block c := by
  simp only [Function.block, withBlock, List.getD_eq_getElem?_getD, List.getElem?_append]
  split
  · rfl
  · rename_i h
    rw [List.getElem?_eq_none (by omega : B.function.blocks.length ≤ c)]
    cases c - B.function.blocks.length <;> simp

/-- At the end of a block, a statement goes to the end of that block. -/
theorem block_emitted {b : Nat} (hc : B.cursor = .atEnd b)
    (hb : b < B.function.blocks.length) (c : Nat) :
    (B.emitted inst types).function.block c =
      if c = b then B.function.block b ++ [B.stmt inst types] else B.function.block c := by
  simp only [Function.block, emitted, place, hc, List.getD_eq_getElem?_getD, List.getElem?_modify]
  by_cases h : c = b
  · subst h
    simp [List.getElem?_eq_getElem hb]
  · simp [h, Ne.symm h]

theorem block_emitted_self {b : Nat} (hc : B.cursor = .atEnd b)
    (hb : b < B.function.blocks.length) :
    (B.emitted inst types).function.block b = B.function.block b ++ [B.stmt inst types] := by
  rw [block_emitted B inst types hc hb, if_pos rfl]

theorem block_emitted_other {b c : Nat} (hc : B.cursor = .atEnd b)
    (hb : b < B.function.blocks.length) (h : c ≠ b) :
    (B.emitted inst types).function.block c = B.function.block c := by
  rw [block_emitted B inst types hc hb, if_neg h]

/-! ## Insertion -/

theorem insertBefore_of_ne {n : Nat} {s : Stmt} {block : Block}
    (h : ∀ t ∈ block, t.number ≠ n) : insertBefore n s block = block := by
  induction block with
  | nil => rfl
  | cons t block ih =>
      have ht : t.number ≠ n := h t (by simp)
      have hr := ih (fun u hu => h u (by simp [hu]))
      unfold insertBefore at hr ⊢
      simp [ht, hr]

theorem insertBefore_last {n : Nat} {s t : Stmt} {block : Block}
    (h : ∀ u ∈ block, u.number ≠ n) (ht : t.number = n) :
    insertBefore n s (block ++ [t]) = block ++ [s, t] := by
  have hr := insertBefore_of_ne (s := s) h
  unfold insertBefore at hr ⊢
  simp [hr, ht]

theorem block_emitted_before {n : Nat} (hc : B.cursor = .before n) (c : Nat) :
    (B.emitted inst types).function.block c =
      insertBefore n (B.stmt inst types) (B.function.block c) := by
  simp only [Function.block, emitted, place, hc, List.getD_eq_getElem?_getD, List.getElem?_map]
  cases B.function.blocks[c]? <;> rfl

/-! ## Imports -/

/-- An import only adds to the imports of a function. -/
theorem imported_snd (index : Nat) (signature : Signature) :
    ∃ added, (B.imported index signature).2 =
        { B with function := { B.function with imports := B.function.imports ++ added } } ∧
      ∀ i ∈ added, i = ⟨index, signature⟩ := by
  simp only [imported, Build.importFunction, modifyGet, MonadStateOf.modifyGet, StateT.modifyGet,
    pure]
  cases h : B.function.imports.findIdx? (·.index == index) with
  | none => exact ⟨[⟨index, signature⟩], rfl, by simp⟩
  | some id => exact ⟨[], by simp, by simp⟩

/-- The number of an import stands for its external index. -/
theorem imported_fst (index : Nat) (signature : Signature) :
    ∃ i, (B.imported index signature).2.function.imports[(B.imported index signature).1]? = some i ∧
      i.index = index ∧ (i ∈ B.function.imports ∨ i = ⟨index, signature⟩) := by
  simp only [imported, Build.importFunction, modifyGet, MonadStateOf.modifyGet, StateT.modifyGet,
    pure]
  cases h : B.function.imports.findIdx? (·.index == index) with
  | none => exact ⟨⟨index, signature⟩, by simp, rfl, Or.inr rfl⟩
  | some id =>
      obtain ⟨hid, hi, -⟩ := List.findIdx?_eq_some_iff_getElem.mp h
      refine ⟨B.function.imports[id], by simp [hid], by simpa using hi, Or.inl (by simp)⟩

end Builder

end ScalarLang.Ir
