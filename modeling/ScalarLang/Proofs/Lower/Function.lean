import Mathlib
import ScalarLang.Proofs.Lower.Expression
import ScalarLang.Proofs.Lower.Numbering

/-
  The blocks around a body.
  A routine starts in block 0, which leads to the body in block 1; the body's end stores the result
  and goes to block 2, which returns it. Both outer blocks are filled after the body.
-/

namespace ScalarLang

namespace Ir.Builder

/-- The builder of a routine, where its body starts. -/
def prepared (name : String) : Builder := (start name).withBlock.withBlock.withBlock.enter 1

/-- The result type of the function under construction. -/
def returning (B : Builder) (ty : MachineType) : Builder :=
  { B with function := { B.function with
      signature := { B.function.signature with results := [ty] } } }

/-- The builder after the entry block was filled, where the body ended. -/
def entered (B : Builder) (size : Nat) (bodyEnd : Cursor) : Builder :=
  { ((B.enter 0).withSlot size).emitted (.jump 1) [] with cursor := bodyEnd }

/-- The builder after the body's end was filled, in the last block. -/
def leaving (B : Builder) (v : ValueId) (slot : SlotId) : Builder :=
  ((B.emitted (.store v slot) []).emitted (.jump 2) []).enter 2

/-- The builder of a routine that returns what is in a slot. -/
def returned (B : Builder) (ty : MachineType) (slot : SlotId) : Builder :=
  ((B.emitted (.load ty slot) [ty]).returning ty).emitted (.ret [B.function.values.length]) []

/-- The builder of a routine whose body ended with the value `v`. -/
def finished (B : Builder) (v : ValueId) (ty : MachineType) (size : Nat) : Builder :=
  ((B.entered size B.cursor).leaving v B.function.slots.length).returned ty B.function.slots.length

variable {B : Builder} {b : Nat}

@[simp] theorem prepared_length (name : String) :
    (prepared name).function.blocks.length = 3 := rfl

@[simp] theorem finished_length (B : Builder) (v : ValueId) (ty : MachineType) (size : Nat) :
    (B.finished v ty size).function.blocks.length = B.function.blocks.length := by
  simp [finished, returned, returning, leaving, entered]

theorem block_entered (h : 0 < B.function.blocks.length) (size : Nat) (bodyEnd : Cursor) (c : Nat) :
    (B.entered size bodyEnd).function.block c =
      if c = 0 then B.function.block 0 ++ [⟨B.count, [], .jump 1⟩] else B.function.block c :=
  block_emitted ((B.enter 0).withSlot size) _ _ rfl h c

theorem block_leaving (hc : B.cursor = .atEnd b) (hb : b < B.function.blocks.length) (v : ValueId)
    (slot : SlotId) (c : Nat) :
    (B.leaving v slot).function.block c =
      if c = b then B.function.block b ++
        [⟨B.count, [], .store v slot⟩, ⟨B.count + 1, [], .jump 2⟩]
      else B.function.block c := by
  rw [leaving, enter_function, block_emitted (B.emitted _ _) _ _ hc (by simpa using hb),
    block_emitted_self B _ _ hc hb]
  split
  · simp [stmt]
  · rename_i h
    exact block_emitted_other B _ _ hc hb h

theorem block_returned (hc : B.cursor = .atEnd b) (hb : b < B.function.blocks.length)
    (ty : MachineType) (slot : SlotId) (c : Nat) :
    (B.returned ty slot).function.block c =
      if c = b then B.function.block b ++
        [⟨B.count, [B.function.values.length], .load ty slot⟩,
          ⟨B.count + 1, [], .ret [B.function.values.length]⟩]
      else B.function.block c := by
  rw [returned, block_emitted ((B.emitted (.load ty slot) [ty]).returning ty) _ _ hc
    (by simpa [returning] using hb)]
  split
  · rename_i h
    change (B.emitted (.load ty slot) [ty]).function.block b ++ _ = _
    rw [block_emitted_self B _ _ hc hb, List.append_assoc]
    rfl
  · rename_i h
    exact block_emitted_other B _ _ hc hb h

end Ir.Builder

open Ir (Builder Region Unfinished)

variable {name : String} {anonymous : Bool} {r : Routine} {B : Builder}

theorem Lower.Builds.draft {body : Lower TypedValue} {B' : Builder}
    (h : Lower.Builds (Lower.draft name anonymous body) (.start name) r B') :
    ∃ tv E, Lower.Builds body (.prepared name) tv E ∧
      r = ⟨name, tv.type, anonymous,
        (E.finished tv.value tv.type.machineType tv.type.byteSize).function⟩ := by
  obtain ⟨_, _, h₁, h⟩ := h.bind
  obtain ⟨rfl, rfl⟩ := h₁.build
  obtain ⟨_, _, h₂, h⟩ := h.bind
  obtain ⟨rfl, rfl⟩ := h₂.build
  obtain ⟨_, _, h₃, h⟩ := h.bind
  obtain ⟨rfl, rfl⟩ := h₃.build
  obtain ⟨_, _, h₄, h⟩ := h.bind
  obtain ⟨-, rfl⟩ := h₄.build
  obtain ⟨_, _, h₅, h⟩ := h.bind
  obtain rfl := h₅.useType
  obtain ⟨tv, _, hbody, h⟩ := h.bind
  obtain ⟨_, E, h₆, h⟩ := h.bind
  obtain ⟨rfl, rfl⟩ := h₆.build
  obtain ⟨_, _, h₇, h⟩ := h.bind
  obtain ⟨-, rfl⟩ := h₇.build
  obtain ⟨_, _, h₈, h⟩ := h.bind
  obtain ⟨rfl, rfl⟩ := h₈.build
  obtain ⟨_, _, h₉, h⟩ := h.bind
  obtain ⟨-, rfl⟩ := h₉.build
  obtain ⟨_, _, h₁₀, h⟩ := h.bind
  obtain ⟨-, rfl⟩ := h₁₀.build
  obtain ⟨_, _, h₁₁, h⟩ := h.bind
  obtain ⟨-, rfl⟩ := h₁₁.build
  obtain ⟨_, _, h₁₂, h⟩ := h.bind
  obtain ⟨-, rfl⟩ := h₁₂.build
  obtain ⟨_, _, h₁₃, h⟩ := h.bind
  obtain ⟨-, rfl⟩ := h₁₃.build
  obtain ⟨_, _, h₁₄, h⟩ := h.bind
  obtain ⟨rfl, rfl⟩ := h₁₄.build
  obtain ⟨_, _, h₁₅, h⟩ := h.bind
  obtain ⟨-, rfl⟩ := h₁₅.build
  obtain ⟨_, _, h₁₆, h⟩ := h.bind
  obtain ⟨-, rfl⟩ := h₁₆.build
  obtain ⟨s, _, h₁₇, h⟩ := h.bind
  obtain ⟨hs, rfl⟩ := h₁₇.get
  obtain ⟨rfl, -⟩ := h.pure
  refine ⟨tv, E, hbody, ?_⟩
  rw [hs]
  rfl

/-- A routine that was lowered is its body with the blocks around it. -/
theorem Routine.lower_ok {p : Program} {types : TypeTable} {nodes : List Node}
    (h : (Routine.lower p types name anonymous nodes).1 = .ok r) :
    ∃ tv E, Lower.Builds (Lower.statements p nodes) (.prepared name) tv E ∧
      r = ⟨name, tv.type, anonymous,
        (E.finished tv.value tv.type.machineType tv.type.byteSize).function⟩ := by
  rw [Routine.lower_eq] at h
  have hb : Lower.Builds (Lower.draft name anonymous (Lower.statements p nodes)) (.start name) r
      (Lower.draft name anonymous (Lower.statements p nodes) ⟨types, .start name⟩).2.builder :=
    ⟨types, _, Prod.ext h rfl⟩
  exact hb.draft

/-! ## Where the body is -/

theorem prepared_numbered (name : String) : (Builder.prepared name).Numbered := by
  intro c s hs
  simp only [Builder.prepared, Builder.enter_function, Builder.withBlock_block] at hs
  simp [Builder.start, Ir.Function.empty, Ir.Function.block] at hs

theorem prepared_block (name : String) (c : Nat) :
    (Builder.prepared name).function.block c = [] := by
  simp only [Builder.prepared, Builder.enter_function, Builder.withBlock_block]
  simp [Builder.start, Ir.Function.empty, Ir.Function.block]

theorem statements_region {p : Program} {nodes : List Node} {tv : TypedValue} {E : Builder}
    (h : Lower.Builds (Lower.statements p nodes) (.prepared name) tv E) :
    ∃ e, Region (.prepared name) 1 E e :=
  Lower.statements_regional p nodes _ _ _ _ h rfl (by simp) (prepared_numbered name)

section Finished

variable {E : Builder} {e : Nat} (hE : Region (.prepared name) 1 E e)
include hE

theorem bodyEnd_bounds : (e = 1 ∨ 3 ≤ e) ∧ e < E.function.blocks.length ∧
    3 ≤ E.function.blocks.length := ⟨hE.exit, hE.bound, hE.grown.length⟩

theorem outer_block {c : Nat} (hc : c = 0 ∨ c = 2) : E.function.block c = [] := by
  have h := hE.grown.block_eq (c := c) (by rcases hc with rfl | rfl <;> simp)
    (by rcases hc with rfl | rfl <;> decide)
  rw [h, prepared_block]

/-- The four kinds of blocks of a finished routine. -/
theorem finished_block (v : Ir.ValueId) (ty : MachineType) (size : Nat) (c : Nat) :
    (E.finished v ty size).function.block c =
      if c = 0 then [⟨E.count, [], .jump 1⟩]
      else if c = e then E.function.block e ++
        [⟨E.count + 1, [], .store v E.function.slots.length⟩, ⟨E.count + 2, [], .jump 2⟩]
      else if c = 2 then
        [⟨E.count + 3, [E.function.values.length], .load ty E.function.slots.length⟩,
          ⟨E.count + 4, [], .ret [E.function.values.length]⟩]
      else E.function.block c := by
  have hb := bodyEnd_bounds hE
  have h₀ : 0 < E.function.blocks.length := by omega
  have h₁ := Builder.block_leaving (B := E.entered size E.cursor) (b := e) hE.cursor
    (by simpa [Builder.entered] using hb.2.1) v E.function.slots.length
  have h₂ := Builder.block_returned (B := (E.entered size E.cursor).leaving v
    E.function.slots.length) (b := 2) rfl
    (by simp [Builder.leaving, Builder.entered]; omega) ty E.function.slots.length
  have hv : ((E.entered size E.cursor).leaving v E.function.slots.length).function.values.length =
      E.function.values.length := by
    simp [Builder.leaving, Builder.entered]
  rw [Builder.finished, h₂, h₁, h₁, Builder.block_entered h₀, Builder.block_entered h₀,
    Builder.block_entered h₀, outer_block hE (Or.inl rfl), outer_block hE (Or.inr rfl), hv]
  by_cases hc : c = 0
  · subst hc
    rw [if_neg (by omega), if_neg (by omega), if_pos rfl, if_pos rfl]
    rfl
  · rw [if_neg hc, if_neg (by omega : ¬ e = 0), if_neg (by omega : ¬ 2 = e)]
    split
    · rename_i h
      subst h
      rw [if_neg (by omega : ¬ 2 = e), if_neg (by omega : ¬ (2 : Nat) = 0)]
      rfl
    · split <;> simp_all
      rfl

theorem finished_signature (v : Ir.ValueId) (ty : MachineType) (size : Nat) :
    (E.finished v ty size).function.signature = ⟨[], [ty]⟩ := by
  have h : E.function.signature = ⟨[], []⟩ := hE.grown.signature
  simp [Builder.finished, Builder.returned, Builder.leaving, Builder.entered, Builder.returning, h]

end Finished

/-- A lowered routine has no parameters and gives its result. -/
theorem Routine.lower_signature {p : Program} {types : TypeTable} {nodes : List Node}
    (h : (Routine.lower p types name anonymous nodes).1 = .ok r) :
    r.signature = ⟨[], [r.returnType.machineType]⟩ := by
  obtain ⟨tv, E, hb, rfl⟩ := Routine.lower_ok h
  obtain ⟨e, hE⟩ := statements_region hb
  exact finished_signature hE _ _ _

end ScalarLang
