import Mathlib
import ScalarLang.Proofs.Ir.WellBuilt
import ScalarLang.Proofs.Lower.Edges

/-
  Slots along paths.
  A load finds what was stored last on the way to it. The local reason: a load is the first
  statement of its block, and every block that leads there ends with a store into the slot and a
  jump. `Disciplined` says so, and that values fit their slots; it is kept up while a function is
  built, because a new jump never leads to a block that has a load already.
-/

namespace ScalarLang.Ir

/-! ## Paths -/

/-- The statements of a path's blocks, given the last block first, each with its block. -/
def Function.trace (f : Function) : List BlockId → List (BlockId × Stmt)
  | [] => []
  | b :: before => f.trace before ++ (f.block b).map (b, ·)

/-- The block and the value of the last store into a slot. -/
def lastStore? (slot : SlotId) (trace : List (BlockId × Stmt)) : Option (BlockId × ValueId) :=
  trace.reverse.findSome? fun (b, s) =>
    match s.inst with
    | .store v k => if k = slot then some (b, v) else none
    | _ => none

/-- The block ends with a branch. An `if` parks the value of its test in such a block. -/
def Function.Branches (f : Function) (b : BlockId) : Prop :=
  ∃ s v t e, (f.block b).getLast? = some s ∧ s.inst = .brif v t e

/-! ## The local condition -/

/-- What a statement stores or loads fits its slot. -/
def Function.SlotFits (f : Function) : Inst → Prop
  | .store v slot =>
    ∃ ty size, f.values[v]? = some ty ∧ f.slots[slot]? = some size ∧ ty.bytes ≤ size
  | .load ty slot => ∃ size, f.slots[slot]? = some size ∧ ty.bytes ≤ size
  | _ => True

/-- Block `d` ends by storing a value of the type in the slot and going to block `c`. -/
def Function.Feeds (f : Function) (d c : BlockId) (ty : MachineType) (slot : SlotId) : Prop :=
  ∃ X m n v, f.block d = X ++ [⟨m, [], .store v slot⟩, ⟨n, [], .jump c⟩] ∧
    f.values[v]? = some ty

/-- No statement of the block is a load. -/
def NoLoad (block : Block) : Prop := ∀ s ∈ block, ∀ ty slot, s.inst ≠ .load ty slot

/-- Loads stand first in their blocks and are fed by all blocks that lead there; what is stored and
    loaded fits. -/
structure Function.Disciplined (f : Function) : Prop where
  first : ∀ {c : Nat} {X Y : Block} {s : Stmt} {ty : MachineType} {slot : SlotId},
    f.block c = X ++ s :: Y → s.inst = .load ty slot → X = []
  fed : ∀ {c : Nat} {s : Stmt} {ty : MachineType} {slot : SlotId},
    s ∈ f.block c → s.inst = .load ty slot → c ≠ 0 ∧ ∀ d, f.Edge d c → f.Feeds d c ty slot
  fits : ∀ {c : Nat} {s : Stmt}, s ∈ f.block c → f.SlotFits s.inst

theorem noLoad_nil : NoLoad [] := by simp [NoLoad]

/-- On every path a load is preceded by a store into its slot, and the last one stores a value of
    the type that is loaded, right before the jump to the load; so its block does not end with a
    branch. -/
theorem Function.Disciplined.lastStore {f : Function} (h : f.Disciplined) {b : BlockId}
    {visited : List BlockId} (hp : f.Path (b :: visited)) {X Y : Block} {s : Stmt}
    (hb : f.block b = X ++ s :: Y) {ty : MachineType} {slot : SlotId}
    (hs : s.inst = .load ty slot) :
    ∃ c v, lastStore? slot (f.trace visited ++ X.map (b, ·)) = some (c, v) ∧
      f.values[v]? = some ty ∧
      (∃ W m n, f.block c = W ++ [⟨m, [], .store v slot⟩, ⟨n, [], .jump b⟩]) ∧
      ¬ f.Branches c := by
  obtain rfl := h.first hb hs
  obtain ⟨hentry, hfed⟩ := h.fed (s := s) (by rw [hb]; simp) hs
  cases hp with
  | entry => exact absurd rfl hentry
  | @step d _ before _ he =>
      obtain ⟨W, m, n, v, hblock, hv⟩ := hfed d he
      refine ⟨d, v, ?_, hv, ⟨W, m, n, hblock⟩, ?_⟩
      · simp [lastStore?, Function.trace, hblock]
      · rintro ⟨s', c, t, e, hlast, hs'⟩
        obtain rfl : ⟨n, [], .jump b⟩ = s' := by simpa [hblock] using hlast
        cases hs'

/-! ## Building -/

namespace Function

variable {B B' : Builder} {b : Nat} {X Y : Block} {s : Stmt} {types : List MachineType}

theorem SlotFits.mono (h : B.Extends B') {inst : Inst} (hf : B.function.SlotFits inst) :
    B'.function.SlotFits inst := by
  cases inst with
  | store v slot =>
      obtain ⟨ty, size, hv, hs, hle⟩ := hf
      exact ⟨ty, size, h.getElem?_values hv, h.getElem?_slots hs, hle⟩
  | load ty slot =>
      obtain ⟨size, hs, hle⟩ := hf
      exact ⟨size, h.getElem?_slots hs, hle⟩
  | _ => trivial

theorem Feeds.mono (h : B.Extends B') {d c : BlockId} {ty : MachineType} {slot : SlotId}
    (hblock : B'.function.block d = B.function.block d) (hf : B.function.Feeds d c ty slot) :
    B'.function.Feeds d c ty slot := by
  obtain ⟨X, m, n, v, hd, hv⟩ := hf
  exact ⟨X, m, n, v, hblock.trans hd, h.getElem?_values hv⟩

namespace Disciplined

/-- Tables may grow. -/
theorem of_same (h : B.function.Disciplined) (hx : B.Extends B')
    (hblock : ∀ c, B'.function.block c = B.function.block c) : B'.function.Disciplined where
  first := by
    intro c X Y s ty slot hc hs
    rw [hblock] at hc
    exact h.first hc hs
  fed := by
    intro c s ty slot hc hs
    rw [hblock] at hc
    obtain ⟨hentry, hfed⟩ := h.fed hc hs
    refine ⟨hentry, ?_⟩
    rintro d ⟨u, hu, ht⟩
    rw [hblock] at hu
    exact (hfed d ⟨u, hu, ht⟩).mono hx (hblock d)
  fits := by
    intro c s hc
    rw [hblock] at hc
    exact (h.fits hc).mono hx

/-- A statement that is no load. Neither it nor another one of its block leads to a load. -/
theorem put (h : B.function.Disciplined) (hp : Put B b X Y s types B') (hx : B.Extends B')
    (hload : ∀ ty slot, s.inst ≠ .load ty slot) (hY : NoLoad Y)
    (hfits : B'.function.SlotFits s.inst)
    (htargets : ∀ t ∈ s.inst.targets, NoLoad (B.function.block t))
    (hedges : ∀ t, B.function.Edge b t → NoLoad (B.function.block t)) :
    B'.function.Disciplined where
  first := by
    intro c X₀ Y₀ s₀ ty slot hc hs
    rw [hp.block] at hc
    split at hc
    · -- the load was in front of the new statement
      rcases List.append_eq_append_iff.mp hc with ⟨Z, rfl, hrest⟩ | ⟨Z, rfl, hrest⟩
      · cases Z with
        | nil =>
            obtain ⟨rfl, -⟩ := List.cons_eq_cons.mp hrest
            exact absurd hs (hload ty slot)
        | cons z Z =>
            obtain ⟨-, hrest⟩ := List.cons_eq_cons.mp hrest
            exact absurd hs (hY s₀ (by rw [hrest]; simp) ty slot)
      · cases Z with
        | nil =>
            obtain ⟨rfl, -⟩ := List.cons_eq_cons.mp hrest
            exact absurd hs (hload ty slot)
        | cons z Z =>
            obtain ⟨rfl, rfl⟩ := List.cons_eq_cons.mp hrest
            refine h.first (c := b) (Y := Z ++ Y) ?_ hs
            rw [hp.old, List.append_assoc, List.cons_append]
    · exact h.first hc hs
  fed := by
    intro c s₀ ty slot hc hs
    have hold : s₀ ∈ B.function.block c := by
      rcases hp.mem.mp hc with ⟨-, rfl⟩ | hc
      · exact absurd hs (hload ty slot)
      · exact hc
    obtain ⟨hentry, hfed⟩ := h.fed hold hs
    refine ⟨hentry, ?_⟩
    rintro d ⟨u, hu, ht⟩
    rcases hp.mem.mp hu with ⟨-, rfl⟩ | hu
    · exact absurd hs (htargets c ht s₀ hold ty slot)
    · have hd : d ≠ b := by
        rintro rfl
        exact hedges c ⟨u, hu, ht⟩ s₀ hold ty slot hs
      exact (hfed d ⟨u, hu, ht⟩).mono hx (by rw [hp.block, if_neg hd])
  fits := by
    intro c t ht
    rcases hp.mem.mp ht with ⟨-, rfl⟩ | ht
    · exact hfits
    · exact (h.fits ht).mono hx

/-- A load as the first statement of a block that is fed. -/
theorem load (h : B.function.Disciplined) (hp : Put B b [] [] s types B') (hx : B.Extends B')
    {ty : MachineType} {slot : SlotId} (hs : s.inst = .load ty slot) (hb : b ≠ 0)
    (hfits : B'.function.SlotFits s.inst)
    (hfed : ∀ d, B.function.Edge d b → B.function.Feeds d b ty slot) :
    B'.function.Disciplined where
  first := by
    intro c X₀ Y₀ s₀ ty₀ slot₀ hc hs₀
    rw [hp.block] at hc
    split at hc
    · cases X₀ with
      | nil => rfl
      | cons x X₀ => simp at hc
    · exact h.first hc hs₀
  fed := by
    intro c s₀ ty₀ slot₀ hc hs₀
    -- the new load makes no edges, and its block had none
    have hedge {d : BlockId} (he : B'.function.Edge d c) :
        B.function.Edge d c ∧ B'.function.block d = B.function.block d := by
      obtain ⟨u, hu, ht⟩ := he
      rcases hp.mem.mp hu with ⟨-, rfl⟩ | hu
      · rw [hs] at ht
        cases ht
      · have hd : d ≠ b := by
          rintro rfl
          rw [hp.old] at hu
          cases hu
        exact ⟨⟨u, hu, ht⟩, by rw [hp.block, if_neg hd]⟩
    rcases hp.mem.mp hc with ⟨rfl, rfl⟩ | hc
    · rw [hs] at hs₀
      obtain ⟨rfl, rfl⟩ := Inst.load.inj hs₀
      exact ⟨hb, fun d he => (hfed d (hedge he).1).mono hx (hedge he).2⟩
    · obtain ⟨hentry, hfed⟩ := h.fed hc hs₀
      exact ⟨hentry, fun d he => (hfed d (hedge he).1).mono hx (hedge he).2⟩
  fits := by
    intro c t ht
    rcases hp.mem.mp ht with ⟨-, rfl⟩ | ht
    · exact hfits
    · exact (h.fits ht).mono hx

/-- A statement at the end of an open block. -/
theorem emitted (h : B.function.Disciplined) (hc : B.cursor = .atEnd b)
    (hb : b < B.function.blocks.length) (hu : Unfinished (B.function.block b)) {inst : Inst}
    {types : List MachineType} (hload : ∀ ty slot, inst ≠ .load ty slot)
    (hfits : B.function.SlotFits inst)
    (htargets : ∀ t ∈ inst.targets, NoLoad (B.function.block t)) :
    (B.emitted inst types).function.Disciplined := by
  have hx := Builder.Extends.emitted_at B hc hb inst types
  exact h.put (.at_end hc hb inst types) hx hload noLoad_nil (hfits.mono hx) htargets
    fun t he => absurd he hu.not_edge

end Disciplined

end Function

end ScalarLang.Ir
