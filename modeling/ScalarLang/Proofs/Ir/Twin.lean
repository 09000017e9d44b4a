import Mathlib
import ScalarLang.Proofs.Ir.Dominance
import ScalarLang.Proofs.Ir.Execution
import ScalarLang.Proofs.Ir.WellFormed

/-
  Code that differs in its slots alone.
  Twin builders have the same values, imports and number of blocks, the same instructions that ask
  for types of their operands, and stand at the same place; their slots, the instructions that use
  them and the numbers of instructions may differ. Pieces of code agree if from frames with the same
  values and the same fault they come to the same outcome, whatever is in the slots.
  Agreement is shown from the end of a run back to its start: if what follows agrees, so does what
  comes before it.
-/

namespace ScalarLang.Ir

/-! ## Frames with other slots -/

/-- The frame with other contents of the slots. -/
def Frame.withSlots (fr : Frame) (slots : SlotId → Option Word) : Frame := { fr with slots }

theorem Frame.setValues?_withSlots (fr : Frame) (slots : SlotId → Option Word)
    (vs : List ValueId) (ws : List Word) :
    (fr.withSlots slots).setValues? vs ws = (fr.setValues? vs ws).map (·.withSlots slots) := by
  induction vs generalizing fr ws with
  | nil => cases ws <;> rfl
  | cons v vs ih =>
      cases ws with
      | nil => rfl
      | cons w ws => exact ih (fr.setValue v w) ws

/-- Where control goes, with other contents of the slots. -/
def Flow.withSlots (slots : SlotId → Option Word) : Flow → Flow
  | .next fr => .next (fr.withSlots slots)
  | .goto b fr => .goto b (fr.withSlots slots)
  | .done out => .done out

/-- Instructions that read or write a slot. -/
def Inst.usesSlot : Inst → Bool
  | .store _ _ | .load _ _ => true
  | _ => false

theorem Inst.usesSlot_of_isInner {inst : Inst} (h : inst.isInner = true) :
    inst.usesSlot = false := by
  cases inst <;> first | rfl | cases h

namespace Function

variable {link : Linkage} {f g : Function} {s t : Stmt}

/-- An instruction without a slot does not look at the slots. -/
theorem step_withSlots (hs : s.inst.usesSlot = false) (fr : Frame)
    (slots : SlotId → Option Word) :
    f.step link (fr.withSlots slots) s = (f.step link fr s).map (·.withSlots slots) := by
  have hvalues : (fr.withSlots slots).values = fr.values := rfl
  rcases hi : s.inst with _ | _ | _ | _ | _ | _ | _ | _ | ⟨callee, args⟩ | _ | _ | _
  case call =>
    simp only [step, hi, hvalues]
    rcases f.imports[callee]? with _ | i
    · rfl
    rcases args.mapM fr.values with _ | ws
    · rfl
    simp only [Option.bind_eq_bind, Option.bind_some]
    rcases link i.index ws with _ | out
    · rfl
    simp only [Option.bind_some, fr.setValues?_withSlots]
    rcases fr.setValues? s.results out.results with _ | fr' <;> rfl
  case ret values =>
    simp only [step, hi, hvalues]
    rcases values.mapM fr.values with _ | ws <;> rfl
  case jump => simp only [step, hi, Option.map_some, Flow.withSlots]
  case brif c _ _ =>
    simp only [step, hi, hvalues]
    rcases fr.values c with _ | w
    · rfl
    simp only [Option.bind_eq_bind, Option.bind_some]
    rcases w.isTrue? with _ | b <;> rfl
  case store => simp [hi, Inst.usesSlot] at hs
  case load => simp [hi, Inst.usesSlot] at hs
  all_goals
    simp only [step, hi, hvalues, Option.bind_eq_bind]
    generalize Inst.compute? fr.values _ = computed
    rcases computed with _ | w
    · rfl
    simp only [Option.bind_some, fr.setValues?_withSlots]
    rcases fr.setValues? s.results [w] with _ | fr' <;> rfl

/-- The number of a statement has no part in what it does. -/
theorem step_congr (hi : g.imports = f.imports) (hr : t.results = s.results)
    (hinst : t.inst = s.inst) (fr : Frame) : g.step link fr t = f.step link fr s := by
  simp only [step, hi, hr, hinst]

theorem isTerminator_of_next {fr fr' : Frame} (h : f.step link fr s = some (.next fr')) :
    s.inst.isTerminator = false := by
  rcases hi : s.inst with _ | _ | _ | _ | _ | _ | _ | _ | _ | _ | _ | _
  case ret | jump | brif => simp [step, hi, Option.bind_eq_some_iff] at h
  all_goals rfl

end Function

/-! ## Agreement -/

/-- From frames that differ in the slots at most, the two pieces of code come to the same. -/
def Agree (link : Linkage) (f g : Function) (X Y : Block) : Prop :=
  ∀ (fuel : Nat) (fr : Frame) (slots slots' : SlotId → Option Word),
    g.resume link fuel Y (fr.withSlots slots') = f.resume link fuel X (fr.withSlots slots)

/-- The code has no outcome unless the value is there. -/
def Needs (link : Linkage) (f : Function) (X : Block) (v : ValueId) : Prop :=
  ∀ fuel fr, fr.values v = none → f.resume link fuel X fr = none

namespace Agree

variable {link : Linkage} {f g : Function} {X Y Z Z' : Block} {s t : Stmt}

theorem symm (h : Agree link f g X Y) : Agree link g f Y X :=
  fun fuel fr slots slots' => (h fuel fr slots' slots).symm

/-- A block that both functions have. -/
theorem runFrom {b : Nat} (hlength : g.blocks.length = f.blocks.length)
    (h : Agree link f g (f.block b) (g.block b)) (fuel : Nat) (fr : Frame)
    (slots slots' : SlotId → Option Word) :
    g.runFrom link fuel b (fr.withSlots slots') = f.runFrom link fuel b (fr.withSlots slots) := by
  cases fuel with
  | zero => rfl
  | succ fuel =>
      by_cases hb : b < f.blocks.length
      · rw [Function.runFrom_succ hb, Function.runFrom_succ (hlength ▸ hb)]
        exact h fuel fr slots slots'
      · have hf : f.blocks[b]? = none := List.getElem?_eq_none (Nat.le_of_not_lt hb)
        have hg : g.blocks[b]? = none := List.getElem?_eq_none (hlength ▸ Nat.le_of_not_lt hb)
        simp only [Function.runFrom, hf, hg, Option.bind_eq_bind, Option.bind_none]

/-- The same instruction without a slot, before code that agrees, wherever it leads. -/
theorem cons (himports : g.imports = f.imports) (hlength : g.blocks.length = f.blocks.length)
    (hslot : s.inst.usesSlot = false) (hr : t.results = s.results) (hinst : t.inst = s.inst)
    (hnext : s.inst.isTerminator = false → Agree link f g X Y)
    (hgoto : ∀ b ∈ s.inst.targets, Agree link f g (f.block b) (g.block b)) :
    Agree link f g (s :: X) (t :: Y) := by
  intro fuel fr slots slots'
  have hstep : g.step link (fr.withSlots slots') t =
      (f.step link fr s).map (·.withSlots slots') := by
    rw [Function.step_withSlots (hinst ▸ hslot), Function.step_congr himports hr hinst]
  simp only [Function.resume, Function.runBlock, hstep, Function.step_withSlots hslot]
  rcases hflow : f.step link fr s with _ | flow
  · rfl
  cases flow with
  | next fr' => exact hnext (Function.isTerminator_of_next hflow) fuel fr' slots slots'
  | goto b fr' =>
      exact (hgoto b (Function.target_of_step hflow)).runFrom hlength fuel fr' slots slots'
  | done out => rfl

/-- The same jump, branch or return, if it leads to blocks that agree. -/
theorem leave (himports : g.imports = f.imports) (hlength : g.blocks.length = f.blocks.length)
    (hslot : s.inst.usesSlot = false) (hr : t.results = s.results) (hinst : t.inst = s.inst)
    (hterminator : s.inst.isTerminator = true)
    (hgoto : ∀ b ∈ s.inst.targets, Agree link f g (f.block b) (g.block b)) :
    Agree link f g (s :: X) (t :: Y) :=
  .cons himports hlength hslot hr hinst (by simp [hterminator]) hgoto

/-- Stores of one value. -/
theorem stores {m n : Nat} {v : ValueId} {slot slot' : SlotId} (h : Agree link f g X Y) :
    Agree link f g (⟨m, [], .store v slot⟩ :: X) (⟨n, [], .store v slot'⟩ :: Y) := by
  intro fuel fr slots slots'
  have hvalue (slots : SlotId → Option Word) : (fr.withSlots slots).values v = fr.values v := rfl
  simp only [Function.resume, Function.runBlock, Function.step, hvalue]
  rcases fr.values v with _ | w
  · rfl
  · exact h fuel fr _ _

/-- A store on one side, of a value that the other side needs. -/
theorem store {n : Nat} {v : ValueId} {slot : SlotId} (h : Agree link f g X Y)
    (hneeds : Needs link g Y v) : Agree link f g (⟨n, [], .store v slot⟩ :: X) Y := by
  intro fuel fr slots slots'
  have hvalue (slots : SlotId → Option Word) : (fr.withSlots slots).values v = fr.values v := rfl
  rcases hv : fr.values v with _ | w
  · rw [hneeds fuel (fr.withSlots slots') hv]
    simp [Function.resume, Function.runBlock, Function.step, hvalue, hv]
  · have hstep : f.resume link fuel (⟨n, [], .store v slot⟩ :: X) (fr.withSlots slots) =
        f.resume link fuel X ((fr.withSlots slots).setSlot slot w) := by
      simp [Function.resume, Function.runBlock, Function.step, hvalue, hv]
    rw [hstep]
    exact h fuel fr _ slots'

/-- Loads that find the same word. -/
theorem loads {k k' : Nat} {slot slot' : SlotId} {ty : MachineType} {results : List ValueId}
    (h : Agree link f g Z Z') {fr : Frame} {slots slots' : SlotId → Option Word} {w : Word}
    (hw : slots slot = some w) (hw' : slots' slot' = some w) (fuel : Nat) :
    g.resume link fuel (⟨k', results, .load ty slot'⟩ :: Z') (fr.withSlots slots') =
      f.resume link fuel (⟨k, results, .load ty slot⟩ :: Z) (fr.withSlots slots) := by
  have hload : (fr.withSlots slots).slots slot = some w := hw
  have hload' : (fr.withSlots slots').slots slot' = some w := hw'
  simp only [Function.resume, Function.runBlock, Function.step, hload, hload', Option.bind_eq_bind,
    Option.bind_some]
  by_cases hty : w.type = ty
  · simp only [if_pos hty, Frame.setValues?_withSlots]
    rcases fr.setValues? results [w] with _ | fr'
    · rfl
    · exact h fuel fr' slots slots'
  · simp only [if_neg hty]

/-- What is stored on the way to a block is loaded there. -/
theorem handOver (hlength : g.blocks.length = f.blocks.length) {m m' n n' k k' : Nat} {b : BlockId}
    {v : ValueId} {slot slot' : SlotId} {ty : MachineType} {results : List ValueId}
    (hf : f.block b = ⟨k, results, .load ty slot⟩ :: Z)
    (hg : g.block b = ⟨k', results, .load ty slot'⟩ :: Z') (h : Agree link f g Z Z') :
    Agree link f g (⟨m, [], .store v slot⟩ :: ⟨n, [], .jump b⟩ :: X)
      (⟨m', [], .store v slot'⟩ :: ⟨n', [], .jump b⟩ :: Y) := by
  intro fuel fr slots slots'
  have hvalue (slots : SlotId → Option Word) : (fr.withSlots slots).values v = fr.values v := rfl
  have hb : b < f.blocks.length :=
    Function.block_mem (s := ⟨k, results, .load ty slot⟩) (by simp [hf])
  simp only [Function.resume, Function.runBlock, Function.step, hvalue]
  rcases fr.values v with _ | w
  · rfl
  cases fuel with
  | zero => rfl
  | succ fuel =>
      change g.runFrom link (fuel + 1) b ((fr.withSlots slots').setSlot slot' w) =
        f.runFrom link (fuel + 1) b ((fr.withSlots slots).setSlot slot w)
      rw [Function.runFrom_succ hb, Function.runFrom_succ (hlength ▸ hb), hf, hg]
      exact loads h (if_pos rfl) (if_pos rfl) fuel

end Agree

/-! ## Statements -/

/-- Some statement of the function has the instruction and the results. -/
def Function.Contains (f : Function) (inst : Inst) (results : List ValueId) : Prop :=
  ∃ b, ∃ s ∈ f.block b, s.inst = inst ∧ s.results = results

namespace Builder

variable {B : Builder} {inst inst' : Inst} {types : List MachineType} {results : List ValueId}

/-- Wherever it is put, a statement is all that is new. -/
theorem mem_emitted {s : Stmt} {c : Nat} :
    (s ∈ (B.emitted inst types).function.block c → s ∈ B.function.block c ∨ s = B.stmt inst types) ∧
      (s ∈ B.function.block c → s ∈ (B.emitted inst types).function.block c) := by
  rcases hc : B.cursor with _ | b | n
  · have hblock : (B.emitted inst types).function.block c = B.function.block c := by
      simp only [Function.block, emitted, hc, place]
    rw [hblock]
    exact ⟨Or.inl, id⟩
  · by_cases hb : b < B.function.blocks.length
    · rw [block_emitted B inst types hc hb]
      split
      · rename_i h
        subst h
        simp only [List.mem_append, List.mem_singleton]
        exact ⟨id, Or.inl⟩
      · exact ⟨Or.inl, id⟩
    · have hblock : (B.emitted inst types).function.block c = B.function.block c := by
        simp only [Function.block, emitted, hc, place,
          List.modify_eq_self (Nat.le_of_not_lt hb)]
      rw [hblock]
      exact ⟨Or.inl, id⟩
  · rw [block_emitted_before B inst types hc]
    exact ⟨fun h => (mem_of_mem_insertBefore h).symm, mem_insertBefore⟩

theorem contains_emitted (B : Builder) (inst : Inst) (types : List MachineType)
    (hi : inst.asksTypes = false) (hi' : inst'.asksTypes = true) :
    (B.emitted inst types).function.Contains inst' results ↔
      B.function.Contains inst' results := by
  constructor
  · rintro ⟨c, s, hs, rfl, hr⟩
    rcases mem_emitted.1 hs with hs | rfl
    · exact ⟨c, s, hs, rfl, hr⟩
    · exact absurd (hi'.symm.trans hi) (by simp)
  · rintro ⟨c, s, hs, h⟩
    exact ⟨c, s, mem_emitted.2 hs, h⟩

theorem contains_emitted_at {b : Nat} (hc : B.cursor = .atEnd b)
    (hb : b < B.function.blocks.length) :
    (B.emitted inst types).function.Contains inst' results ↔
      B.function.Contains inst' results ∨
        inst = inst' ∧ (B.stmt inst types).results = results := by
  constructor
  · rintro ⟨c, s, hs, h⟩
    rcases mem_emitted.1 hs with hs | rfl
    · exact Or.inl ⟨c, s, hs, h⟩
    · exact Or.inr h
  · rintro (⟨c, s, hs, h⟩ | ⟨rfl, rfl⟩)
    · exact ⟨c, s, mem_emitted.2 hs, h⟩
    · refine ⟨b, B.stmt inst types, ?_, rfl, rfl⟩
      rw [block_emitted_self B _ types hc hb]
      simp

theorem contains_withBlock :
    B.withBlock.function.Contains inst results ↔ B.function.Contains inst results := by
  simp only [Function.Contains, withBlock_block]

end Builder

/-! ## Twin builders -/

/-- The builders have the same values, imports and number of blocks, the same instructions that
    ask for types, and stand at the same place. -/
structure Twin (B B' : Builder) : Prop where
  values : B'.function.values = B.function.values
  imports : B'.function.imports = B.function.imports
  length : B'.function.blocks.length = B.function.blocks.length
  cursor : B'.cursor = B.cursor
  code : ∀ inst results, inst.asksTypes = true →
    (B'.function.Contains inst results ↔ B.function.Contains inst results)

/-- What was built from `B` to `E` and from its twin `B'` to `E'` starts in block `b` and ends in
    block `e`, leaves twins, and agrees if what follows it does. -/
structure Abreast (link : Linkage) (b : Nat) (B E B' E' : Builder) (e : Nat) : Prop where
  twin : Twin E E'
  region : Region B b E e
  region' : Region B' b E' e
  agree : ∀ f g : Function, g.imports = f.imports → g.blocks.length = f.blocks.length →
    Covers f B b E → Covers g B' b E' → Agree link f g (f.rest E e) (g.rest E' e) →
    Agree link f g (f.rest B b) (g.rest B' b)

variable {link : Linkage} {B B' E E' M M' : Builder} {b e m : Nat}

namespace Twin

/-- Instructions that ask for no types, wherever they are put. -/
theorem emitted (h : Twin B B') (inst inst' : Inst) (types : List MachineType)
    (hi : inst.asksTypes = false) (hi' : inst'.asksTypes = false) :
    Twin (B.emitted inst types) (B'.emitted inst' types) where
  values := by simp [h.values]
  imports := h.imports
  length := by simpa using h.length
  cursor := h.cursor
  code := fun i results hasks => by
    rw [B.contains_emitted inst types hi hasks, B'.contains_emitted inst' types hi' hasks,
      h.code i results hasks]

/-- The same instruction at the end of a block. -/
theorem emitted_at (h : Twin B B') (hc : B.cursor = .atEnd b) (hb : b < B.function.blocks.length)
    (inst : Inst) (types : List MachineType) :
    Twin (B.emitted inst types) (B'.emitted inst types) where
  values := by simp [h.values]
  imports := h.imports
  length := by simpa using h.length
  cursor := h.cursor
  code := fun i results hasks => by
    have hresults : (B'.stmt inst types).results = (B.stmt inst types).results := by
      simp [Builder.stmt, h.values]
    rw [Builder.contains_emitted_at hc hb, Builder.contains_emitted_at (h.cursor.trans hc)
      (h.length ▸ hb), h.code i results hasks, hresults]

theorem enter (h : Twin B B') (b : Nat) : Twin (B.enter b) (B'.enter b) :=
  ⟨h.values, h.imports, h.length, rfl, h.code⟩

/-- An import is found under the same number, and added or not in both. -/
theorem imported (h : Twin B B') (index : Nat) (signature : Signature) :
    (B'.imported index signature).1 = (B.imported index signature).1 ∧
      Twin (B.imported index signature).2 (B'.imported index signature).2 := by
  simp only [Builder.imported, Build.importFunction, modifyGet, MonadStateOf.modifyGet,
    StateT.modifyGet, pure, h.imports]
  cases B.function.imports.findIdx? (·.index == index) with
  | none => exact ⟨rfl, h.values, rfl, h.length, h.cursor, h.code⟩
  | some id => exact ⟨rfl, h⟩

end Twin

namespace Abreast

theorem refl (h : Twin B B') (hc : B.cursor = .atEnd b) (hb : b < B.function.blocks.length) :
    Abreast link b B B B' B' b where
  twin := h
  region := .of_inline (.refl hc) hb
  region' := .of_inline (.refl (h.cursor.trans hc)) (h.length ▸ hb)
  agree := fun _ _ _ _ _ _ hagree => hagree

theorem trans (h : Abreast link b B M B' M' m) (h' : Abreast link m M E M' E' e) :
    Abreast link b B E B' E' e where
  twin := h'.twin
  region := h.region.trans h'.region
  region' := h.region'.trans h'.region'
  agree := by
    intro f g himports hlength hf hg hagree
    refine h.agree f g himports hlength (hf.first h'.region) (hg.first h'.region') ?_
    exact h'.agree f g himports hlength (hf.second h.region) (hg.second h.region') hagree

/-- The same instruction, neither an end of the block nor one with a slot. -/
theorem emitted (h : Twin B B') (hc : B.cursor = .atEnd b) (hb : b < B.function.blocks.length)
    {inst : Inst} (hi : inst.isInner = true) (types : List MachineType) :
    Abreast link b B (B.emitted inst types) B' (B'.emitted inst types) b where
  twin := h.emitted_at hc hb inst types
  region := .of_inline (.emitted hc hb inst (Inst.isTerminator_of_isInner hi) types) hb
  region' := .of_inline (.emitted (h.cursor.trans hc) (h.length ▸ hb) inst
    (Inst.isTerminator_of_isInner hi) types) (h.length ▸ hb)
  agree := by
    intro f g himports hlength hf hg hagree
    rw [Function.rest_append (B.block_emitted_self inst types hc hb) (hf.block b (Or.inl rfl)),
      Function.rest_append (B'.block_emitted_self inst types (h.cursor.trans hc) (h.length ▸ hb))
        (hg.block b (Or.inl rfl))]
    refine .cons himports hlength (Inst.usesSlot_of_isInner hi) ?_ rfl (fun _ => hagree) ?_
    · simp [Builder.stmt, h.values]
    · rw [show (B.stmt inst types).inst.targets = [] by cases inst <;> first | rfl | cases hi]
      simp

theorem imported (h : Twin B B') (hc : B.cursor = .atEnd b) (hb : b < B.function.blocks.length)
    (index : Nat) (signature : Signature) :
    Abreast link b B (B.imported index signature).2 B' (B'.imported index signature).2 b where
  twin := (h.imported index signature).2
  region := .of_inline (.imported hc index signature) hb
  region' := .of_inline (.imported (h.cursor.trans hc) index signature) (h.length ▸ hb)
  agree := by
    intro f g _ _ _ _ hagree
    have hblock (B : Builder) :
        (B.imported index signature).2.function.block b = B.function.block b := by
      obtain ⟨added, he, -⟩ := B.imported_snd index signature
      rw [he]
      rfl
    rwa [Function.rest, Function.rest, hblock, hblock] at hagree

end Abreast

/-! ## Building steps -/

namespace Build

/-- From twins the step gives the same and makes code that agrees. -/
def Matches {α : Type} (link : Linkage) (x : Build α) : Prop :=
  ∀ (B B' : Builder) (b : Nat), Twin B B' → B.cursor = .atEnd b → b < B.function.blocks.length →
    (x B').1 = (x B).1 ∧ Abreast link b B (x B).2 B' (x B').2 b

namespace Matches

variable {α β : Type}

theorem pure (a : α) : Matches link (pure a : Build α) :=
  fun _ _ _ h hc hb => ⟨rfl, .refl h hc hb⟩

theorem bind {x : Build α} {f : α → Build β} (hx : Matches link x)
    (hf : ∀ a, Matches link (f a)) : Matches link (x >>= f) := by
  intro B B' b h hc hb
  obtain ⟨hresult, h₁⟩ := hx B B' b h hc hb
  have h₂ := hf (x B).1 (x B).2 (x B').2 b h₁.twin h₁.region.cursor h₁.region.bound
  rw [bind_apply, bind_apply, hresult]
  exact ⟨h₂.1, h₁.trans h₂.2⟩

theorem typeOf (v : ValueId) : Matches link (Build.typeOf v) := by
  intro B B' b h hc hb
  refine ⟨?_, .refl h hc hb⟩
  rw [typeOf_apply, typeOf_apply, Builder.typeOf, Builder.typeOf, h.values]

theorem value {inst : Inst} (hi : inst.isInner = true) (ty : MachineType) :
    Matches link (Build.value inst ty) := by
  intro B B' b h hc hb
  refine ⟨?_, .emitted h hc hb hi [ty]⟩
  rw [value_apply, value_apply, h.values]

theorem const (c : Constant) : Matches link (Build.const c) := value rfl _

theorem iconst (ty : MachineType) (imm : BitVec 64) : Matches link (Build.iconst ty imm) := const _

theorem binary (op : BinaryOpcode) (a b : ValueId) : Matches link (Build.binary op a b) :=
  (typeOf a).bind fun _ => value rfl _

theorem unary (op : UnaryOpcode) (a : ValueId) : Matches link (Build.unary op a) :=
  (typeOf a).bind fun _ => value rfl _

theorem extend (signed : Bool) (ty : MachineType) (a : ValueId) :
    Matches link (Build.extend signed ty a) := value rfl _

theorem icmp (cc : IntCC) (a b : ValueId) : Matches link (Build.icmp cc a b) := value rfl _

theorem icmpImm (cc : IntCC) (a : ValueId) (imm : Int) : Matches link (Build.icmpImm cc a imm) :=
  value rfl _

theorem fcmp (cc : FloatCC) (a b : ValueId) : Matches link (Build.fcmp cc a b) := value rfl _

theorem select (c a b : ValueId) : Matches link (Build.select c a b) :=
  (typeOf a).bind fun _ => value rfl _

theorem importFunction (index : Nat) (signature : Signature) :
    Matches link (Build.importFunction index signature) := fun _ _ _ h hc hb =>
  ⟨(h.imported index signature).1, .imported h hc hb index signature⟩

/-- A call defines as many values as the import has results. -/
theorem call (callee : ImportId) (args : List ValueId) : Matches link (Build.call callee args) := by
  have happly (B : Builder) : Build.call callee args B =
      ((List.range' B.function.values.length
        ((B.function.imports[callee]?.map (·.signature.results)).getD []).length).head?,
        B.emitted (.call callee args)
          ((B.function.imports[callee]?.map (·.signature.results)).getD [])) := rfl
  intro B B' b h hc hb
  rw [happly, happly, h.imports, h.values]
  exact ⟨rfl, .emitted h hc hb rfl _⟩

theorem callIntrinsic (routine : Intrinsic) (args : List ValueId) :
    Matches link (Build.callIntrinsic routine args) :=
  (importFunction _ _).bind fun _ => call _ _

theorem roundHalf (v : ValueId) : Matches link (Build.roundHalf v) :=
  (callIntrinsic _ _).bind fun _ => pure _

theorem widenDivisor (signed : Bool) (ty : MachineType) (v : ValueId) :
    Matches link (Build.widenDivisor signed ty v) := by
  unfold Build.widenDivisor
  split
  · exact pure v
  · exact extend _ _ _

theorem checkedDiv (signed : Bool) (lhs rhs : ValueId) :
    Matches link (Build.checkedDiv signed lhs rhs) := by
  unfold Build.checkedDiv
  refine (typeOf _).bind fun ty => (widenDivisor _ _ _).bind fun _ =>
    (callIntrinsic _ _).bind fun _ => (icmpImm _ _ _).bind fun _ => (iconst _ _).bind fun _ =>
    (select _ _ _).bind fun _ => ?_
  split
  · exact (iconst _ _).bind fun _ => (iconst _ _).bind fun _ => (icmp _ _ _).bind fun _ =>
      (icmp _ _ _).bind fun _ => (binary _ _ _).bind fun _ => (select _ _ _).bind fun _ =>
      binary _ _ _
  · exact binary _ _ _

end Matches

end Build

end ScalarLang.Ir

namespace ScalarLang

open Ir.Build (Matches)

variable {link : Ir.Linkage}

theorem BinaryImpl.matches_code (impl : BinaryImpl) (ty : ScalarType) (a b : Ir.ValueId) :
    Matches link (impl.code ty a b) := by
  cases impl with
  | int op => exact .binary _ _ _
  | intDiv signed => exact .checkedDiv _ _ _
  | intShr signed => exact .binary _ _ _
  | intCompare cc => exact .icmp _ _ _
  | floatCompare cc => exact .fcmp _ _ _
  | widenBoolean op =>
      exact (Matches.extend _ _ _).bind fun _ => (Matches.extend _ _ _).bind fun _ =>
        .binary _ _ _
  | float op =>
      refine (Matches.binary _ _ _).bind fun v => ?_
      split
      · exact .roundHalf v
      · exact .pure v

theorem UnaryImpl.matches_code (impl : UnaryImpl) (a : Ir.ValueId) :
    Matches link (impl.code a) := by
  cases impl with
  | intNegate => exact .unary _ _
  | floatNegate => exact .unary _ _
  | identity => exact .pure a
  | intTruthy => exact .icmpImm _ _ _
  | floatTruthy =>
      exact (Matches.typeOf _).bind fun _ => (Matches.const _).bind fun _ => .fcmp _ _ _

end ScalarLang
