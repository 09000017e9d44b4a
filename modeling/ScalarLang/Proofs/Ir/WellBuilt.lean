import Mathlib
import ScalarLang.Program
import ScalarLang.Proofs.Ir.WellFormed
import ScalarLang.Proofs.Lower.Region

/-
  Code under construction that will be well formed.
  `WellBuilt` is what stays true while code is built: it is structured but for blocks that are not
  ended yet, and typed if the functions that it may call return what they are said to return. The
  certificate of dominators is a parameter, and so is the signature, because the result type is
  known only in the end. `WellBuilt.put` is the step: a new statement, at the end of a block or
  before its last instruction, keeps it if its operands are in reach, if it is typed and if its
  targets have no dominators that its own block lacks.
-/

namespace ScalarLang

namespace Ir

/-- The function under construction, with the signature it will have. -/
def Builder.code (B : Builder) (signature : Signature) : Function :=
  { B.function with signature }

theorem Builder.code_eq {B : Builder} {signature : Signature}
    (h : B.function.signature = signature) : B.code signature = B.function := by
  rw [← h]
  rfl

/-- The invariant of code under construction. -/
structure WellBuilt (p : Program) (signature : Signature) (B : Builder) (doms : Nat → Set Nat) :
    Prop where
  tidy : ∀ c, Unfinished (B.function.block c) ∨ Function.closed (B.function.block c) = true
  shaped : ∀ c, ∀ s ∈ B.function.block c, (B.code signature).Shaped s
  typed : p.Consistent → ∀ c, ∀ s ∈ B.function.block c, (B.code signature).Typed s
  definedOnce : B.function.results.Perm (List.range B.function.values.length)
  inScope : ∀ c, Function.Scoped
    (fun v => ∃ d, d ≠ c ∧ d ∈ doms c ∧ B.function.Defines d v) (B.function.block c)
  dominators : B.function.Dominators doms
  self : ∀ c, c ∈ doms c
  imports : B.ImportsFrom p

/-- `B'` is `B` with the statement `s` between the two parts of block `b`. -/
structure Put (B : Builder) (b : Nat) (X Y : Block) (s : Stmt) (types : List MachineType)
    (B' : Builder) : Prop where
  bound : b < B.function.blocks.length
  old : B.function.block b = X ++ Y
  block : ∀ c, B'.function.block c = if c = b then X ++ s :: Y else B.function.block c
  length : B'.function.blocks.length = B.function.blocks.length
  results : s.results = List.range' B.function.values.length types.length
  values : B'.function.values = B.function.values ++ types
  slots : B'.function.slots = B.function.slots
  imports : B'.function.imports = B.function.imports

variable {p : Program} {signature : Signature} {B B' : Builder} {doms doms' : Nat → Set Nat}
  {b : Nat} {X Y : Block} {s : Stmt} {types : List MachineType}

/-! ## Putting a statement -/

theorem Put.at_end (hc : B.cursor = .atEnd b) (hb : b < B.function.blocks.length) (inst : Inst)
    (types : List MachineType) :
    Put B b (B.function.block b) [] (B.stmt inst types) types (B.emitted inst types) where
  bound := hb
  old := by simp
  block := B.block_emitted inst types hc hb
  length := by simp
  results := rfl
  values := rfl
  slots := rfl
  imports := rfl

theorem Put.at_mark {n : Nat} {j : Stmt} (h : B.Marks n b X j) (hc : B.cursor = .before n)
    (inst : Inst) (types : List MachineType) :
    Put B b X [j] (B.stmt inst types) types (B.emitted inst types) where
  bound := h.lt_length
  old := h.block
  block := h.block_inserted hc inst types
  length := by simp
  results := rfl
  values := rfl
  slots := rfl
  imports := rfl

/-- A new element of one of many lists is a new element of them all. -/
theorem flatten_set_perm {α : Type} {lists : List (List α)} {k : Nat} {xs ys : List α} (x : α)
    (hk : lists[k]? = some (xs ++ ys)) :
    ((lists.set k (xs ++ x :: ys)).flatten).Perm (x :: lists.flatten) := by
  obtain ⟨hlt, hget⟩ := List.getElem?_eq_some_iff.mp hk
  have hsplit : lists = lists.take k ++ (xs ++ ys) :: lists.drop (k + 1) := by
    rw [← hget, List.getElem_cons_drop, List.take_append_drop]
  rw [List.set_eq_take_append_cons_drop, if_pos hlt]
  conv_rhs => rw [hsplit]
  simp only [List.flatten_append, List.flatten_cons, List.append_assoc, List.cons_append]
  rw [← List.append_assoc, ← List.append_assoc _ xs]
  exact List.perm_middle

theorem Put.blocks (h : Put B b X Y s types B') :
    B'.function.blocks = B.function.blocks.set b (X ++ s :: Y) := by
  refine List.ext_getElem? fun c => ?_
  by_cases hc : c < B.function.blocks.length
  · rw [Function.getElem?_blocks (h.length ▸ hc), h.block, List.getElem?_set]
    by_cases hb : c = b
    · rw [if_pos hb, if_pos hb.symm, if_pos h.bound]
    · rw [if_neg hb, if_neg (Ne.symm hb), Function.getElem?_blocks hc]
  · rw [List.getElem?_eq_none (by rw [h.length]; omega),
      List.getElem?_eq_none (by rw [List.length_set]; omega)]

theorem Put.results_perm (h : Put B b X Y s types B') :
    B'.function.results.Perm (s.results ++ B.function.results) := by
  have hget : B.function.blocks[b]? = some (X ++ Y) := by
    rw [Function.getElem?_blocks h.bound, h.old]
  unfold Function.results
  rw [h.blocks]
  exact (flatten_set_perm s hget).flatMap_right _

theorem Put.grows (h : Put B b X Y s types B') :
    (B.code signature).Grows (B'.code signature) where
  values := ⟨types, h.values.symm⟩
  imports := ⟨[], by simp [Builder.code, h.imports]⟩
  slots := by simp [Builder.code, h.slots]
  blocks := by simp [Builder.code, h.length]
  signature := rfl

theorem Put.mem (h : Put B b X Y s types B') {c : Nat} {t : Stmt} :
    t ∈ B'.function.block c ↔ (c = b ∧ t = s) ∨ t ∈ B.function.block c := by
  rw [h.block]
  split
  · rename_i hc
    subst hc
    rw [h.old]
    simp only [List.mem_append, List.mem_cons]
    tauto
  · rename_i hc
    simp [hc]

theorem Put.defines (h : Put B b X Y s types B') {d : Nat} {v : ValueId}
    (hd : B.function.Defines d v) : B'.function.Defines d v := by
  obtain ⟨t, ht, hv⟩ := hd
  exact ⟨t, h.mem.mpr (Or.inr ht), hv⟩

/-- A statement that is typed and whose operands are in reach keeps code well built. -/
theorem WellBuilt.put (h : WellBuilt p signature B doms) (hp : Put B b X Y s types B')
    (hshaped : (B'.code signature).Shaped s) (htyped : p.Consistent → (B'.code signature).Typed s)
    (hoperands : ∀ v ∈ s.inst.operands, (∃ t ∈ X, v ∈ t.results) ∨
      ∃ d, d ≠ b ∧ d ∈ doms b ∧ B.function.Defines d v)
    (htargets : ∀ t ∈ s.inst.targets, doms t ⊆ insert t (doms b))
    (htidy : Unfinished (X ++ s :: Y) ∨ Function.closed (X ++ s :: Y) = true) :
    WellBuilt p signature B' doms where
  tidy := by
    intro c
    rw [hp.block]
    split
    · exact htidy
    · exact h.tidy c
  shaped := by
    intro c t ht
    rcases hp.mem.mp ht with ⟨-, rfl⟩ | ht
    · exact hshaped
    · exact (h.shaped c t ht).mono hp.grows
  typed := by
    intro hc c t ht
    rcases hp.mem.mp ht with ⟨-, rfl⟩ | ht
    · exact htyped hc
    · exact (h.typed hc c t ht).mono hp.grows
  definedOnce := by
    refine hp.results_perm.trans ?_
    rw [hp.results, hp.values, List.length_append, List.range_eq_range',
      ← List.range'_append_1, Nat.zero_add]
    refine List.perm_append_comm.trans (List.Perm.append_right _ ?_)
    rw [← List.range_eq_range']
    exact h.definedOnce
  inScope := by
    intro c
    have hold : Function.Scoped (fun v => ∃ d, d ≠ c ∧ d ∈ doms c ∧ B'.function.Defines d v)
        (B.function.block c) :=
      (h.inScope c).mono fun v ⟨d, hne, hd, hv⟩ => ⟨d, hne, hd, hp.defines hv⟩
    rw [hp.block]
    split
    · rename_i hc
      subst hc
      rw [hp.old, Function.scoped_append] at hold
      refine Function.scoped_append.mpr ⟨hold.1, fun v hv => ?_, hold.2.mono fun v => Or.inl⟩
      rcases hoperands v hv with hX | ⟨d, hne, hd, hv⟩
      · exact Or.inr hX
      · exact Or.inl ⟨d, hne, hd, hp.defines hv⟩
    · exact hold
  dominators := by
    refine ⟨h.dominators.entry, ?_⟩
    rintro c t ⟨u, hu, ht⟩
    rcases hp.mem.mp hu with ⟨rfl, rfl⟩ | hu
    · exact htargets t ht
    · exact h.dominators.edge c t ⟨u, hu, ht⟩
  self := h.self
  imports := by
    rw [Builder.ImportsFrom, hp.imports]
    exact h.imports

/-! ## Steps that put nothing -/

/-- Code stays well built if its tables grow. -/
theorem WellBuilt.of_same (h : WellBuilt p signature B doms)
    (hblock : ∀ c, B'.function.block c = B.function.block c)
    (hgrows : (B.code signature).Grows (B'.code signature))
    (hresults : B'.function.results = B.function.results)
    (hvalues : B'.function.values = B.function.values)
    (himports : B'.ImportsFrom p) :
    WellBuilt p signature B' doms where
  tidy := by
    intro c
    rw [hblock]
    exact h.tidy c
  shaped := by
    intro c s hs
    rw [hblock] at hs
    exact (h.shaped c s hs).mono hgrows
  typed := by
    intro hc c s hs
    rw [hblock] at hs
    exact (h.typed hc c s hs).mono hgrows
  definedOnce := by
    rw [hresults, hvalues]
    exact h.definedOnce
  inScope := by
    intro c
    simp only [Function.Defines, hblock]
    exact h.inScope c
  dominators := by
    refine ⟨h.dominators.entry, ?_⟩
    rintro c t ⟨u, hu, ht⟩
    rw [hblock] at hu
    exact h.dominators.edge c t ⟨u, hu, ht⟩
  self := h.self
  imports := himports

theorem Builder.Extends.grows (h : B.Extends B') :
    (B.code signature).Grows (B'.code signature) where
  values := h.values
  imports := h.imports
  slots := h.slots.length_le
  blocks := h.length
  signature := rfl

theorem WellBuilt.withBlock (h : WellBuilt p signature B doms) :
    WellBuilt p signature B.withBlock doms :=
  h.of_same B.withBlock_block (Builder.Extends.withBlock B).grows
    (by simp [Function.results, Builder.withBlock]) rfl h.imports

theorem WellBuilt.withSlot (h : WellBuilt p signature B doms) (size : Nat) :
    WellBuilt p signature (B.withSlot size) doms :=
  h.of_same (fun _ => rfl) (Builder.Extends.withSlot B size).grows rfl rfl h.imports

theorem WellBuilt.enter (h : WellBuilt p signature B doms) (c : Nat) :
    WellBuilt p signature (B.enter c) doms :=
  h.of_same (fun _ => rfl) (Builder.Extends.enter B c).grows rfl rfl h.imports

theorem WellBuilt.before (h : WellBuilt p signature B doms) (n : Nat) :
    WellBuilt p signature (B.before n) doms :=
  h.of_same (fun _ => rfl) (Builder.Extends.before B n).grows rfl rfl h.imports

theorem WellBuilt.imported (h : WellBuilt p signature B doms) {index : Nat} {sig : Signature}
    (hs : p.signatureAt? index = some sig) :
    WellBuilt p signature (B.imported index sig).2 doms := by
  have hx := Builder.Extends.imported B index sig
  have himports := h.imports.imported hs
  obtain ⟨added, he, -⟩ := B.imported_snd index sig
  rw [he] at hx himports ⊢
  exact h.of_same (fun _ => rfl) hx.grows rfl rfl himports

/-- Blocks that do not exist yet may get any dominators. -/
theorem WellBuilt.assign (h : WellBuilt p signature B doms)
    (hd : ∀ c, c < B.function.blocks.length → doms' c = doms c) (hself : ∀ c, c ∈ doms' c)
    (hentry : 0 < B.function.blocks.length) : WellBuilt p signature B doms' where
  tidy := h.tidy
  shaped := h.shaped
  typed := h.typed
  definedOnce := h.definedOnce
  inScope := by
    intro c
    by_cases hc : c < B.function.blocks.length
    · rw [hd c hc]
      exact h.inScope c
    · rw [Function.block_eq_nil (Nat.le_of_not_lt hc)]
      trivial
  dominators := by
    refine ⟨?_, ?_⟩
    · rw [hd 0 hentry]
      exact h.dominators.entry
    · rintro b c ⟨s, hs, hc⟩
      rw [hd b (Function.block_mem hs), hd c ((h.shaped b s hs).targets c hc)]
      exact h.dominators.edge b c ⟨s, hs, hc⟩
  self := hself
  imports := h.imports

/-! ## At the end of an open block -/

/-- Code is well built, and more can be put at the end of block `b`. -/
structure At (p : Program) (signature : Signature) (doms : Nat → Set Nat) (b : Nat) (B : Builder) :
    Prop where
  built : WellBuilt p signature B doms
  cursor : B.cursor = .atEnd b
  bound : b < B.function.blocks.length
  unfinished : Unfinished (B.function.block b)

/-- There is such a value, its definition reaches the end of block `b`, and it has the type if the
    functions of the program return what they are said to return. -/
structure Has (p : Program) (B : Builder) (doms : Nat → Set Nat) (b : Nat) (v : ValueId)
    (ty : MachineType) : Prop where
  lt : v < B.function.values.length
  type : p.Consistent → B.function.values[v]? = some ty
  reach : ∃ d, d ∈ doms b ∧ B.function.Defines d v

theorem Has.mono {v : ValueId} {ty : MachineType} {b' : Nat} (h : Has p B doms b v ty)
    (hx : B.Extends B') (hd : doms b ⊆ doms' b') : Has p B' doms' b' v ty := by
  obtain ⟨d, hdb, s, hs, hv⟩ := h.reach
  exact ⟨h.lt.trans_le hx.values.length_le, fun hc => hx.getElem?_values (h.type hc), d, hd hdb, s,
    hx.mem d s hs, hv⟩

namespace At

theorem enter {c : Nat} (h : WellBuilt p signature B doms) (hc : c < B.function.blocks.length)
    (hu : Unfinished (B.function.block c)) : At p signature doms c (B.enter c) :=
  ⟨h.enter c, rfl, hc, hu⟩

theorem withSlot (h : At p signature doms b B) (size : Nat) :
    At p signature doms b (B.withSlot size) :=
  ⟨h.built.withSlot size, h.cursor, h.bound, h.unfinished⟩

theorem imported (h : At p signature doms b B) {index : Nat} {sig : Signature}
    (hs : p.signatureAt? index = some sig) :
    At p signature doms b (B.imported index sig).2 := by
  have hi := Inline.imported h.cursor index sig
  exact ⟨h.built.imported hs, hi.cursor, hi.length ▸ h.bound, hi.unfinished h.unfinished⟩

/-- The values that an instruction defines have the types it was made with. -/
theorem typesOf?_stmt (B : Builder) (inst : Inst) (types : List MachineType) :
    ((B.emitted inst types).code signature).typesOf? (B.stmt inst types).results = some types := by
  rw [Function.typesOf?_eq_some]
  change List.Forall₂ _ (List.range' B.function.values.length types.length) types
  rw [List.forall₂_iff_get]
  refine ⟨by simp, fun k hk hk' => ?_⟩
  simp [Builder.code, hk']

/-- Where a value in reach of the end of a block is defined. -/
theorem operands_reach (h : At p signature doms b B) {inst : Inst} (types : List MachineType)
    (ho : ∀ v ∈ inst.operands, ∃ ty, Has p B doms b v ty) :
    ∀ v ∈ (B.stmt inst types).inst.operands, (∃ t ∈ B.function.block b, v ∈ t.results) ∨
      ∃ d, d ≠ b ∧ d ∈ doms b ∧ B.function.Defines d v := by
  intro v hv
  obtain ⟨ty, hty⟩ := ho v hv
  obtain ⟨d, hd, hdef⟩ := hty.reach
  by_cases hdb : d = b
  · subst hdb
    exact Or.inl hdef
  · exact Or.inr ⟨d, hdb, hd, hdef⟩

/-- A new statement is typed if its instruction gives results of the types it was made with. -/
theorem typed_stmt (h : At p signature doms b B) {inst : Inst} {types : List MachineType}
    (hcall : ∀ callee args, inst ≠ .call callee args)
    (ht : (B.code signature).resultTypes? inst = some types) :
    ((B.emitted inst types).code signature).Typed (B.stmt inst types) := by
  have hg : (B.code signature).Grows ((B.emitted inst types).code signature) :=
    (Put.at_end h.cursor h.bound inst types).grows
  exact Function.typed_of_resultTypes hcall (hg.resultTypes? ht) (typesOf?_stmt B inst types)

/-- An instruction that does not end the block. -/
theorem put (h : At p signature doms b B) {inst : Inst} {types : List MachineType}
    (hi : inst.isTerminator = false)
    (hs : ((B.emitted inst types).code signature).Shaped (B.stmt inst types))
    (ht : p.Consistent → ((B.emitted inst types).code signature).Typed (B.stmt inst types))
    (ho : ∀ v ∈ inst.operands, ∃ ty, Has p B doms b v ty) :
    At p signature doms b (B.emitted inst types) := by
  have hl := Inline.emitted h.cursor h.bound inst hi types
  refine ⟨?_, h.cursor, hl.length ▸ h.bound, hl.unfinished h.unfinished⟩
  refine h.built.put (.at_end h.cursor h.bound inst types) hs ht (h.operands_reach types ho) ?_ ?_
  · intro t ht
    cases inst <;> simp_all [Builder.stmt, Inst.targets, Inst.isTerminator]
  · have hu := hl.unfinished h.unfinished
    rw [Builder.block_emitted_self B inst types h.cursor h.bound] at hu
    exact Or.inl hu

/-- An instruction that only computes. -/
theorem computed (h : At p signature doms b B) {inst : Inst} {types : List MachineType}
    (hi : inst.isInner = true) (hcall : ∀ callee args, inst ≠ .call callee args)
    (ht : p.Consistent → (B.code signature).resultTypes? inst = some types)
    (ho : ∀ v ∈ inst.operands, ∃ ty, Has p B doms b v ty) :
    At p signature doms b (B.emitted inst types) := by
  refine h.put (Inst.isTerminator_of_isInner hi) ?_ (fun hc => h.typed_stmt hcall (ht hc)) ho
  cases inst with
  | call callee args => exact absurd rfl (hcall callee args)
  | ret | jump | brif | store | load => cases hi
  | _ => trivial

/-- An instruction on a slot. -/
theorem accessed (h : At p signature doms b B) {inst : Inst} {types : List MachineType}
    (hi : inst.isTerminator = false) (hcall : ∀ callee args, inst ≠ .call callee args)
    (ht : (B.code signature).resultTypes? inst = some types)
    (ho : ∀ v ∈ inst.operands, ∃ ty, Has p B doms b v ty) :
    At p signature doms b (B.emitted inst types) :=
  have htyped := h.typed_stmt hcall ht
  h.put hi htyped.shaped (fun _ => htyped) ho

/-- A call of an import with the right number of arguments. -/
theorem call (h : At p signature doms b B) {callee : ImportId} {args : List ValueId} {i : Import}
    (hi : B.function.imports[callee]? = some i)
    (hlen : args.length = i.signature.params.length)
    (hbuiltin : p.Consistent → i.index < firstRoutineIndex →
      (B.code signature).typesOf? args = some i.signature.params)
    (ho : ∀ v ∈ args, ∃ ty, Has p B doms b v ty) :
    At p signature doms b (B.emitted (.call callee args) i.signature.results) := by
  have hg : (B.code signature).Grows
      ((B.emitted (.call callee args) i.signature.results).code signature) :=
    (Put.at_end h.cursor h.bound _ _).grows
  exact h.put rfl ⟨i, hi, hlen, typesOf?_stmt B _ _⟩ (fun hc => ⟨i, hi, hlen, typesOf?_stmt B _ _,
    fun hlt => hg.typesOf? (hbuiltin hc hlt)⟩) ho

/-- The first value of a new instruction is in reach. -/
theorem has_new (h : At p signature doms b B) (inst : Inst) {types : List MachineType}
    {ty : MachineType} (hne : types ≠ []) (hty : p.Consistent → types = [ty]) :
    Has p (B.emitted inst types) doms b B.function.values.length ty := by
  have hpos := List.length_pos_iff.mpr hne
  refine ⟨by simpa using hpos, fun hc => by simp [hty hc], b, h.built.self b, B.stmt inst types, ?_,
    by simpa [Builder.stmt] using hpos⟩
  rw [Builder.block_emitted_self B inst types h.cursor h.bound]
  exact List.mem_append_right _ (List.mem_singleton_self _)

/-- An instruction that ends the block. -/
theorem ended (h : At p signature doms b B) {inst : Inst} (hi : inst.isTerminator = true)
    (hs : ((B.emitted inst []).code signature).Shaped (B.stmt inst []))
    (ht : p.Consistent → ((B.emitted inst []).code signature).Typed (B.stmt inst []))
    (ho : ∀ v ∈ inst.operands, ∃ ty, Has p B doms b v ty)
    (htargets : ∀ t ∈ inst.targets, doms t ⊆ insert t (doms b)) :
    WellBuilt p signature (B.emitted inst []) doms :=
  h.built.put (.at_end h.cursor h.bound inst []) hs ht (h.operands_reach [] ho) htargets
    (Or.inr (Function.closed_iff.mpr ⟨_, _, rfl, h.unfinished, hi⟩))

theorem finish (h : At p signature doms b B) {inst : Inst} (hi : inst.isTerminator = true)
    (ht : (B.code signature).resultTypes? inst = some [])
    (ho : ∀ v ∈ inst.operands, ∃ ty, Has p B doms b v ty)
    (htargets : ∀ t ∈ inst.targets, doms t ⊆ insert t (doms b)) :
    WellBuilt p signature (B.emitted inst []) doms := by
  have htyped := h.typed_stmt (by rintro callee args rfl; cases hi) ht
  exact h.ended hi htyped.shaped (fun _ => htyped) ho htargets

end At

/-- A store before the instruction that ends a block. -/
theorem WellBuilt.insertStore {n : Nat} {j : Stmt} {v : ValueId} {slot : SlotId}
    (h : WellBuilt p signature B doms) (hm : B.Marks n b X j) (hX : Unfinished X)
    (hj : j.inst.isTerminator = true) (hv : v < B.function.values.length)
    (hslot : slot < B.function.slots.length)
    (hreach : (∃ t ∈ X, v ∈ t.results) ∨ ∃ d, d ≠ b ∧ d ∈ doms b ∧ B.function.Defines d v) :
    WellBuilt p signature ((B.before n).emitted (.store v slot) []) doms := by
  have hm' : (B.before n).Marks n b X j := hm.of_same fun _ => rfl
  have hp := Put.at_mark hm' rfl (.store v slot) []
  have ht : ((B.before n).code signature).resultTypes? (.store v slot) = some [] := by
    simp [Function.resultTypes?, Function.typesOf?, Inst.operands, Builder.code, hv, hslot]
  have htyped := Function.typed_of_resultTypes (s := (B.before n).stmt (.store v slot) [])
    (by simp [Builder.stmt]) (hp.grows.resultTypes? ht) (At.typesOf?_stmt _ _ [])
  refine (h.before n).put hp htyped.shaped (fun _ => htyped) ?_
    (by simp [Builder.stmt, Inst.targets]) (Or.inr ?_)
  · intro u hu
    simp only [Builder.stmt, Inst.operands, List.mem_singleton] at hu
    subst hu
    exact hreach
  · refine Function.closed_iff.mpr ⟨X ++ [(B.before n).stmt (.store v slot) []], j, by simp, ?_, hj⟩
    exact hX.append (by simp [Unfinished, Builder.stmt, Inst.isTerminator])

section Finished

variable (h : WellBuilt p signature B doms) (hsig : B.function.signature = signature)
  (hended : ∀ c, c < B.function.blocks.length → Ended (B.function.block c))
include h hsig hended

/-- Code that is well built and whose blocks are all ended is structured. -/
theorem WellBuilt.structured : B.function.Structured := by
  have hshaped : ∀ c, ∀ s ∈ B.function.block c, B.function.Shaped s := fun c s hs =>
    Builder.code_eq hsig ▸ h.shaped c s hs
  refine ⟨?_, fun b s hs => (hshaped b s hs).targets, h.definedOnce, ?_, hshaped⟩
  · intro b hb
    rcases h.tidy b with hu | hc
    · obtain ⟨s, hs, ht⟩ := hended b hb
      rw [hu s hs] at ht
      cases ht
    · exact Function.closed_iff.mp hc
  · intro b X s Y he v hv
    have hscope := h.inScope b
    rw [he] at hscope
    refine (hscope.operands hv).imp_right ?_
    rintro ⟨d, hne, hd, hdef⟩
    exact ⟨d, hne, hdef, h.dominators.dominates hd⟩

theorem WellBuilt.wellFormed (hp : p.Consistent) : B.function.WellFormed :=
  ⟨h.structured hsig hended, fun c s hs => Builder.code_eq hsig ▸ h.typed hp c s hs⟩

end Finished

end Ir

end ScalarLang
