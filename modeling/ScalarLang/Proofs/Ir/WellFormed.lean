import Mathlib
import ScalarLang.Ir.Check
import ScalarLang.Ir.Intrinsic
import ScalarLang.Proofs.Ir.Dominance

/-
  Well-formed code.
  A function is structured if each block ends in its only terminator, branches go to blocks that
  exist, each value is defined once and at a place that dominates its uses, and what does not depend
  on the types of operands is in order: calls have as many arguments as parameters, what is returned
  has the type of the signature. All that the check of a function can find in structured code are
  operands of the wrong types (`Structured.isValid_iff`). Code is well formed if instructions have
  operands and results of the types they ask for. Of a call of a routine that is not built in only
  the number of its arguments is asked for: the types of the arguments are what well-formed code
  may still have wrong, and all that the check can then find (`WellFormed.isValid_iff`).
-/

namespace ScalarLang.Ir

/-- Instructions that may have operands of any types while the rest of them is in order. -/
def Inst.asksTypes : Inst → Bool
  | .ret _ | .jump _ | .store _ _ | .load _ _ => false
  | _ => true

namespace Function

/-- A statement of block `d` defines the value. -/
def Defines (f : Function) (d : Nat) (v : ValueId) : Prop := ∃ s ∈ f.block d, v ∈ s.results

/-- All values that statements define, block by block. -/
def results (f : Function) : List ValueId := f.blocks.flatten.flatMap (·.results)

/-- Every operand is known or defined by an earlier statement. -/
def Scoped (known : ValueId → Prop) : Block → Prop
  | [] => True
  | s :: rest =>
    (∀ v ∈ s.inst.operands, known v) ∧ Scoped (fun v => known v ∨ v ∈ s.results) rest

/-- The operands and results of a statement have the types that its instruction asks for. The
    arguments of a call have the right number, whatever their types, unless a built-in routine is
    called. -/
def Typed (f : Function) (s : Stmt) : Prop :=
  match s.inst with
  | .call callee args => ∃ i, f.imports[callee]? = some i ∧
      args.length = i.signature.params.length ∧ f.typesOf? s.results = some i.signature.results ∧
      (i.index < firstRoutineIndex → f.typesOf? args = some i.signature.params)
  | _ => f.stmtOk s = true

/-- What a statement has in order whatever the types of its operands are. -/
def Shaped (f : Function) (s : Stmt) : Prop :=
  match s.inst with
  | .call callee args => ∃ i, f.imports[callee]? = some i ∧
      args.length = i.signature.params.length ∧ f.typesOf? s.results = some i.signature.results
  | .brif _ t e => t < f.blocks.length ∧ e < f.blocks.length
  | .ret _ | .jump _ | .store _ _ | .load _ _ => f.stmtOk s = true
  | _ => True

/-- The operands of every other instruction have the types that it asks for. -/
def OperandsTyped (f : Function) : Prop :=
  ∀ b, ∀ s ∈ f.block b, (∀ callee args, s.inst ≠ .call callee args) → f.stmtOk s = true

/-- The arguments of each call have the types of the callee's parameters. -/
def CallsTyped (f : Function) : Prop :=
  ∀ b, ∀ s ∈ f.block b, ∀ callee args i, s.inst = .call callee args →
    f.imports[callee]? = some i → f.typesOf? args = some i.signature.params

structure Structured (f : Function) : Prop where
  terminated : ∀ b, b < f.blocks.length → ∃ body last, f.block b = body ++ [last] ∧
    (∀ s ∈ body, s.inst.isTerminator = false) ∧ last.inst.isTerminator = true
  targets : ∀ b, ∀ s ∈ f.block b, ∀ t ∈ s.inst.targets, t < f.blocks.length
  definedOnce : f.results.Perm (List.range f.values.length)
  dominated : ∀ b X s Y, f.block b = X ++ s :: Y → ∀ v ∈ s.inst.operands,
    (∃ t ∈ X, v ∈ t.results) ∨ ∃ d, d ≠ b ∧ f.Defines d v ∧ f.Dominates d b
  shaped : ∀ b, ∀ s ∈ f.block b, f.Shaped s

structure WellFormed (f : Function) : Prop extends Structured f where
  typed : ∀ b, ∀ s ∈ f.block b, f.Typed s

/-! ## Ends of blocks -/

theorem closed_append (body : Block) (last : Stmt) :
    closed (body ++ [last]) = (body.all (!·.inst.isTerminator) && last.inst.isTerminator) := by
  induction body with
  | nil => rfl
  | cons s body ih =>
      cases body with
      | nil => simp [closed]
      | cons t body =>
          rw [List.cons_append, List.cons_append, closed, ← List.cons_append, ih]
          · simp [Bool.and_assoc]
          · simp

theorem closed_iff {block : Block} : closed block = true ↔ ∃ body last, block = body ++ [last] ∧
    (∀ s ∈ body, s.inst.isTerminator = false) ∧ last.inst.isTerminator = true := by
  constructor
  · intro h
    rcases List.eq_nil_or_concat block with rfl | ⟨body, last, rfl⟩
    · simp [closed] at h
    · rw [List.concat_eq_append, closed_append, Bool.and_eq_true, List.all_eq_true] at h
      exact ⟨body, last, by simp, fun s hs => by simpa using h.1 s hs, h.2⟩
  · rintro ⟨body, last, rfl, hb, hl⟩
    rw [closed_append, Bool.and_eq_true, List.all_eq_true]
    exact ⟨fun s hs => by simp [hb s hs], hl⟩

/-! ## Scopes -/

theorem Scoped.mono {known known' : ValueId → Prop} (hk : ∀ v, known v → known' v) {block : Block}
    (h : Scoped known block) : Scoped known' block := by
  induction block generalizing known known' with
  | nil => trivial
  | cons s rest ih =>
      refine ⟨fun v hv => hk v (h.1 v hv), ih (fun v hv => ?_) h.2⟩
      exact hv.imp_left (hk v)

theorem scoped_append {known : ValueId → Prop} {X Y : Block} :
    Scoped known (X ++ Y) ↔
      Scoped known X ∧ Scoped (fun v => known v ∨ ∃ t ∈ X, v ∈ t.results) Y := by
  induction X generalizing known with
  | nil => simp [Scoped]
  | cons s X ih =>
      have hor : (fun v => (known v ∨ v ∈ s.results) ∨ ∃ t ∈ X, v ∈ t.results) =
          fun v => known v ∨ ∃ t ∈ s :: X, v ∈ t.results := by
        funext v
        simp [or_assoc]
      rw [List.cons_append, Scoped, Scoped, ih, hor, and_assoc]

/-- What stands at some place of a scoped block uses what is known or was defined before. -/
theorem Scoped.operands {known : ValueId → Prop} {X Y : Block} {s : Stmt}
    (h : Scoped known (X ++ s :: Y)) {v : ValueId} (hv : v ∈ s.inst.operands) :
    (∃ t ∈ X, v ∈ t.results) ∨ known v :=
  ((scoped_append.mp h).2.1 v hv).symm

/-! ## Types -/

/-- Everything that types depend on is there in `g` as it is in `f`. -/
structure Grows (f g : Function) : Prop where
  values : f.values <+: g.values
  imports : f.imports <+: g.imports
  slots : f.slots.length ≤ g.slots.length
  blocks : f.blocks.length ≤ g.blocks.length
  signature : g.signature = f.signature

theorem getElem?_of_isPrefix {α : Type} {xs ys : List α} (h : xs <+: ys) {k : Nat} {x : α}
    (hx : xs[k]? = some x) : ys[k]? = some x := by
  obtain ⟨zs, rfl⟩ := h
  obtain ⟨hk, -⟩ := List.getElem?_eq_some_iff.mp hx
  rw [List.getElem?_append_left hk, hx]

variable {f g : Function}

theorem typesOf?_eq_some {vs : List ValueId} {types : List MachineType} :
    f.typesOf? vs = some types ↔ List.Forall₂ (fun v ty => f.values[v]? = some ty) vs types := by
  unfold typesOf?
  induction vs generalizing types with
  | nil => simp [eq_comm]
  | cons v vs ih => cases types <;> simp [List.mapM_cons, ← ih, Option.bind_eq_some_iff]

theorem Grows.typesOf? (h : f.Grows g) {vs : List ValueId} {types : List MachineType}
    (ht : f.typesOf? vs = some types) : g.typesOf? vs = some types := by
  rw [typesOf?_eq_some] at ht ⊢
  exact ht.imp fun _ _ hv => getElem?_of_isPrefix h.values hv

theorem Grows.resultTypes? (h : f.Grows g) {inst : Inst} {types : List MachineType}
    (ht : f.resultTypes? inst = some types) : g.resultTypes? inst = some types := by
  simp only [Function.resultTypes?, Option.bind_eq_bind, Option.bind_eq_some_iff] at ht ⊢
  obtain ⟨ts, hts, hm⟩ := ht
  refine ⟨ts, h.typesOf? hts, ?_⟩
  -- only these instructions look at more than the types of their operands
  split at hm
  case h_10 callee _ _ =>
    split at hm
    · rename_i i hi
      rw [getElem?_of_isPrefix h.imports hi]
      exact hm
    · cases hm
  case h_11 => rwa [h.signature]
  case h_12 =>
    split at hm
    · rename_i hlt
      rwa [if_pos (Nat.lt_of_lt_of_le hlt h.blocks)]
    · cases hm
  case h_13 =>
    split at hm
    · rename_i hlt
      rwa [if_pos ⟨hlt.1, Nat.lt_of_lt_of_le hlt.2.1 h.blocks,
        Nat.lt_of_lt_of_le hlt.2.2 h.blocks⟩]
    · cases hm
  case h_14 =>
    split at hm
    · rename_i hlt
      rwa [if_pos (Nat.lt_of_lt_of_le hlt h.slots)]
    · cases hm
  case h_15 =>
    split at hm
    · rename_i hlt
      rwa [if_pos (Nat.lt_of_lt_of_le hlt h.slots)]
    · cases hm
  all_goals exact hm

theorem stmtOk_iff {s : Stmt} : f.stmtOk s = true ↔
    ∃ types, f.resultTypes? s.inst = some types ∧ f.typesOf? s.results = some types := by
  unfold stmtOk
  cases f.resultTypes? s.inst <;> simp

theorem Grows.stmtOk (h : f.Grows g) {s : Stmt} (hok : f.stmtOk s = true) : g.stmtOk s = true := by
  obtain ⟨types, h₁, h₂⟩ := stmtOk_iff.mp hok
  exact stmtOk_iff.mpr ⟨types, h.resultTypes? h₁, h.typesOf? h₂⟩

theorem Typed.mono (h : f.Grows g) {s : Stmt} (ht : f.Typed s) : g.Typed s := by
  unfold Typed at ht ⊢
  split at ht
  · obtain ⟨i, hi, hargs, hres, hbuiltin⟩ := ht
    exact ⟨i, getElem?_of_isPrefix h.imports hi, hargs, h.typesOf? hres,
      fun hlt => h.typesOf? (hbuiltin hlt)⟩
  · exact h.stmtOk ht

theorem Shaped.mono (h : f.Grows g) {s : Stmt} (hs : f.Shaped s) : g.Shaped s := by
  unfold Shaped at hs ⊢
  split at hs
  · obtain ⟨i, hi, hargs, hres⟩ := hs
    exact ⟨i, getElem?_of_isPrefix h.imports hi, hargs, h.typesOf? hres⟩
  · exact ⟨hs.1.trans_le h.blocks, hs.2.trans_le h.blocks⟩
  · exact h.stmtOk hs
  · exact h.stmtOk hs
  · exact h.stmtOk hs
  · exact h.stmtOk hs
  · trivial

/-- A statement that is no call is typed if its instruction takes its operands and gives results
    of the types of the statement's results. -/
theorem typed_of_resultTypes {s : Stmt} {types : List MachineType}
    (hcall : ∀ callee args, s.inst ≠ .call callee args) (h : f.resultTypes? s.inst = some types)
    (hres : f.typesOf? s.results = some types) : f.Typed s := by
  unfold Typed
  split
  · rename_i callee args hi
    exact absurd hi (hcall callee args)
  · exact stmtOk_iff.mpr ⟨types, h, hres⟩

theorem Typed.shaped {s : Stmt} (h : f.Typed s) : f.Shaped s := by
  unfold Typed at h
  unfold Shaped
  split at h
  · rename_i hs
    rw [hs]
    obtain ⟨i, hi, hargs, hres, -⟩ := h
    exact ⟨i, hi, hargs, hres⟩
  · rename_i hcall
    split
    · rename_i callee args hs
      exact absurd hs (hcall callee args)
    · rename_i c t e hs
      obtain ⟨types, hr, -⟩ := stmtOk_iff.mp h
      rw [hs] at hr
      simp only [Function.resultTypes?, Option.bind_eq_bind, Option.bind_eq_some_iff] at hr
      obtain ⟨ts, -, hm⟩ := hr
      split at hm <;> simp_all
    · exact h
    · exact h
    · exact h
    · exact h
    · trivial

theorem Shaped.targets {s : Stmt} (h : f.Shaped s) : ∀ t ∈ s.inst.targets, t < f.blocks.length := by
  intro t ht
  cases hs : s.inst with
  | jump target =>
      simp only [Shaped, hs] at h
      obtain ⟨types, hr, -⟩ := stmtOk_iff.mp h
      rw [hs] at hr ht
      simp only [Inst.targets, List.mem_singleton] at ht
      subst ht
      by_contra hlt
      simp [Function.resultTypes?, Function.typesOf?, Inst.operands, if_neg hlt] at hr
  | brif c x y =>
      simp only [Shaped, hs] at h
      rw [hs] at ht
      simp only [Inst.targets, List.mem_cons, List.not_mem_nil, or_false] at ht
      rcases ht with rfl | rfl
      · exact h.1
      · exact h.2
  | _ =>
      rw [hs] at ht
      simp [Inst.targets] at ht

/-- What is returned has the types of the signature. -/
theorem Shaped.typesOf?_ret {s : Stmt} (h : f.Shaped s) {vs : List ValueId}
    (hret : s.inst = .ret vs) : f.typesOf? vs = some f.signature.results := by
  simp only [Shaped, hret] at h
  obtain ⟨types, hr, -⟩ := stmtOk_iff.mp h
  rw [hret] at hr
  simp only [Function.resultTypes?, Inst.operands, Option.bind_eq_bind,
    Option.bind_eq_some_iff] at hr
  obtain ⟨ts, hts, hm⟩ := hr
  split at hm
  · rename_i he
    rw [hts, he]
  · cases hm

theorem Shaped.stmtOk {s : Stmt} (h : f.Shaped s) (hs : s.inst.asksTypes = false) :
    f.stmtOk s = true := by
  unfold Shaped at h
  split at h
  all_goals first | exact h | simp_all [Inst.asksTypes]

/-! ## The check of a function -/

/-- A typed call passes if its arguments have the types of the parameters. -/
theorem stmtOk_call {s : Stmt} {callee : ImportId} {args : List ValueId} {i : Import}
    (hs : s.inst = .call callee args) (hi : f.imports[callee]? = some i)
    (hres : f.typesOf? s.results = some i.signature.results) :
    f.stmtOk s = true ↔ f.typesOf? args = some i.signature.params := by
  rw [stmtOk_iff, hs]
  simp only [Function.resultTypes?, Inst.operands, hi, Option.bind_eq_bind, Option.bind_eq_some_iff]
  constructor
  · rintro ⟨types, ⟨ts, hts, hm⟩, -⟩
    split at hm
    · rename_i heq
      rw [hts, heq]
    · cases hm
  · intro h
    exact ⟨_, ⟨_, h, if_pos rfl⟩, hres⟩

/-- The check of structured code comes down to its statements. -/
theorem Structured.isValid_iff_stmtOk (h : f.Structured) :
    f.isValid = true ↔ ∀ b, ∀ s ∈ f.block b, f.stmtOk s = true := by
  unfold isValid
  rw [List.all_eq_true]
  constructor
  · intro hv b s hs
    have hb := hv (f.block b) (mem_blocks_iff.mpr ⟨b, block_mem hs, rfl⟩)
    rw [Bool.and_eq_true, List.all_eq_true] at hb
    exact hb.2 s hs
  · intro hok block hblock
    obtain ⟨b, hb, rfl⟩ := mem_blocks_iff.mp hblock
    rw [Bool.and_eq_true, List.all_eq_true]
    exact ⟨closed_iff.mpr (h.terminated b hb), hok b⟩

/-- All that the check can find in structured code are operands of the wrong types. -/
theorem Structured.isValid_iff (h : f.Structured) :
    f.isValid = true ↔ f.CallsTyped ∧ f.OperandsTyped := by
  rw [h.isValid_iff_stmtOk]
  constructor
  · intro hok
    refine ⟨?_, fun b s hs _ => hok b s hs⟩
    intro b s hs callee args i hcall hi
    have hshaped := h.shaped b s hs
    simp only [Shaped, hcall] at hshaped
    obtain ⟨i', hi', -, hres⟩ := hshaped
    obtain rfl : i' = i := Option.some.inj (hi'.symm.trans hi)
    exact (stmtOk_call hcall hi hres).mp (hok b s hs)
  · rintro ⟨hcalls, hoperands⟩ b s hs
    cases hcall : s.inst with
    | call callee args =>
        have hshaped := h.shaped b s hs
        simp only [Shaped, hcall] at hshaped
        obtain ⟨i, hi, -, hres⟩ := hshaped
        exact (stmtOk_call hcall hi hres).mpr (hcalls b s hs callee args i hcall hi)
    | _ => exact hoperands b s hs (by simp [hcall])

theorem WellFormed.operandsTyped (h : f.WellFormed) : f.OperandsTyped := by
  intro b s hs hcall
  have ht := h.typed b s hs
  unfold Typed at ht
  split at ht
  · rename_i callee args hinst
    exact absurd hinst (hcall callee args)
  · exact ht

/-- All that the check can find in well-formed code are arguments of the wrong type. -/
theorem WellFormed.isValid_iff (h : f.WellFormed) : f.isValid = true ↔ f.CallsTyped := by
  rw [h.toStructured.isValid_iff]
  exact and_iff_left h.operandsTyped

end Function

end ScalarLang.Ir
