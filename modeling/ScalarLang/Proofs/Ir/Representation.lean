import Mathlib
import ScalarLang.Proofs.Binary.Half
import ScalarLang.Proofs.Ir.Machine
import ScalarLang.Proofs.Ir.Slots
import ScalarLang.Proofs.Lower.Typed

/-
  Types of the language in running code.
  Some words of a machine type stand for no value of a type that is held in it. `Canonical` says
  which do: a boolean is 0 or 1, and a half is a single that half precision has. A function whose
  values are tagged with types keeps to this if each tagged value is made in a way that does, out
  of tagged values. Then all calls under way on the machine keep to it, at every step: a call has
  canonical values, it has stored a canonical word when it leaves for a block that loads one, and
  what it returns is canonical for the call that waits for it.
-/

namespace ScalarLang

/-- The word stands for a value of the type. Types other than booleans and halves have a value for
    every word. -/
def ScalarType.Canonical : ScalarType → Word → Prop
  | .boolean, w => w = .i8 0 ∨ w = .i8 1
  | .float16, w => ∃ x : Binary .single, w = .f32 x ∧ x.IsHalf
  | _, _ => True

theorem ScalarType.canonical_ofBool (b : Bool) : ScalarType.boolean.Canonical (.ofBool b) := by
  cases b
  · exact Or.inl rfl
  · exact Or.inr rfl

theorem ScalarType.canonical_of_ne {ty : ScalarType} (hbool : ty ≠ .boolean) (hhalf : ty ≠ .float16)
    (w : Word) : ty.Canonical w := by
  cases ty <;> trivial

theorem ScalarType.canonical_boolean_iff {w : Word} :
    ScalarType.boolean.Canonical w ↔ ∃ b, w = .ofBool b := by
  constructor
  · rintro (rfl | rfl)
    · exact ⟨false, rfl⟩
    · exact ⟨true, rfl⟩
  · rintro ⟨b, rfl⟩
    exact canonical_ofBool b

namespace Ir

/-! ## How tagged values are made -/

/-- The instructions of block `b` that make canonical words of a type out of tagged values. A load
    is fed by all blocks that lead to it; a call gives what its callee returns. -/
inductive Function.Makes (f : Function) (returns : List ScalarType) (tags : TypedValue → Prop)
    (b : BlockId) : Inst → ScalarType → Prop where
  | any {inst : Inst} {ty : ScalarType} : ty ≠ .boolean → ty ≠ .float16 →
      Makes f returns tags b inst ty
  | const {c : Constant} {w : Word} {ty : ScalarType} : c.word? = some w → ty.Canonical w →
      Makes f returns tags b (.const c) ty
  | icmp {cc : IntCC} {x y : ValueId} : Makes f returns tags b (.icmp cc x y) .boolean
  | icmpImm {cc : IntCC} {x : ValueId} {imm : Int} :
      Makes f returns tags b (.icmpImm cc x imm) .boolean
  | fcmp {cc : FloatCC} {x y : ValueId} : Makes f returns tags b (.fcmp cc x y) .boolean
  | bitwise {op : BinaryOpcode} {x y : ValueId} : op = .band ∨ op = .bor ∨ op = .bxor →
      tags ⟨x, .boolean⟩ → tags ⟨y, .boolean⟩ → Makes f returns tags b (.binary op x y) .boolean
  | negate {x : ValueId} : tags ⟨x, .float16⟩ → Makes f returns tags b (.unary .fneg x) .float16
  | round {callee : ImportId} {args : List ValueId} {i : Import} :
      f.imports[callee]? = some i → i.index = Intrinsic.roundHalf.index →
      Makes f returns tags b (.call callee args) .float16
  | call {callee : ImportId} {args : List ValueId} {i : Import} {k : Nat} {ty : ScalarType} :
      f.imports[callee]? = some i → i.index = firstRoutineIndex + k → returns[k]? = some ty →
      Makes f returns tags b (.call callee args) ty
  | load {mty : MachineType} {slot : SlotId} {ty : ScalarType} :
      (∀ d, f.Edge d b → ∃ X m n u,
        f.block d = X ++ [⟨m, [], .store u slot⟩, ⟨n, [], .jump b⟩] ∧ tags ⟨u, ty⟩) →
      Makes f returns tags b (.load mty slot) ty

/-- The function has a definition of the value that makes it so. -/
def Function.Made (f : Function) (returns : List ScalarType) (tags : TypedValue → Prop)
    (tv : TypedValue) : Prop :=
  ∃ b, ∃ s ∈ f.block b, tv.value ∈ s.results ∧ f.Makes returns tags b s.inst tv.type

/-- The function makes all tagged values so, and returns a value with the tag of its result. -/
structure Function.Tagged (f : Function) (returns : List ScalarType) (result : ScalarType)
    (tags : TypedValue → Prop) : Prop where
  wellFormed : f.WellFormed
  disciplined : f.Disciplined
  made : ∀ tv, tags tv → f.Made returns tags tv
  returned : ∀ b, ∀ s ∈ f.block b, ∀ vs, s.inst = .ret vs → ∃ v, vs = [v] ∧ tags ⟨v, result⟩

/-! ## Definitions -/

/-- A value has one definition. -/
theorem Function.WellFormed.definition_unique {f : Function} (h : f.WellFormed) {b c : BlockId}
    {s t : Stmt} {v : ValueId} (hs : s ∈ f.block b) (ht : t ∈ f.block c) (hv : v ∈ s.results)
    (hv' : v ∈ t.results) : b = c ∧ s = t := by
  have hnodup : f.results.Nodup := h.definedOnce.nodup_iff.mpr List.nodup_range
  obtain ⟨hblocks, hpairs⟩ := List.pairwise_flatten.mp (List.nodup_flatMap.mp hnodup).2
  have hb := Function.block_mem hs
  have hc := Function.block_mem ht
  have hget {d : Nat} (hd : d < f.blocks.length) : f.block d = f.blocks[d] := by
    simp [Function.block, hd]
  have hbc : b = c := by
    rw [List.pairwise_iff_getElem] at hpairs
    rcases Nat.lt_trichotomy b c with hlt | heq | hgt
    · exact absurd hv' (hpairs b c hb hc hlt s (hget hb ▸ hs) t (hget hc ▸ ht) hv)
    · exact heq
    · exact absurd hv (hpairs c b hc hb hgt t (hget hc ▸ ht) s (hget hb ▸ hs) hv')
  subst hbc
  have : Std.Symm (Function.onFun List.Disjoint fun t : Stmt => t.results) :=
    ⟨fun _ _ hd => List.Disjoint.symm hd⟩
  refine ⟨rfl, ?_⟩
  by_contra hne
  exact (hblocks _ (Function.mem_blocks_iff.mpr ⟨b, hb, rfl⟩)).forall hs ht hne hv hv'

/-- The statement that defines a tagged value makes it. -/
theorem Function.Tagged.makes {f : Function} {returns : List ScalarType} {result : ScalarType}
    {tags : TypedValue → Prop} (h : f.Tagged returns result tags) {b : BlockId} {s : Stmt}
    (hs : s ∈ f.block b) {tv : TypedValue} (htv : tags tv) (hv : tv.value ∈ s.results) :
    f.Makes returns tags b s.inst tv.type := by
  obtain ⟨c, t, ht, hv', hmakes⟩ := h.made tv htv
  obtain ⟨rfl, rfl⟩ := h.wellFormed.definition_unique hs ht hv hv'
  exact hmakes

/-- In a block that ends with a jump no other statement leads anywhere. -/
theorem Function.WellFormed.offset_of_target {f : Function} (h : f.WellFormed) {b c : BlockId}
    {k : Nat} {s last : Stmt} {X : Block} (hs : (f.block b)[k]? = some s)
    (hc : c ∈ s.inst.targets) (hblock : f.block b = X ++ [last]) : k = X.length := by
  obtain ⟨body, last', hbody, hopen, -⟩ :=
    h.terminated b (Function.block_mem (List.mem_of_getElem? hs))
  obtain ⟨rfl, -⟩ := List.append_inj' (hblock.symm.trans hbody) rfl
  have hlt : k < (f.block b).length := (List.getElem?_eq_some_iff.mp hs).1
  rw [hblock, List.length_append, List.length_singleton] at hlt
  by_contra hne
  rw [hblock, List.getElem?_append_left (by omega)] at hs
  rw [Inst.targets_eq_nil (hopen s (List.mem_of_getElem? hs))] at hc
  cases hc

/-! ## One call -/

/-- All tagged values that are there are canonical. -/
def Frame.Keeps (fr : Frame) (tags : TypedValue → Prop) : Prop :=
  ∀ tv, tags tv → ∀ w, fr.values tv.value = some w → tv.type.Canonical w

theorem Frame.setValues?_values {fr fr' : Frame} {vs : List ValueId} {ws : List Word}
    (h : fr.setValues? vs ws = some fr') {u : ValueId} {w : Word} (hu : fr'.values u = some w) :
    (u ∈ vs ∧ w ∈ ws) ∨ fr.values u = some w := by
  fun_induction fr.setValues? vs ws with
  | case1 fr =>
      rw [← Option.some.inj h] at hu
      exact Or.inr hu
  | case2 fr v vs w' ws ih =>
      rcases ih h with ⟨hv, hw⟩ | hold
      · exact Or.inl ⟨List.mem_cons_of_mem _ hv, List.mem_cons_of_mem _ hw⟩
      · simp only [Frame.setValue] at hold
        split at hold
        · rename_i hv
          rw [hv, Option.some.inj hold]
          exact Or.inl ⟨List.mem_cons_self, List.mem_cons_self⟩
        · exact Or.inr hold
  | case3 => cases h

theorem Frame.Keeps.setValues? {fr fr' : Frame} {tags : TypedValue → Prop} (h : fr.Keeps tags)
    {vs : List ValueId} {ws : List Word} (hset : fr.setValues? vs ws = some fr')
    (hnew : ∀ tv, tags tv → tv.value ∈ vs → ∀ w ∈ ws, tv.type.Canonical w) : fr'.Keeps tags := by
  intro tv htv w hw
  rcases Frame.setValues?_values hset hw with ⟨hv, hw⟩ | hold
  · exact hnew tv htv hv w hw
  · exact h tv htv w hold

theorem canonical_compareInts {cc : IntCC} {x y w : Word}
    (h : Word.compareInts cc x y = some w) : ScalarType.boolean.Canonical w := by
  unfold Word.compareInts at h
  split at h <;> cases h <;> exact ScalarType.canonical_ofBool _

theorem canonical_compareFloats {cc : FloatCC} {x y w : Word}
    (h : Word.compareFloats cc x y = some w) : ScalarType.boolean.Canonical w := by
  unfold Word.compareFloats at h
  split at h <;> cases h <;> exact ScalarType.canonical_ofBool _

theorem canonical_bitwise {op : BinaryOpcode} (hop : op = .band ∨ op = .bor ∨ op = .bxor)
    {x y w : Word} (hx : ScalarType.boolean.Canonical x) (hy : ScalarType.boolean.Canonical y)
    (h : op.apply x y = some w) : ScalarType.boolean.Canonical w := by
  rcases hop with rfl | rfl | rfl <;> rcases hx with rfl | rfl <;> rcases hy with rfl | rfl <;>
    (rw [← Option.some.inj h]; first | exact Or.inl rfl | exact Or.inr rfl)

/-- What is made out of canonical words is canonical. -/
theorem Function.Makes.compute? {f : Function} {returns : List ScalarType}
    {tags : TypedValue → Prop} {b : BlockId} {inst : Inst} {ty : ScalarType}
    (h : f.Makes returns tags b inst ty) {fr : Frame} (hfr : fr.Keeps tags) {w : Word}
    (hw : inst.compute? fr.values = some w) : ty.Canonical w := by
  cases h with
  | any hbool hhalf => exact ScalarType.canonical_of_ne hbool hhalf w
  | const hword hcanonical => exact Option.some.inj (hword.symm.trans hw) ▸ hcanonical
  | icmp =>
      simp only [Inst.compute?, Option.bind_eq_bind, Option.bind_eq_some_iff] at hw
      obtain ⟨x, -, y, -, hw⟩ := hw
      exact canonical_compareInts hw
  | icmpImm =>
      simp only [Inst.compute?, Option.bind_eq_bind, Option.bind_eq_some_iff] at hw
      obtain ⟨x, -, y, -, hw⟩ := hw
      exact canonical_compareInts hw
  | fcmp =>
      simp only [Inst.compute?, Option.bind_eq_bind, Option.bind_eq_some_iff] at hw
      obtain ⟨x, -, y, -, hw⟩ := hw
      exact canonical_compareFloats hw
  | bitwise hop hx hy =>
      simp only [Inst.compute?, Option.bind_eq_bind, Option.bind_eq_some_iff] at hw
      obtain ⟨x, hxw, y, hyw, hw⟩ := hw
      exact canonical_bitwise hop (hfr _ hx x hxw) (hfr _ hy y hyw) hw
  | negate hx =>
      simp only [Inst.compute?, Option.bind_eq_bind, Option.bind_eq_some_iff] at hw
      obtain ⟨x, hxw, hw⟩ := hw
      obtain ⟨y, rfl, hy⟩ := hfr _ hx x hxw
      exact ⟨y.neg, (Option.some.inj hw).symm, hy.neg⟩
  | round => cases hw
  | call => cases hw
  | load => cases hw

/-- A call stands at a statement of its function: tagged values are canonical, a store at the end of
    the block has been done before the jump, and what the next statement loads is canonical. -/
structure Function.Stands (f : Function) (tags : TypedValue → Prop) (b : BlockId) (k : Nat)
    (fr : Frame) : Prop where
  keeps : fr.Keeps tags
  stored : ∀ X m n u slot c, f.block b = X ++ [⟨m, [], .store u slot⟩, ⟨n, [], .jump c⟩] →
    k = X.length + 1 → fr.slots slot = fr.values u
  loads : ∀ s, (f.block b)[k]? = some s → ∀ mty slot, s.inst = .load mty slot →
    ∀ tv, tags tv → tv.value ∈ s.results → ∀ w, fr.slots slot = some w → tv.type.Canonical w

section Call

variable {f : Function} {returns : List ScalarType} {result : ScalarType}
  {tags : TypedValue → Prop} {b : BlockId} {k : Nat} {fr fr' : Frame} {s : Stmt}

/-- To the next statement of the block. -/
theorem Function.Tagged.next (h : f.Tagged returns result tags) (hs : (f.block b)[k]? = some s)
    (hkeeps : fr'.Keeps tags)
    (hstored : ∀ u slot, s.inst = .store u slot → fr'.slots slot = fr'.values u) :
    f.Stands tags b (k + 1) fr' where
  keeps := hkeeps
  stored := by
    intro X m n u slot c hblock hk
    obtain rfl : k = X.length := Nat.succ.inj hk
    rw [hblock, List.getElem?_append_right (Nat.le_refl _), Nat.sub_self] at hs
    refine hstored u slot ?_
    rw [← Option.some.inj hs]
  loads := by
    -- a load is the first statement of its block
    intro t ht mty slot hload
    obtain ⟨hlt, hget⟩ := List.getElem?_eq_some_iff.mp ht
    have hblock : f.block b = (f.block b).take (k + 1) ++ t :: (f.block b).drop (k + 2) := by
      rw [← hget, List.getElem_cons_drop, List.take_append_drop]
    have hfirst := h.disciplined.first hblock hload
    rw [List.take_eq_nil_iff] at hfirst
    rcases hfirst with hzero | hnil
    · cases hzero
    · rw [hnil] at hlt
      cases hlt

/-- To the start of a block. -/
theorem Function.Stands.goto (h : f.Stands tags b k fr) (ht : f.Tagged returns result tags)
    (hs : (f.block b)[k]? = some s) {c : BlockId} (hc : c ∈ s.inst.targets) :
    f.Stands tags c 0 fr where
  keeps := h.keeps
  stored := by
    intro X m n u slot d _ hk
    cases hk
  loads := by
    intro t hload mty slot hinst tv htv hv w hw
    have hmem := List.mem_of_getElem? hload
    have hmakes := ht.makes hmem htv hv
    rw [hinst] at hmakes
    cases hmakes with
    | any hbool hhalf => exact ScalarType.canonical_of_ne hbool hhalf w
    | load hfed =>
        obtain ⟨X, m, n, u, hblock, hu⟩ := hfed b ⟨s, List.mem_of_getElem? hs, hc⟩
        have hk : k = (X ++ [(⟨m, [], .store u slot⟩ : Stmt)]).length :=
          ht.wellFormed.offset_of_target hs hc (by rw [hblock, List.append_assoc]; rfl)
        rw [List.length_append, List.length_singleton] at hk
        rw [h.stored X m n u slot c hblock hk] at hw
        exact h.keeps _ hu w hw

/-- Where a statement leaves a call. -/
def Function.Leaves (f : Function) (result : ScalarType) (tags : TypedValue → Prop) (b : BlockId)
    (k : Nat) : Flow → Prop
  | .next fr => f.Stands tags b (k + 1) fr
  | .goto c fr => f.Stands tags c 0 fr
  | .done out => ∀ w ∈ out.results, result.Canonical w

theorem canonical_mapM {v : ValueId} {ws : List Word} (h : fr.Keeps tags) (hv : tags ⟨v, result⟩)
    (hws : [v].mapM fr.values = some ws) : ∀ w ∈ ws, result.Canonical w := by
  simp only [List.mapM_cons, List.mapM_nil, Option.bind_eq_bind, Option.bind_eq_some_iff,
    Option.pure_def, Option.some.injEq] at hws
  obtain ⟨w, hw, _, rfl, rfl⟩ := hws
  intro w' hw'
  rw [List.mem_singleton.mp hw']
  exact h _ hv w hw

/-- What a built-in routine returns for a tagged value. -/
theorem Function.Makes.builtin {callee : ImportId} {args : List ValueId} {ty : ScalarType}
    (h : f.Makes returns tags b (.call callee args) ty) {i : Import}
    (hi : f.imports[callee]? = some i) (hbuiltin : i.index < firstRoutineIndex) {ws : List Word}
    {out : Outcome} {functions : List Function} (hout : linkage functions 0 i.index ws = some out) :
    ∀ w ∈ out.results, ty.Canonical w := by
  cases h with
  | any hbool hhalf => exact fun w _ => ScalarType.canonical_of_ne hbool hhalf w
  | @round _ _ j hj hindex =>
      obtain rfl : j = i := Option.some.inj (hj.symm.trans hi)
      rw [hindex] at hout
      have hrun : Intrinsic.roundHalf.run ws = some out := hout
      unfold Intrinsic.run at hrun
      split at hrun
      · rename_i hne
        cases hne
      · rename_i x _
        rw [← Option.some.inj hrun]
        intro w hw
        rw [List.mem_singleton.mp hw]
        exact ⟨x.roundHalf, rfl, x.isHalf_roundHalf⟩
      · cases hrun
  | @call _ _ j k _ hj hindex =>
      obtain rfl : j = i := Option.some.inj (hj.symm.trans hi)
      omega

/-- What a function of the program returns for a tagged value. -/
theorem Function.Makes.returned {callee : ImportId} {args : List ValueId} {ty : ScalarType}
    (h : f.Makes returns tags b (.call callee args) ty) {i : Import}
    (hi : f.imports[callee]? = some i) (hindex : firstRoutineIndex ≤ i.index) {ws : List Word}
    (hws : ∀ ty, returns[i.index - firstRoutineIndex]? = some ty → ∀ w ∈ ws, ty.Canonical w) :
    ∀ w ∈ ws, ty.Canonical w := by
  cases h with
  | any hbool hhalf => exact fun w _ => ScalarType.canonical_of_ne hbool hhalf w
  | @round _ _ j hj hround =>
      obtain rfl : j = i := Option.some.inj (hj.symm.trans hi)
      rw [hround] at hindex
      cases hindex
      contradiction
  | @call _ _ j k _ hj hposition hty =>
      obtain rfl : j = i := Option.some.inj (hj.symm.trans hi)
      refine hws ty ?_
      rw [hposition, Nat.add_sub_cancel_left, hty]

/-- One statement, unless it calls a function of the program. -/
theorem Function.Stands.step (h : f.Stands tags b k fr) (ht : f.Tagged returns result tags)
    (hs : (f.block b)[k]? = some s) (hcall : s.callee? f = none) {functions : List Function}
    {flow : Flow} (hstep : f.step (linkage functions 0) fr s = some flow) :
    f.Leaves result tags b k flow := by
  have hmem := List.mem_of_getElem? hs
  have hmakes : ∀ tv, tags tv → tv.value ∈ s.results → f.Makes returns tags b s.inst tv.type :=
    fun _ => ht.makes hmem
  obtain ⟨number, results, inst⟩ := s
  cases inst with
  | call callee args =>
      simp only [Function.step, Option.bind_eq_bind, Option.bind_eq_some_iff, Option.pure_def,
        Option.some.injEq] at hstep
      obtain ⟨i, hi, ws, -, out, hout, fr', hset, rfl⟩ := hstep
      have hbuiltin : i.index < firstRoutineIndex := by simpa [Stmt.callee?, hi] using hcall
      have hkeeps := h.keeps.setValues? hset fun tv htv hv =>
        (hmakes tv htv hv).builtin hi hbuiltin hout
      exact ht.next hs hkeeps (by simp)
  | ret vs =>
      simp only [Function.step, Option.bind_eq_bind, Option.bind_eq_some_iff, Option.pure_def,
        Option.some.injEq] at hstep
      obtain ⟨ws, hws, rfl⟩ := hstep
      obtain ⟨v, rfl, hv⟩ := ht.returned b _ hmem vs rfl
      exact canonical_mapM h.keeps hv hws
  | jump target =>
      obtain rfl := Option.some.inj hstep
      exact h.goto ht hs (List.mem_singleton_self _)
  | brif v t e =>
      simp only [Function.step, Option.bind_eq_bind, Option.bind_eq_some_iff, Option.pure_def,
        Option.some.injEq] at hstep
      obtain ⟨w, -, truth, -, rfl⟩ := hstep
      refine h.goto ht hs ?_
      cases truth <;> simp [Inst.targets]
  | store u slot =>
      simp only [Function.step, Option.bind_eq_bind, Option.bind_eq_some_iff, Option.pure_def,
        Option.some.injEq] at hstep
      obtain ⟨w, hw, rfl⟩ := hstep
      refine ht.next hs h.keeps ?_
      rintro u' slot' ⟨⟩
      simp [Frame.setSlot, hw]
  | load mty slot =>
      simp only [Function.step, Option.bind_eq_bind, Option.bind_eq_some_iff] at hstep
      obtain ⟨w, hw, hstep⟩ := hstep
      split at hstep
      · simp only [Option.bind_eq_some_iff, Option.pure_def, Option.some.injEq] at hstep
        obtain ⟨fr', hset, rfl⟩ := hstep
        have hkeeps := h.keeps.setValues? hset fun tv htv hv w' hw' =>
          List.mem_singleton.mp hw' ▸ h.loads _ hs mty slot rfl tv htv hv w hw
        exact ht.next hs hkeeps (by simp)
      · cases hstep
  | _ =>
      simp only [Function.step, Option.bind_eq_bind, Option.bind_eq_some_iff, Option.pure_def,
        Option.some.injEq] at hstep
      obtain ⟨w, hw, fr', hset, rfl⟩ := hstep
      have hkeeps := h.keeps.setValues? hset fun tv htv hv w' hw' =>
        List.mem_singleton.mp hw' ▸ (hmakes tv htv hv).compute? h.keeps hw
      exact ht.next hs hkeeps (by simp)

/-- The return of a call of a function of the program. -/
theorem Function.Stands.resume (h : f.Stands tags b k fr) (ht : f.Tagged returns result tags)
    (hs : (f.block b)[k]? = some s) {callee : Nat} (hcall : s.callee? f = some callee)
    {out : Outcome} (hout : ∀ ty, returns[callee]? = some ty → ∀ w ∈ out.results, ty.Canonical w)
    (hset : fr.setValues? s.results out.results = some fr') (faulted : Bool) :
    f.Stands tags b (k + 1) { fr' with faulted } := by
  have hmakes : ∀ tv, tags tv → tv.value ∈ s.results → f.Makes returns tags b s.inst tv.type :=
    fun _ => ht.makes (List.mem_of_getElem? hs)
  obtain ⟨number, results, inst⟩ := s
  cases inst with
  | call callee args =>
      obtain ⟨i, hi, hcall⟩ := Option.bind_eq_some_iff.mp hcall
      split at hcall
      · rename_i hindex
        obtain rfl := Option.some.inj hcall
        have hkeeps := h.keeps.setValues? hset fun tv htv hv =>
          (hmakes tv htv hv).returned hi hindex hout
        exact ht.next hs hkeeps (by simp)
      · cases hcall
  | _ => cases hcall

end Call

/-! ## All calls under way -/

section Stack

variable (functions : List Function) (returns : List ScalarType) (tags : Nat → TypedValue → Prop)
  (entry : Nat)

/-- The call stands at a statement of its function. -/
def Activation.Sound (a : Activation) : Prop :=
  ∀ f, functions[a.position]? = some f → f.Stands (tags a.position) a.block a.offset a.frame

/-- Calls wait for each other, the first one for a call of the function at a position. The last one
    is that of the entry point. -/
def Waiting : Nat → List Activation → Prop
  | callee, [] => callee = entry
  | callee, a :: callers => a.Sound functions tags ∧
      (∃ f s, a.stmt? functions = some (f, s) ∧ s.callee? f = some callee) ∧
      Waiting a.position callers

/-- The invariant of the machine. -/
def Machine.Sound : Machine → Prop
  | .running a callers => a.Sound functions tags ∧ Waiting functions tags entry a.position callers
  | .returning out callers => ∃ position,
      (∀ ty, returns[position]? = some ty → ∀ w ∈ out.results, ty.Canonical w) ∧
        Waiting functions tags entry position callers

variable {functions returns tags entry}

theorem Activation.start_sound (position : Nat) : (start position).Sound functions tags := by
  intro f _
  refine ⟨?_, ?_, ?_⟩
  · intro tv _ w hw
    cases hw
  · intro X m n u slot c _ hk
    cases hk
  · intro s _ mty slot _ tv _ _ w hw
    cases hw

theorem Waiting.sound {callee : Nat} {callers : List Activation}
    (h : Waiting functions tags entry callee callers) : ∀ a ∈ callers, a.Sound functions tags := by
  induction callers generalizing callee with
  | nil => simp
  | cons a callers ih =>
      obtain ⟨ha, -, hrest⟩ := h
      exact List.forall_mem_cons.mpr ⟨ha, ih hrest⟩

variable (ht : ∀ (position : Nat) (f : Function), functions[position]? = some f →
  ∃ result, returns[position]? = some result ∧ f.Tagged returns result (tags position))
include ht

/-- Tagged functions keep the invariant. -/
theorem Machine.Sound.step {m m' : Machine} (h : m.Sound functions returns tags entry)
    (hstep : m.step functions = some m') : m'.Sound functions returns tags entry := by
  have hsame {position : Nat} {f : Function} {P : Function → Prop}
      (hf : functions[position]? = some f) (hP : P f) :
      ∀ g, functions[position]? = some g → P g := by
    intro g hg
    rwa [← Option.some.inj (hf.symm.trans hg)]
  cases m with
  | running a callers =>
      obtain ⟨ha, hcallers⟩ := h
      simp only [Machine.step, Option.bind_eq_bind, Option.bind_eq_some_iff] at hstep
      obtain ⟨⟨f, s⟩, hs, hstep⟩ := hstep
      obtain ⟨hf, hoffset⟩ := stmt?_eq_some hs
      obtain ⟨result, hresult, htagged⟩ := ht _ f hf
      dsimp only at hstep
      split at hstep
      · rename_i position hcall
        obtain rfl := Option.some.inj hstep
        exact ⟨Activation.start_sound position, ha, ⟨f, s, hs, hcall⟩, hcallers⟩
      · rename_i hcall
        obtain ⟨flow, hflow, hstep⟩ := Option.bind_eq_some_iff.mp hstep
        obtain rfl := Option.some.inj hstep
        have hleaves := (ha f hf).step htagged hoffset hcall hflow
        cases flow with
        | next fr => exact ⟨hsame hf hleaves, hcallers⟩
        | goto c fr => exact ⟨hsame hf hleaves, hcallers⟩
        | done out =>
            refine ⟨a.position, fun ty hty => ?_, hcallers⟩
            obtain rfl : result = ty := Option.some.inj (hresult.symm.trans hty)
            exact hleaves
  | returning out callers =>
      cases callers with
      | nil => cases hstep
      | cons a callers =>
          obtain ⟨position, hout, ha, ⟨f, s, hs, hcall⟩, hcallers⟩ := h
          obtain ⟨hf, hoffset⟩ := stmt?_eq_some hs
          obtain ⟨result, -, htagged⟩ := ht _ f hf
          simp only [Machine.step, Activation.resume?, hs, Option.bind_eq_bind, Option.bind_some,
            Option.bind_eq_some_iff, Option.pure_def, Option.some.injEq] at hstep
          obtain ⟨a', ⟨fr, hset, rfl⟩, rfl⟩ := hstep
          exact ⟨hsame hf ((ha f hf).resume htagged hoffset hcall hout hset _), hcallers⟩

/-- And so it holds whatever is reached from a call of any function. -/
theorem Machine.Reaches.sound {m : Machine}
    (h : Machine.Reaches functions (.running (.start entry) []) m) :
    m.Sound functions returns tags entry := by
  induction h with
  | refl => exact ⟨Activation.start_sound entry, rfl⟩
  | tail _ hstep ih => exact ih.step ht hstep

end Stack

/-- The calls that are under way. -/
def Machine.activations : Machine → List Activation
  | .running a callers => a :: callers
  | .returning _ callers => callers

theorem Machine.Sound.activations {functions : List Function} {returns : List ScalarType}
    {tags : Nat → TypedValue → Prop} {entry : Nat} {m : Machine}
    (h : m.Sound functions returns tags entry) : ∀ a ∈ m.activations, a.Sound functions tags := by
  cases m with
  | running a callers => exact List.forall_mem_cons.mpr ⟨h.1, h.2.sound⟩
  | returning out callers =>
      obtain ⟨position, -, hcallers⟩ := h
      exact hcallers.sound

end Ir

end ScalarLang
