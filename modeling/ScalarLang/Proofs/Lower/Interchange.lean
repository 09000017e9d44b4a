import Mathlib
import ScalarLang.Proofs.Ir.Twin
import ScalarLang.Proofs.Lower.Forms
import ScalarLang.Proofs.Lower.Simulation

/-
  The forms of conditionals have no part in what runs come to.
  Switched trees are lowered to code that differs in its slots and in the store that parks a test.
  The value of an arm is handed over in some slot in both, from the last store before the join to
  the load there, and what is in a slot otherwise is never read. So runs that are started alike come
  to the same outcome. The one thing to see to is a parked test without a value, which stops one run
  at the store and the other one where the truth of the test is computed.
-/

namespace ScalarLang

namespace Ir

variable {link : Linkage} {f g : Function} {B B' E : Builder} {b : Nat}

/-! ## Stages of a conditional on twins -/

namespace Twin

theorem withBlock (h : Twin B B') : Twin B.withBlock B'.withBlock where
  values := h.values
  imports := h.imports
  length := by simp [h.length]
  cursor := h.cursor
  code := fun inst results hasks => by
    rw [Builder.contains_withBlock, Builder.contains_withBlock, h.code inst results hasks]

theorem withSlotLeft (h : Twin B B') (size : Nat) : Twin (B.withSlot size) B' :=
  ⟨h.values, h.imports, h.length, h.cursor, h.code⟩

theorem opened (h : Twin B B') : Twin B.opened B'.opened := by
  have hjump := h.withBlock.withBlock.withBlock.withBlock.emitted
    (.jump B.function.blocks.length) (.jump B'.function.blocks.length) [] rfl rfl
  have henter := hjump.enter B.function.blocks.length
  rw [← h.length] at henter
  rwa [Builder.opened, Builder.opened, ← h.length]

theorem branched (h : Twin B B') (hc : B.cursor = .atEnd b) (hb : b < B.function.blocks.length)
    (condition : ValueId) (first : Nat) :
    Twin (B.branched condition first) (B'.branched condition first) :=
  (h.emitted_at hc hb _ []).enter _

/-- A store may be there or not. -/
theorem storedLeft (h : Twin B B') (v : ValueId) (slot : SlotId) :
    Twin (B.emitted (.store v slot) []) B' where
  values := by simp [h.values]
  imports := h.imports
  length := by simpa using h.length
  cursor := h.cursor
  code := fun inst results hasks => by
    rw [B.contains_emitted _ [] rfl hasks, h.code inst results hasks]

theorem symm (h : Twin B B') : Twin B' B :=
  ⟨h.values.symm, h.imports.symm, h.length.symm, h.cursor.symm, fun inst results hasks =>
    (h.code inst results hasks).symm⟩

theorem stored (h : Twin B B') (parked parked' : Option SlotId) (v : ValueId) :
    Twin (B.stored parked v) (B'.stored parked' v) := by
  cases parked with
  | none =>
      cases parked' with
      | none => exact h
      | some slot' => exact (h.symm.storedLeft v slot').symm
  | some slot =>
      cases parked' with
      | none => exact h.storedLeft v slot
      | some slot' => exact h.emitted _ _ [] rfl rfl

theorem left (h : Twin B B') (parked parked' : Option SlotId) (v : ValueId) (join : Nat) :
    Twin (B.left parked v join) (B'.left parked' v join) :=
  (h.stored parked parked' v).emitted _ _ [] rfl rfl

theorem joined {C C' : Builder} (h : Twin C C') (A A' : Builder) (parked parked' : Option SlotId)
    (size : Nat) (u w : ValueId) (join : Nat) :
    Twin ((A.joined C parked size u w join).2.enter join)
      ((A'.joined C' parked' size u w join).2.enter join) := by
  have hleft := h.left parked parked' w join
  have hvalues (B : Builder) (parked : Option SlotId) (n n' : Nat) :
      (B.met parked size u w n n').2.function.values = B.function.values := by
    cases parked <;> simp [Builder.met, Builder.inserted]
  have hcode (B : Builder) (parked : Option SlotId) (n n' : Nat) {inst : Inst}
      {results : List ValueId} (hasks : inst.asksTypes = true) :
      (B.met parked size u w n n').2.function.Contains inst results ↔
        B.function.Contains inst results := by
    cases parked with
    | some slot => rfl
    | none =>
        exact (Builder.contains_emitted _ _ [] rfl hasks).trans
          (Builder.contains_emitted _ _ [] rfl hasks)
  refine ⟨?_, ?_, ?_, rfl, fun inst results hasks => ?_⟩
  · exact (hvalues _ _ _ _).trans (hleft.values.trans (hvalues _ _ _ _).symm)
  · exact (Lower.met_imports _ _ _ _ _ _ _).trans
      (hleft.imports.trans (Lower.met_imports _ _ _ _ _ _ _).symm)
  · exact (Builder.met_length _ _ _ _ _ _ _).trans
      (hleft.length.trans (Builder.met_length _ _ _ _ _ _ _).symm)
  · exact (hcode _ _ _ _ hasks).trans
      ((hleft.code inst results hasks).trans (hcode _ _ _ _ hasks).symm)

end Twin

/-! ## Values that code needs -/

namespace Needs

variable {X : Block} {v n : ValueId} {k : Nat}

theorem brif {t e : BlockId} : Needs link f (⟨k, [], .brif v t e⟩ :: X) v := by
  intro fuel fr hv
  simp [Function.resume, Function.runBlock, Function.step, hv]

theorem icmpImm {cc : IntCC} {imm : Int} {results : List ValueId} :
    Needs link f (⟨k, results, .icmpImm cc v imm⟩ :: X) v := by
  intro fuel fr hv
  simp [Function.resume, Function.runBlock, Function.step, Inst.compute?, hv]

theorem fcmp {cc : FloatCC} {other : ValueId} {results : List ValueId} :
    Needs link f (⟨k, results, .fcmp cc v other⟩ :: X) v := by
  intro fuel fr hv
  simp [Function.resume, Function.runBlock, Function.step, Inst.compute?, hv]

/-- A constant is another value. -/
theorem const {c : Constant} (h : Needs link f X v) (hn : v ≠ n) :
    Needs link f (⟨k, [n], .const c⟩ :: X) v := by
  intro fuel fr hv
  cases hw : c.word? with
  | none => simp [Function.resume, Function.runBlock, Function.step, Inst.compute?, hw]
  | some w =>
      have hrest := h fuel (fr.setValue n w) (by simpa [Frame.setValue, hn] using hv)
      simpa [Function.resume, Function.runBlock, Function.step, Inst.compute?, Frame.setValues?, hw]
        using hrest

/-- The truth of a value is computed from the value. -/
theorem boolify {ty : ScalarType} {impl : UnaryImpl} (himpl : ty.unaryImpl? .boolify = some impl)
    (hc : B.cursor = .atEnd b) (hb : b < B.function.blocks.length)
    (hv : v < B.function.values.length) (hf : Covers f B b (impl.code v B).2)
    (h : Needs link f (f.rest (impl.code v B).2 b) (impl.code v B).1) :
    Needs link f (f.rest B b) v := by
  have hprefix := hf.block b (Or.inl rfl)
  have hcases : impl = .identity ∨ impl = .intTruthy ∨ impl = .floatTruthy := by
    cases ty <;> cases himpl <;> simp
  rcases hcases with rfl | rfl | rfl
  · exact h
  · have hcode : (UnaryImpl.intTruthy.code v B).2 = B.emitted (.icmpImm .ne v 0) [.i8] := rfl
    rw [hcode] at hprefix
    rw [Function.rest_append (B.block_emitted_self _ _ hc hb) hprefix]
    exact icmpImm
  · obtain ⟨c, hcode⟩ : ∃ c : Constant, (UnaryImpl.floatTruthy.code v B).2 =
        (B.emitted (.const c) [c.type]).emitted
          (.fcmp .one v B.function.values.length) [.i8] := ⟨_, rfl⟩
    have hb' : b < (B.emitted (.const c) [c.type]).function.blocks.length := by simpa using hb
    have hsecond := Builder.block_emitted_self (B.emitted (.const c) [c.type])
      (.fcmp .one v B.function.values.length) [.i8] hc hb'
    rw [hcode] at hprefix
    have hfirst : (B.emitted (.const c) [c.type]).function.block b <+: f.block b := by
      rw [hsecond] at hprefix
      exact (List.prefix_append _ _).trans hprefix
    rw [Function.rest_append (B.block_emitted_self _ _ hc hb) hfirst,
      Function.rest_append hsecond hprefix]
    exact fcmp.const (Nat.ne_of_lt hv)

end Needs

/-! ## The code of a conditional in a finished function -/

namespace Layout

variable {T P D A C : Builder} {parked : Option SlotId} {condition u w : ValueId}
  {testEnd thenEnd elseEnd : Nat}
  (L : Layout B b T P D A C parked condition u w testEnd thenEnd elseEnd) (size : Nat)
include L

/-- The function covers the conditional up to its join, and the value is read back first there. -/
theorem covers_joined {ty : MachineType} {slot : SlotId}
    (hf : Covers f B b (((A.joined C parked size u w (B.function.blocks.length + 3)).2.enter
      (B.function.blocks.length + 3)).emitted (.load ty slot) [ty])) :
    Covers f B b (A.joined C parked size u w (B.function.blocks.length + 3)).2 ∧
      ∃ n, f.block (B.function.blocks.length + 3) =
        ⟨n, [(A.joined C parked size u w (B.function.blocks.length + 3)).2.function.values.length],
          .load ty slot⟩ ::
        f.rest (((A.joined C parked size u w (B.function.blocks.length + 3)).2.enter
          (B.function.blocks.length + 3)).emitted (.load ty slot) [ty])
          (B.function.blocks.length + 3) := by
  have hlen := L.lengths
  have hempty := L.block_join size
  have hjoin : B.function.blocks.length + 3 < (A.joined C parked size u w
      (B.function.blocks.length + 3)).2.function.blocks.length := by
    rw [L.joined_length]
    omega
  generalize (A.joined C parked size u w (B.function.blocks.length + 3)).2 = M at *
  have hload := Inline.emitted (B := M.enter (B.function.blocks.length + 3)) rfl hjoin
    (.load ty slot) rfl [ty]
  have hrest := Function.rest_append
    (Builder.block_emitted_self (M.enter (B.function.blocks.length + 3)) (.load ty slot) [ty] rfl
      hjoin) (hf.block _ (Or.inr (Nat.le_add_right _ 3)))
  rw [Function.rest_of_nil (B := M.enter (B.function.blocks.length + 3)) hempty] at hrest
  exact ⟨hf.init ((Builder.Extends.enter _ _).trans hload.grown.toExtends)
    hload.grown.block_isPrefix, _, hrest⟩

variable (hf : Covers f B b (A.joined C parked size u w (B.function.blocks.length + 3)).2)
include hf

theorem rest_start : ∃ n Y,
    f.rest B b = ⟨n, [], .jump B.function.blocks.length⟩ :: Y := by
  have hblock := Builder.block_opened L.cursor L.bound b
  rw [if_pos rfl] at hblock
  exact ⟨_, _, Function.rest_append hblock (((L.grown_opened_joined size).block_isPrefix b).trans
    (hf.block b (Or.inl rfl)))⟩

theorem rest_decided : ∃ n Y, f.rest D testEnd = ⟨n, [], .brif condition
    (B.function.blocks.length + 1) (B.function.blocks.length + 2)⟩ :: Y := by
  have hblock : (D.branched condition B.function.blocks.length).function.block testEnd =
      D.function.block testEnd ++ [_] :=
    Builder.block_emitted_self D _ [] L.decided.cursor L.ends.2.1
  have hend := L.ends.1
  have hX := (L.grown_branched_joined size).block_isPrefix testEnd
  exact ⟨_, _, Function.rest_append hblock (hX.trans (hf.block testEnd (by omega)))⟩

theorem rest_thenEnd : ∃ m n Y, f.rest A thenEnd =
    ⟨m, [], .store u (A.joined C parked size u w (B.function.blocks.length + 3)).1⟩ ::
      ⟨n, [], .jump (B.function.blocks.length + 3)⟩ :: Y := by
  obtain ⟨m, n, hblock⟩ := L.block_thenEnd size
  have hends := L.ends
  have hlen := L.lengths
  exact ⟨m, n, _, Function.rest_append hblock (hf.block thenEnd (by omega))⟩

theorem rest_elseEnd : ∃ m n Y, f.rest C elseEnd =
    ⟨m, [], .store w (A.joined C parked size u w (B.function.blocks.length + 3)).1⟩ ::
      ⟨n, [], .jump (B.function.blocks.length + 3)⟩ :: Y := by
  obtain ⟨m, n, hblock⟩ := L.block_elseEnd size
  have hends := L.ends
  have hlen := L.lengths
  exact ⟨m, n, _, Function.rest_append hblock (hf.block elseEnd (by omega))⟩

end Layout

/-- Conditionals agree if their stages and what follows them do. -/
theorem Layout.agree {T T' P P' D D' A A' C C' : Builder} {parked parked' : Option SlotId}
    {condition u w : ValueId} {testEnd thenEnd elseEnd : Nat} {size : Nat} {ty : MachineType}
    (L : Layout B b T P D A C parked condition u w testEnd thenEnd elseEnd)
    (L' : Layout B' b T' P' D' A' C' parked' condition u w testEnd thenEnd elseEnd)
    (hB : Twin B B') (hC : Twin C C')
    (himports : g.imports = f.imports) (hlength : g.blocks.length = f.blocks.length)
    (hf : Covers f B b (((A.joined C parked size u w (B.function.blocks.length + 3)).2.enter
      (B.function.blocks.length + 3)).emitted
      (.load ty (A.joined C parked size u w (B.function.blocks.length + 3)).1) [ty]))
    (hg : Covers g B' b (((A'.joined C' parked' size u w (B'.function.blocks.length + 3)).2.enter
      (B'.function.blocks.length + 3)).emitted
      (.load ty (A'.joined C' parked' size u w (B'.function.blocks.length + 3)).1) [ty]))
    (htest : Agree link f g (f.rest D testEnd) (g.rest D' testEnd) →
      Agree link f g (f.rest B.opened B.function.blocks.length)
        (g.rest B'.opened B'.function.blocks.length))
    (hthen : Agree link f g (f.rest A thenEnd) (g.rest A' thenEnd) →
      Agree link f g (f.block (B.function.blocks.length + 1))
        (g.block (B.function.blocks.length + 1)))
    (helse : Agree link f g (f.rest C elseEnd) (g.rest C' elseEnd) →
      Agree link f g (f.block (B.function.blocks.length + 2))
        (g.block (B.function.blocks.length + 2)))
    (h : Agree link f g
      (f.rest (((A.joined C parked size u w (B.function.blocks.length + 3)).2.enter
        (B.function.blocks.length + 3)).emitted
        (.load ty (A.joined C parked size u w (B.function.blocks.length + 3)).1) [ty])
        (B.function.blocks.length + 3))
      (g.rest (((A'.joined C' parked' size u w (B'.function.blocks.length + 3)).2.enter
        (B'.function.blocks.length + 3)).emitted
        (.load ty (A'.joined C' parked' size u w (B'.function.blocks.length + 3)).1) [ty])
        (B.function.blocks.length + 3))) :
    Agree link f g (f.rest B b) (g.rest B' b) := by
  obtain ⟨hfM, k, hfload⟩ := L.covers_joined size hf
  obtain ⟨hgM, k', hgload⟩ := L'.covers_joined size hg
  have hvalues := (hC.joined A A' parked parked' size u w
    (B.function.blocks.length + 3)).values
  simp only [Builder.enter_function] at hvalues
  rw [hB.length] at hgload
  rw [hvalues] at hgload
  rw [hB.length] at h
  -- the arms hand their value over to the join
  have hthenEnd : Agree link f g (f.rest A thenEnd) (g.rest A' thenEnd) := by
    obtain ⟨m, n, X, hX⟩ := L.rest_thenEnd size hfM
    obtain ⟨m', n', Y, hY⟩ := L'.rest_thenEnd size hgM
    rw [hX, hY, hB.length]
    exact .handOver hlength hfload hgload h
  have helseEnd : Agree link f g (f.rest C elseEnd) (g.rest C' elseEnd) := by
    obtain ⟨m, n, X, hX⟩ := L.rest_elseEnd size hfM
    obtain ⟨m', n', Y, hY⟩ := L'.rest_elseEnd size hgM
    rw [hX, hY, hB.length]
    exact .handOver hlength hfload hgload h
  -- the branch after the test goes to an arm
  have hbranch : Agree link f g (f.rest D testEnd) (g.rest D' testEnd) := by
    obtain ⟨n, X, hX⟩ := L.rest_decided size hfM
    obtain ⟨n', Y, hY⟩ := L'.rest_decided size hgM
    rw [hX, hY, hB.length]
    refine .leave himports hlength rfl rfl rfl rfl fun c hc => ?_
    simp only [Inst.targets, List.mem_cons, List.not_mem_nil, or_false] at hc
    rcases hc with rfl | rfl
    · exact hthen hthenEnd
    · exact helse helseEnd
  obtain ⟨n, X, hX⟩ := L.rest_start size hfM
  obtain ⟨n', Y, hY⟩ := L'.rest_start size hgM
  have hstart := htest hbranch
  rw [Function.rest_of_nil (L.block_opened (Nat.le_refl _)),
    Function.rest_of_nil (L'.block_opened (Nat.le_refl _)), hB.length] at hstart
  rw [hX, hY, hB.length]
  refine .leave himports hlength rfl rfl rfl rfl fun c hc => ?_
  obtain rfl : c = B.function.blocks.length := by simpa [Inst.targets] using hc
  exact hstart

end Ir

/-! ## Lowering side by side -/

namespace Lower

open Ir (Builder Function Twin Abreast Agree Needs At Covers Layout)

variable {α β : Type} {p q : Program} {link : Ir.Linkage} {f g : Function}
  {B B' T T' P P' D D' : Builder} {b : Nat} {t : TypedValue} {form form' : ConditionalForm}
  {parked parked' : Option Ir.SlotId}

/-- In builders that are twins the steps give the same and make code that agrees. -/
def Mirrors (p : Program) (link : Ir.Linkage) (x x' : Lower α) : Prop :=
  ∀ (signature : Signature) (doms : Nat → Set Nat) (B E B' E' : Builder) (b : Nat) (a a' : α),
    Builds x B a E → Builds x' B' a' E' → At p signature doms b B → Twin B B' → B.Numbered →
    B'.Numbered → a' = a ∧ ∃ e, Abreast link b B E B' E' e

theorem Mirrors.bind {x x' : Lower α} {f f' : α → Lower β}
    {Good : Program → Builder → (Nat → Set Nat) → Nat → α → Prop} (hx : Mirrors p link x x')
    (hs : Sound p x Good) (hf : ∀ a, Mirrors p link (f a) (f' a)) :
    Mirrors p link (x >>= f) (x' >>= f') := by
  intro signature doms B E B' E' b c c' h h' hat hB hn hn'
  obtain ⟨a, M, h₁, h₂⟩ := h.bind
  obtain ⟨a', M', h₁', h₂'⟩ := h'.bind
  obtain ⟨rfl, m, hM⟩ := hx signature doms B M B' M' b a a' h₁ h₁' hat hB hn hn'
  obtain ⟨doms', m', hland, -⟩ := hs signature doms B b a' M h₁ hn hat
  obtain rfl := atEnd_inj hland.state.cursor hM.region.cursor
  obtain ⟨rfl, e, hE⟩ := hf a' signature doms' M E M' E' m c c' h₂ h₂' hland.state hM.twin
    (hM.region.grown.numbered hn) (hM.region'.grown.numbered hn')
  exact ⟨rfl, e, hM.trans hE⟩

theorem Mirrors.pure (a : α) : Mirrors p link (pure a : Lower α) (Pure.pure a) := by
  intro signature doms B E B' E' b c c' h h' hat hB _ _
  obtain ⟨rfl, rfl⟩ := h.pure
  obtain ⟨rfl, rfl⟩ := h'.pure
  exact ⟨rfl, b, .refl hB hat.cursor hat.bound⟩

theorem Mirrors.build {x : Ir.Build α} (h : Ir.Build.Matches link x) :
    Mirrors p link (Lower.build x) (Lower.build x) := by
  intro signature doms B E B' E' b a a' hx hx' hat hB _ _
  obtain ⟨rfl, rfl⟩ := hx.build
  obtain ⟨rfl, rfl⟩ := hx'.build
  obtain ⟨hresult, habreast⟩ := h B B' b hB hat.cursor hat.bound
  exact ⟨hresult, b, habreast⟩

/-! ## Tests -/

theorem parkTest_twin (h : Builds (parkTest form t) T parked P)
    (h' : Builds (parkTest form' t) T' parked' P') (hT : Twin T T') : Twin P P' := by
  rcases h.parkTest with ⟨-, rfl⟩ | ⟨-, rfl⟩ <;> rcases h'.parkTest with ⟨-, rfl⟩ | ⟨-, rfl⟩
  · exact hT
  · exact ((hT.symm.withSlotLeft widestSlot).storedLeft _ _).symm
  · exact (hT.withSlotLeft widestSlot).storedLeft _ _
  · exact ((hT.withSlotLeft widestSlot).symm.withSlotLeft widestSlot).symm.emitted _ _ [] rfl rfl

/-- The store that parks a test comes first, if there is one. -/
theorem parkTest_rest (h : Builds (parkTest form t) T parked P) (hc : T.cursor = .atEnd b)
    (hb : b < T.function.blocks.length) (hf : P.function.block b <+: f.block b) :
    f.rest T b = f.rest P b ∨
      ∃ n slot, f.rest T b = ⟨n, [], .store t.value slot⟩ :: f.rest P b := by
  rcases h.parkTest with ⟨-, rfl⟩ | ⟨-, rfl⟩
  · exact Or.inl rfl
  · refine Or.inr ⟨T.count, T.function.slots.length, ?_⟩
    have hblock := Builder.block_emitted_self (T.withSlot widestSlot)
      (.store t.value T.function.slots.length) [] hc hb
    exact Function.rest_append (B := T) hblock hf

/-- A test that is parked on one side only agrees with one that is not: if it has no value, neither
    side gets past it. -/
theorem parkTest_agree (h : Builds (parkTest form t) T parked P)
    (h' : Builds (parkTest form' t) T' parked' P') (hT : Twin T T') (hc : T.cursor = .atEnd b)
    (hb : b < T.function.blocks.length) (hf : P.function.block b <+: f.block b)
    (hg : P'.function.block b <+: g.block b) (hneeds : Needs link f (f.rest P b) t.value)
    (hneeds' : Needs link g (g.rest P' b) t.value)
    (hagree : Agree link f g (f.rest P b) (g.rest P' b)) :
    Agree link f g (f.rest T b) (g.rest T' b) := by
  rcases parkTest_rest h hc hb hf with hX | ⟨n, slot, hX⟩ <;>
    rcases parkTest_rest h' (hT.cursor.trans hc) (hT.length ▸ hb) hg with hY | ⟨n', slot', hY⟩ <;>
    rw [hX, hY]
  · exact hagree
  · exact (hagree.symm.store hneeds).symm
  · exact hagree.store hneeds'
  · exact hagree.stores

/-- The test and its truth, before a branch that needs it. -/
theorem decided_agree (link : Ir.Linkage) {span : Span} {condition condition' : TypedValue}
    (h₁ : Builds (parkTest form t) T parked P) (h₁' : Builds (parkTest form' t) T' parked' P')
    (h₂ : Builds (unary span .boolify t) P condition D)
    (h₂' : Builds (unary span .boolify t) P' condition' D') (hT : Twin T T')
    (hc : T.cursor = .atEnd b) (hb : b < T.function.blocks.length)
    (hv : t.value < T.function.values.length) :
    condition' = condition ∧ Twin D D' ∧ ∀ f g : Function, g.imports = f.imports →
      g.blocks.length = f.blocks.length → Covers f T b D → Covers g T' b D' →
      Needs link f (f.rest D b) condition.value → Needs link g (g.rest D' b) condition.value →
      Agree link f g (f.rest D b) (g.rest D' b) → Agree link f g (f.rest T b) (g.rest T' b) := by
  have hP := parkTest_twin h₁ h₁' hT
  have i₁ := parkTest_inline h₁ hc hb
  have i₁' := parkTest_inline h₁' (hT.cursor.trans hc) (hT.length ▸ hb)
  have hbP : b < P.function.blocks.length := i₁.length ▸ hb
  have hvP : t.value < P.function.values.length :=
    Nat.lt_of_lt_of_le hv i₁.grown.values.length_le
  obtain ⟨impl, himpl, rfl, rfl⟩ := h₂.unary
  obtain ⟨impl', himpl', rfl, rfl⟩ := h₂'.unary
  obtain rfl : impl = impl' := Option.some.inj (himpl.symm.trans himpl')
  have hmatches : Ir.Build.Matches link (impl.code t.value) := impl.matches_code t.value
  obtain ⟨hcondition, habreast⟩ := hmatches P P' b hP i₁.cursor hbP
  refine ⟨by rw [hcondition], habreast.twin, ?_⟩
  intro f g himports hlength hf hg hneeds hneeds' hagree
  have hfP := hf.second (.of_inline i₁ hb)
  have hgP := hg.second (.of_inline i₁' (hT.length ▸ hb))
  refine parkTest_agree h₁ h₁' hT hc hb
    ((hf.first habreast.region).block b (Or.inl rfl))
    ((hg.first habreast.region').block b (Or.inl rfl)) ?_ ?_
    (habreast.agree f g himports hlength hfP hgP hagree)
  · exact .boolify himpl i₁.cursor hbP hvP hfP hneeds
  · rw [← hcondition] at hneeds'
    exact .boolify himpl i₁'.cursor (hP.length ▸ hbP) (hP.values ▸ hvP) hgP hneeds'

/-! ## Conditionals -/

theorem Mirrors.conditional {testSpan thenSpan : Span}
    {test test' thenArm thenArm' elseArm elseArm' : Lower TypedValue} (rt : Regional test)
    (rt' : Regional test') (ra : Regional thenArm) (ra' : Regional thenArm')
    (re : Regional elseArm) (re' : Regional elseArm') (st : Sound p test InReach)
    (sa : Sound p thenArm InReach) (se : Sound p elseArm InReach)
    (ht : Mirrors p link test test') (ha : Mirrors p link thenArm thenArm')
    (he : Mirrors p link elseArm elseArm') :
    Mirrors p link (conditional form testSpan thenSpan test thenArm elseArm)
      (Lower.conditional form' testSpan thenSpan test' thenArm' elseArm') := by
  intro signature doms B E B' E' b tv tv' h h' hat hB hn hn'
  obtain ⟨t, T, parked, P, condition, D, u, A, w, C, testEnd, thenEnd, elseEnd, L, h₁, h₂, h₃, h₄,
    h₅, -, rfl, rfl⟩ := h.layout rt ra re hat.cursor hat.bound hn
  obtain ⟨t', T', parked', P', condition', D', u', A', w', C', testEnd', thenEnd', elseEnd', L',
    h₁', h₂', h₃', h₄', h₅', -, rfl, rfl⟩ := h'.layout rt' ra' re' (hB.cursor.trans hat.cursor)
    (hB.length ▸ hat.bound) hn'
  obtain ⟨doms₁, doms₂, doms₃, S⟩ := conditional_stages st sa se L h₁ h₂ h₃ h₄ h₅ hat
  have nX' := L'.branched_numbered
  have nY' := L'.left_numbered
  rw [hB.length] at h₄' h₅' nX' nY'
  -- the test, its truth and the two arms
  obtain ⟨rfl, e₁, hT⟩ := ht _ _ _ _ _ _ _ _ _ h₁ h₁' S.opened hB.opened L.opened_numbered
    L'.opened_numbered
  obtain rfl := atEnd_inj L.test.cursor hT.region.cursor
  obtain rfl := atEnd_inj (hT.twin.cursor.trans hT.region.cursor) L'.test.cursor
  have hv : t'.value < T.function.values.length := S.testValue.lt
  obtain ⟨rfl, hD, hdecided⟩ := decided_agree link h₂ h₂' h₃ h₃' hT.twin
    L.test.cursor L.test.bound hv
  obtain ⟨rfl, e₂, hA⟩ := ha _ _ _ _ _ _ _ _ _ h₄ h₄' S.branched (hD.branched
    L.decided.cursor L.ends.2.1 _ _)
    L.branched_numbered nX'
  obtain rfl := atEnd_inj L.thenArm.cursor hA.region.cursor
  obtain rfl := atEnd_inj (hA.twin.cursor.trans hA.region.cursor) L'.thenArm.cursor
  obtain ⟨rfl, e₃, hC⟩ := he _ _ _ _ _ _ _ _ _ h₅ h₅' S.entered
    ((hA.twin.left parked parked' _ _).enter _) (fun c s hs => L.left_numbered c s hs)
    (fun c s hs => nY' c s hs)
  obtain rfl := atEnd_inj L.elseArm.cursor hC.region.cursor
  obtain rfl := atEnd_inj (hC.twin.cursor.trans hC.region.cursor) L'.elseArm.cursor
  have hJ := hC.twin.joined A A' parked parked' u'.type.byteSize u'.value w'.value
    (B.function.blocks.length + 3)
  have hvalues := hJ.values
  simp only [Builder.enter_function] at hvalues
  have hregion' := L'.region u'.type.byteSize u'.type.machineType
  rw [hB.length] at hregion'
  refine ⟨by rw [hB.length, hvalues], B.function.blocks.length + 3, ?_, L.region _ _, ?_, ?_⟩
  · rw [hB.length]
    exact hJ.emitted _ _ _ rfl rfl
  · rw [hB.length]
    exact hregion'
  intro f g himports hlength hf hg hagree
  have hfM := (L.covers_joined _ hf).1
  have hgM := (L'.covers_joined _ hg).1
  have hgX := L'.covers_thenArm _ hgM
  have hgY := L'.covers_elseArm _ hgM
  have hgT := L'.covers_test _ hgM
  have hX' := L'.block_thenStart
  have hY' := L'.block_elseStart
  rw [hB.length] at hgX hgY hgT hX' hY'
  refine Layout.agree L L' hB hC.twin himports hlength hf hg (fun hagree => ?_) (fun hagree => ?_)
    (fun hagree => ?_) hagree
  · obtain ⟨n, X, hX⟩ := L.rest_decided _ hfM
    obtain ⟨n', Y, hY⟩ := L'.rest_decided _ hgM
    rw [hB.length]
    refine hT.agree f g himports hlength (L.covers_test _ hfM) hgT ?_
    exact hdecided f g himports hlength (L.covers_decided _ hfM) (L'.covers_decided _ hgM)
      (hX ▸ .brif) (hY ▸ .brif) hagree
  · have harm := hA.agree f g himports hlength (L.covers_thenArm _ hfM) hgX hagree
    rwa [Function.rest_of_nil L.block_thenStart, Function.rest_of_nil hX'] at harm
  · have harm := hC.agree f g himports hlength (L.covers_elseArm _ hfM) hgY hagree
    rwa [Function.rest_of_nil (B := (A.left _ _ _).enter _) L.block_elseStart,
      Function.rest_of_nil (B := (A'.left _ _ _).enter _) hY'] at harm

/-! ## Expressions and statements -/

theorem literal_mirrors (l : Literal) : Mirrors p link l.lower l.lower := by
  intro signature doms B E B' E' b tv tv' h h' hat hB _ _
  obtain ⟨rfl, rfl⟩ := h.literal
  obtain ⟨rfl, rfl⟩ := h'.literal
  exact ⟨by rw [hB.values], b, .emitted hB hat.cursor hat.bound rfl _⟩

theorem binary_mirrors (span : Span) (op : BinaryOp) (lhs rhs : TypedValue) :
    Mirrors p link (binary span op lhs rhs) (binary span op lhs rhs) := by
  intro signature doms B E B' E' b tv tv' h h' hat hB _ _
  obtain ⟨-, impl, himpl, rfl, rfl⟩ := h.binary
  obtain ⟨-, impl', himpl', rfl, rfl⟩ := h'.binary
  obtain rfl : impl = impl' := Option.some.inj (himpl.symm.trans himpl')
  obtain ⟨hresult, habreast⟩ :=
    impl.matches_code lhs.type lhs.value rhs.value B B' b hB hat.cursor hat.bound
  exact ⟨by rw [hresult], b, habreast⟩

theorem unary_mirrors (span : Span) (op : UnaryOperator) (operand : TypedValue) :
    Mirrors p link (unary span op operand) (unary span op operand) := by
  intro signature doms B E B' E' b tv tv' h h' hat hB _ _
  obtain ⟨impl, himpl, rfl, rfl⟩ := h.unary
  obtain ⟨impl', himpl', rfl, rfl⟩ := h'.unary
  obtain rfl : impl = impl' := Option.some.inj (himpl.symm.trans himpl')
  obtain ⟨hresult, habreast⟩ := impl.matches_code operand.value B B' b hB hat.cursor hat.bound
  exact ⟨by rw [hresult], b, habreast⟩

/-- A name stands for the same index on both sides. -/
theorem call_mirrors (hq : p.Resembles q) {span : Span} {callee : Ident} {count : Nat}
    {args args' : Lower (List Ir.ValueId)} (h : Mirrors p link args args') :
    Mirrors p link (call p span callee count args) (call q span callee count args') := by
  intro signature doms B E B' E' b tv tv' hc hc' hat hB hn hn'
  obtain ⟨index, r, values, M, i, hl, -, -, h₁, hi, rfl, rfl⟩ := hc.call
  obtain ⟨index', r', values', M', i', hl', -, -, h₁', hi', rfl, rfl⟩ := hc'.call
  have hname := hq callee.text
  rw [hl, hl'] at hname
  obtain ⟨rfl, hsignature, htype⟩ : index' = index ∧ r'.signature = r.signature ∧
      r'.returnType = r.returnType := by
    cases hname with
    | some h => exact h
  rw [hsignature] at hi' ⊢
  obtain ⟨rfl, m, hM⟩ := h signature doms B M B' M' b values values' h₁ h₁' hat hB hn hn'
  have himported := hM.twin.imported index' r.signature
  rw [himported.1] at hi' ⊢
  rw [himported.2.imports] at hi'
  obtain rfl : i = i' := Option.some.inj (hi.symm.trans hi')
  have hcall : Abreast link m M _ M' _ m :=
    .imported hM.twin hM.region.cursor hM.region.bound index' r.signature
  refine ⟨by rw [hM.twin.values, htype], m, hM.trans (hcall.trans ?_)⟩
  exact .emitted hcall.twin hcall.region.cursor hcall.region.bound rfl _

mutual

theorem expression_mirrors (hq : p.Resembles q) : ∀ {node node' : Node},
    node.Switched node' → Mirrors p link (expression p node) (expression q node')
  | .literal _ l, _, .literal => by
      rw [expression, expression]
      exact literal_mirrors l
  | _, _, .name => by
      intro signature doms B E B' E' b tv tv' h
      rw [expression] at h
      exact absurd h not_builds_bareName
  | .binary _ _ lhs rhs, _, .binary hl hr => by
      rw [expression, expression]
      exact (expression_mirrors hq hl).bind (expression_sound lhs) fun x =>
        (expression_mirrors hq hr).bind (expression_sound rhs) fun y =>
          binary_mirrors _ _ x y
  | .negate _ operand, _, .negate h => by
      rw [expression, expression]
      exact (expression_mirrors hq h).bind (expression_sound operand) fun x =>
        unary_mirrors _ _ x
  | _, _, .conditional ht ha he => by
      rw [expression, expression, ht.span_eq, ha.span_eq]
      exact .conditional (expression_regional p _) (expression_regional q _)
        (expression_regional p _) (expression_regional q _) (expression_regional p _)
        (expression_regional q _) (expression_sound _) (expression_sound _)
        (expression_sound _) (expression_mirrors hq ht) (expression_mirrors hq ha)
        (expression_mirrors hq he)
  | _, _, .function _ => by
      intro signature doms B E B' E' b tv tv' h
      rw [expression] at h
      exact absurd h not_builds_fail
  | _, _, .call h => by
      rw [expression, expression, h.length_eq]
      exact call_mirrors hq (arguments_mirrors hq h)

theorem arguments_mirrors (hq : p.Resembles q) :
    ∀ {nodes nodes' : List Node}, Node.SwitchedAll nodes nodes' →
      Mirrors p link (arguments p nodes) (arguments q nodes')
  | _, _, .nil => by
      rw [arguments, arguments]
      exact .pure []
  | node :: rest, _, .cons h hrest => by
      rw [arguments, arguments]
      exact (expression_mirrors hq h).bind (expression_sound node) fun x =>
        (arguments_mirrors hq hrest).bind (arguments_sound rest) fun xs => .pure _

end

theorem statements_mirrors (hq : p.Resembles q) :
    ∀ {nodes nodes' : List Node}, Node.SwitchedAll nodes nodes' →
      Mirrors p link (statements p nodes) (statements q nodes')
  | _, _, .nil => by
      intro signature doms B E B' E' b tv tv' h h' hat hB hn hn'
      obtain ⟨v, M, h₁, h⟩ := Builds.bind h
      obtain ⟨v', M', h₁', h'⟩ := Builds.bind h'
      obtain ⟨rfl, rfl⟩ := h.pure
      obtain ⟨rfl, rfl⟩ := h'.pure
      obtain ⟨rfl, hM⟩ := Mirrors.build (.iconst .i64 0) signature doms B _ B' _ b v v' h₁ h₁' hat
        hB hn hn'
      exact ⟨rfl, hM⟩
  | _, _, .cons h .nil => expression_mirrors hq h
  | node :: _, _, .cons h (.cons h' hrest) =>
      (expression_mirrors hq h).bind (expression_sound node) fun _ =>
        statements_mirrors hq (.cons h' hrest)

end Lower

/-! ## Routines -/

open Ir (Builder Function Region Twin Agree)

theorem Ir.Twin.finished {E E' : Builder} (h : Twin E E') (v : Ir.ValueId) (ty : MachineType)
    (size : Nat) : Twin (E.finished v ty size) (E'.finished v ty size) where
  values := by simp [Builder.finished, Builder.returned, Builder.returning, Builder.leaving,
    Builder.entered, h.values]
  imports := h.imports
  length := by rw [Builder.finished_length, Builder.finished_length, h.length]
  cursor := rfl
  code := by
    have hfinished (B : Builder) {inst : Ir.Inst} {results : List Ir.ValueId}
        (hasks : inst.asksTypes = true) :
        (B.finished v ty size).function.Contains inst results ↔
          B.function.Contains inst results := by
      have hentered : (B.entered size B.cursor).function.Contains inst results ↔
          B.function.Contains inst results :=
        ((B.enter 0).withSlot size).contains_emitted (.jump 1) [] rfl hasks
      have hleaving :
          ((B.entered size B.cursor).leaving v B.function.slots.length).function.Contains
            inst results ↔ (B.entered size B.cursor).function.Contains inst results :=
        (Builder.contains_emitted _ (.jump 2) [] rfl hasks).trans
          (Builder.contains_emitted _ (.store v B.function.slots.length) [] rfl hasks)
      exact (Builder.contains_emitted _ _ [] rfl hasks).trans <|
        (((B.entered size B.cursor).leaving v B.function.slots.length).contains_emitted
          (.load ty B.function.slots.length) [ty] rfl hasks).trans
          (hleaving.trans hentered)
    intro inst results hasks
    rw [hfinished E hasks, hfinished E' hasks, h.code inst results hasks]

/-- What the check asks of a statement, beyond the slots, is the same of twins. -/
theorem Ir.Twin.stmtOk {B B' : Builder} (h : Twin B B') {s t : Ir.Stmt}
    (hasks : s.inst.asksTypes = true) (hinst : t.inst = s.inst) (hresults : t.results = s.results) :
    B'.function.stmtOk t = B.function.stmtOk s := by
  have htypes : B'.function.typesOf? = B.function.typesOf? := by
    funext vs
    simp only [Function.typesOf?, h.values]
  have hresult : B'.function.resultTypes? s.inst = B.function.resultTypes? s.inst := by
    rw [Function.resultTypes?, Function.resultTypes?, htypes, h.imports, h.length]
    refine bind_congr fun types => ?_
    -- what is left to differ are slots and the signature
    cases hs : s.inst with
    | ret | store | load => simp [hs, Ir.Inst.asksTypes] at hasks
    | unary op => cases op <;> rcases types with _ | ⟨a, _ | ⟨b, types⟩⟩ <;> rfl
    | _ => rcases types with _ | ⟨a, _ | ⟨b, _ | ⟨c, _ | ⟨d, types⟩⟩⟩⟩ <;> rfl
  rw [Function.stmtOk, Function.stmtOk, hinst, hresults, hresult, htypes]

/-- Of twins that are structured both pass the check or neither does. -/
theorem Ir.Twin.isValid {B B' : Builder} (h : Twin B B') (hB : B.function.Structured)
    (hB' : B'.function.Structured) (hv : B.function.isValid = true) :
    B'.function.isValid = true := by
  rw [hB.isValid_iff_stmtOk] at hv
  rw [hB'.isValid_iff_stmtOk]
  intro b s hs
  cases hasks : s.inst.asksTypes with
  | false => exact (hB'.shaped b s hs).stmtOk hasks
  | true =>
      obtain ⟨c, t, ht, hinst, hresults⟩ := (h.code _ _ hasks).mp ⟨b, s, hs, rfl, rfl⟩
      rw [h.stmtOk (hinst ▸ hasks) hinst.symm hresults.symm]
      exact hv c t ht

/-- Routines with bodies that agree run alike. -/
theorem finished_run {link : Ir.Linkage} {name name' : String} {E E' : Builder} {e : Nat}
    (hE : Region (.prepared name) 1 E e) (hE' : Region (.prepared name') 1 E' e) (h : Twin E E')
    (v : Ir.ValueId) (ty : MachineType) (size : Nat)
    (hbody : ∀ f g : Function, g.imports = f.imports → g.blocks.length = f.blocks.length →
      Ir.Covers f (.prepared name) 1 E → Ir.Covers g (.prepared name') 1 E' →
      Agree link f g (f.rest E e) (g.rest E' e) →
      Agree link f g (f.rest (.prepared name) 1) (g.rest (.prepared name') 1)) :
    (E'.finished v ty size).function.run link = (E.finished v ty size).function.run link := by
  have hcovers := finished_covers hE v ty size
  have hcovers' := finished_covers hE' v ty size
  have hblock := finished_block hE v ty size
  have hblock' := finished_block hE' v ty size
  have hsignature := finished_signature hE v ty size
  have hsignature' := finished_signature hE' v ty size
  have hlength : (E'.finished v ty size).function.blocks.length =
      (E.finished v ty size).function.blocks.length := by
    rw [Builder.finished_length, Builder.finished_length, h.length]
  have himports : (E'.finished v ty size).function.imports =
      (E.finished v ty size).function.imports := h.imports
  have hbounds := bodyEnd_bounds hE
  generalize (E.finished v ty size).function = f at *
  generalize (E'.finished v ty size).function = g at *
  -- back from the return, over the result's way through its slot, to the entry
  have hret : Agree link f g [⟨E.count + 4, [], .ret [E.function.values.length]⟩]
      [⟨E'.count + 4, [], .ret [E.function.values.length]⟩] :=
    .leave himports hlength rfl rfl rfl rfl (by simp [Ir.Inst.targets])
  have hlast := hblock 2
  have hlast' := hblock' 2
  rw [if_neg (by omega), if_neg (by omega), if_pos rfl] at hlast hlast'
  rw [h.values] at hlast'
  have hend : Agree link f g (f.rest E e) (g.rest E' e) := by
    rw [Function.rest, Function.rest, hblock e, hblock' e, if_neg (by omega), if_pos rfl,
      if_neg (by omega), if_pos rfl, List.drop_left, List.drop_left]
    exact .handOver hlength hlast hlast' hret
  have hstart := hbody f g himports hlength hcovers hcovers' hend
  rw [Function.rest_of_nil (prepared_block name 1), Function.rest_of_nil (prepared_block name' 1)]
    at hstart
  have hentry : Agree link f g (f.block 0) (g.block 0) := by
    rw [hblock 0, hblock' 0, if_pos rfl, if_pos rfl]
    refine .leave himports hlength rfl rfl rfl rfl fun c hc => ?_
    obtain rfl : c = 1 := by simpa [Ir.Inst.targets] using hc
    exact hstart
  rw [Function.run, Function.run, hsignature, hsignature', hlength]
  exact hentry.runFrom hlength _ Ir.Frame.start Ir.Frame.start.slots Ir.Frame.start.slots

/-- Switched statements are lowered to twins, whatever they are linked to. -/
theorem Routine.lower_abreast {p q : Program} (hq : p.Resembles q) {nodes nodes' : List Node}
    (h : Node.SwitchedAll nodes nodes') {types types' : TypeTable}
    {name name' : String} {anonymous : Bool} {r r' : Routine}
    (hr : (Routine.lower p types name anonymous nodes).1 = .ok r)
    (hr' : (Routine.lower q types' name' anonymous nodes').1 = .ok r') (link : Ir.Linkage) :
    ∃ (tv : TypedValue) (E E' : Builder) (e : Nat), r = ⟨name, tv.type, anonymous,
        (E.finished tv.value tv.type.machineType tv.type.byteSize).function⟩ ∧
      r' = ⟨name', tv.type, anonymous,
        (E'.finished tv.value tv.type.machineType tv.type.byteSize).function⟩ ∧
      Ir.Abreast link 1 (.prepared name) E (.prepared name') E' e := by
  obtain ⟨tv, E, hb, rfl⟩ := Routine.lower_ok hr
  obtain ⟨tv', E', hb', rfl⟩ := Routine.lower_ok hr'
  have htwin : Twin (.prepared name) (.prepared name') :=
    ⟨rfl, rfl, rfl, rfl, fun _ _ _ => Iff.rfl⟩
  have hmirrors : Lower.Mirrors p link _ _ := Lower.statements_mirrors hq h
  obtain ⟨rfl, e, hE⟩ := hmirrors _ _ _ _ _ _ _ _ _ hb hb'
    (prepared_at p ⟨[], []⟩ name) htwin (prepared_numbered name) (prepared_numbered name')
  exact ⟨tv', E, E', e, rfl, rfl, hE⟩

/-- The routines differ in their name and their code alone, both pass the check or neither does,
    and they come to the same outcome, whatever they are linked to. -/
structure Routine.Alike (r r' : Routine) : Prop where
  returnType : r'.returnType = r.returnType
  anonymous : r'.anonymous = r.anonymous
  signature : r'.signature = r.signature
  isValid : r'.code.isValid = r.code.isValid
  run : ∀ link, r'.code.run link = r.code.run link

theorem Routine.Alike.refl (r : Routine) : r.Alike r := ⟨rfl, rfl, rfl, rfl, fun _ => rfl⟩

/-- Switched statements are lowered to routines that are alike. -/
theorem Routine.lower_alike {p q : Program} (hpq : p.Resembles q) {nodes nodes' : List Node}
    (h : Node.SwitchedAll nodes nodes') {types types' : TypeTable} {name name' : String}
    {anonymous : Bool} {r r' : Routine}
    (hr : (Routine.lower p types name anonymous nodes).1 = .ok r)
    (hr' : (Routine.lower q types' name' anonymous nodes').1 = .ok r') : r.Alike r' := by
  obtain ⟨hstructured, hsignature, -⟩ := Routine.lower_structured hr
  obtain ⟨hstructured', hsignature', -⟩ := Routine.lower_structured hr'
  have hrun : ∀ link, r'.code.run link = r.code.run link := by
    intro link
    obtain ⟨tv, E, E', e, rfl, rfl, hE⟩ := Routine.lower_abreast hpq h hr hr' link
    exact finished_run hE.region hE.region' hE.twin _ _ _ hE.agree
  obtain ⟨tv, E, E', e, rfl, rfl, hE⟩ := Routine.lower_abreast hpq h hr hr' fun _ _ => none
  have htwin := hE.twin.finished tv.value tv.type.machineType tv.type.byteSize
  refine ⟨rfl, rfl, hsignature'.trans hsignature.symm, ?_, hrun⟩
  rw [Bool.eq_iff_iff]
  exact ⟨htwin.symm.isValid hstructured' hstructured, htwin.isValid hstructured hstructured'⟩

end ScalarLang
