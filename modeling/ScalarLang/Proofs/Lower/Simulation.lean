import Mathlib
import ScalarLang.Proofs.Lower.Expression
import ScalarLang.Proofs.Lower.Linking
import ScalarLang.Proofs.Lower.Operation
import ScalarLang.Proofs.Lower.WellFormed

/-
  Lowered code does what its source means.
  `Simulates` is the contract of a lowering step: in any function that goes on from what the step
  built, running from where it started comes to where it ended, with a value and a fault or none
  that agree with the meaning of the source. A fault does not stop the run, so an operand after a
  fault, and the arm that a faulty test chooses, still have to run to their ends.
-/

namespace ScalarLang

open Ir (Builder Frame Function Region Inline Executes Covers Ready Holds Layout)

variable {p : Program} {link : Ir.Linkage} {call : String → Except Abort Value}

/-- Linkage gives the built-in routines, and for each routine of the program a value that agrees
    with what a call of its name means. -/
structure Linked (p : Program) (link : Ir.Linkage) (call : String → Except Abort Value) : Prop where
  intrinsic : ∀ r : Intrinsic, link r.index = r.run
  routine : ∀ name index r, p.lookup name = some (index, r) →
    r.signature = ⟨[], [r.returnType.machineType]⟩ ∧
      ∃ v fault, link index [] = some ⟨[Value.word v], fault⟩ ∧ v.type = r.returnType ∧
        Agrees (call name) v fault

namespace Ir

variable {f : Function} {B B' B'' : Builder} {b b' b'' : Nat} {fr fr' fr'' : Frame}

/-- A run comes from the end of block `b` of `B` to the end of block `b'` of `B'`. It enters new
    blocks only, each once, and keeps the values that were there. -/
structure Goes (link : Linkage) (f : Function) (B : Builder) (b : Nat) (fr : Frame) (B' : Builder)
    (b' : Nat) (fr' : Frame) : Prop where
  leads : ∃ k, B.function.blocks.length + k ≤ B'.function.blocks.length ∧
    f.Leads link k (f.rest B b) fr (f.rest B' b') fr'
  kept : ∀ v, v < B.function.values.length → fr'.values v = fr.values v

theorem Goes.trans (h : Goes link f B b fr B' b' fr') (hx : B.Extends B')
    (h' : Goes link f B' b' fr' B'' b'' fr'') : Goes link f B b fr B'' b'' fr'' where
  leads := by
    obtain ⟨k, hk, hl⟩ := h.leads
    obtain ⟨k', hk', hl'⟩ := h'.leads
    exact ⟨k + k', by omega, hl.trans hl'⟩
  kept := fun v hv => (h'.kept v (Nat.lt_of_lt_of_le hv hx.values.length_le)).trans (h.kept v hv)

theorem Executes.goes (h : Executes link b B fr B' fr') (hf : Covers f B b B') :
    Goes link f B b fr B' b fr' :=
  ⟨⟨0, Nat.le_of_eq h.inline.length.symm, h.leads hf⟩, h.kept⟩

/-- The run ends with a value of the type and agrees with `r`. -/
def Ends (link : Linkage) (f : Function) (B : Builder) (b : Nat) (fr : Frame) (B' : Builder)
    (b' : Nat) (tv : TypedValue) (r : Except Abort Value) : Prop :=
  ∃ v fault fr', Goes link f B b fr B' b' fr' ∧ Holds B' fr' tv.value (Value.word v) ∧
    v.type = tv.type ∧ fr'.faulted = (fr.faulted || fault) ∧ Agrees r v fault

theorem Computes.ends {x : Build ValueId} {ty : ScalarType} {r : Except Abort Value}
    (h : Computes p link b x B fr ty r) (hf : Covers f B b (x B).2) :
    Ends link f B b fr (x B).2 b ⟨(x B).1, ty⟩ r := by
  obtain ⟨w, fault, ⟨fr', e, -, hw, hfault⟩, htype, hr⟩ := h
  exact ⟨w, fault, fr', e.goes hf, hw, htype, hfault, hr⟩

/-- First comes what `r` means, then what is meant by its value. -/
theorem Goes.ends {tv : TypedValue} {r : Except Abort Value} {k : Value → Except Abort Value}
    {v : Value} {fault : Bool} (h : Goes link f B b fr B' b' fr') (hx : B.Extends B')
    (hfault : fr'.faulted = (fr.faulted || fault)) (hr : Agrees r v fault)
    (h' : Ends link f B' b' fr' B'' b'' tv (k v)) : Ends link f B b fr B'' b'' tv (r >>= k) := by
  obtain ⟨v', fault', fr'', g, hv', htype, hfault', hr'⟩ := h'
  refine ⟨v', fault || fault', fr'', h.trans hx g, hv', htype, ?_, hr.bind hr'⟩
  rw [hfault', hfault, Bool.or_assoc]

end Ir

namespace Lower

open Ir (Goes Ends)

/-- The step makes code that does what `r` means. -/
def Simulates (p : Program) (link : Ir.Linkage) (x : Lower TypedValue) (r : Except Abort Value) :
    Prop :=
  ∀ (B : Builder) (tv : TypedValue) (B' : Builder) (b b' : Nat), Builds x B tv B' → Ready p b B →
    B.Numbered → B'.cursor = .atEnd b' → ∀ (f : Function) (fr : Frame), Covers f B b B' →
      Ends link f B b fr B' b' tv r

theorem offers_signatureAt? {names : List String} {i : Ir.Import} (h : p.Offers names i) :
    p.signatureAt? i.index = some i.signature := by
  rcases h with ⟨r, rfl⟩ | ⟨name, -, r, hl, hs⟩
  · exact p.signatureAt?_intrinsic r
  · rw [hs]
    exact Program.signatureAt?_of_lookup hl

/-- Where a step ends, building can go on. -/
theorem Builds.ready {α : Type} {x : Lower α} {B B' : Builder} {a : α} {b b' : Nat}
    {names : List String} (h : Builds x B a B') (hB : Ready p b B) (hi : Imports p names x)
    (r : Region B b B' b') : Ready p b' B' where
  cursor := r.cursor
  bound := r.bound
  imports := fun i hmem => (hi B a B' h i hmem).elim (hB.imports i) offers_signatureAt?

theorem atEnd_inj {B : Builder} {b b' : Nat} (h : B.cursor = .atEnd b) (h' : B.cursor = .atEnd b') :
    b' = b := by
  injection h'.symm.trans h

/-! ## Operations -/

theorem literal_simulates (l : Literal) : Simulates p link l.lower (.ok l.value) := by
  intro B tv B' b b' h hB _ hc f fr hf
  obtain ⟨rfl, rfl⟩ := h.literal
  obtain rfl := atEnd_inj hB.cursor hc
  have hrun : Ir.Runs p link b' (Ir.Build.const l.constant) B fr false
      (Holds · · · l.value.word) := .const hB l.constant_word?
  have hends := (Ir.Computes.of_runs l.value hrun rfl).ends hf
  rwa [l.value_type] at hends

section Steps

variable {B B' : Builder} {b : Nat} {tv : TypedValue} {f : Function} {fr : Frame} {span : Span}

theorem binary_ends {op : BinaryOp} {lhs rhs : TypedValue} {u v : Value}
    (h : Builds (binary span op lhs rhs) B tv B') (hlink : Linked p link call) (hB : Ready p b B)
    (hu : Holds B fr lhs.value u.word) (hut : u.type = lhs.type)
    (hv : Holds B fr rhs.value v.word) (hvt : v.type = rhs.type) (hf : Covers f B b B') :
    Ends link f B b fr B' b tv (Value.binary op u v) := by
  obtain ⟨htypes, impl, himpl, rfl, rfl⟩ := h.binary
  rw [← hut] at himpl hf ⊢
  have htypes : u.type = v.type := by rw [hut, hvt, htypes]
  exact (computes_binary hlink.intrinsic hB htypes himpl hu hv).ends hf

theorem negate_ends {operand : TypedValue} {u : Value}
    (h : Builds (unary span .negate operand) B tv B') (hB : Ready p b B)
    (hu : Holds B fr operand.value u.word) (hut : u.type = operand.type) (hf : Covers f B b B') :
    Ends link f B b fr B' b tv u.negate := by
  obtain ⟨impl, himpl, rfl, rfl⟩ := h.unary
  rw [← hut] at himpl ⊢
  exact (computes_negate hB himpl hu).ends hf

end Steps

/-- A call of a routine, which has no parameters. -/
theorem call_simulates (hlink : Linked p link call) (span : Span) (callee : Ident)
    (args : List Node) :
    Simulates p link (Lower.call p span callee args.length (arguments p args))
      ((Node.call span callee args).eval call) := by
  intro _ tv B' b b' h hB _ hc f fr hf
  obtain ⟨index, routine, values, B, i, hlookup, harity, -, h₁, hi, rfl, rfl⟩ := h.call
  obtain ⟨hsig, v, fault, hrun, htype, hr⟩ := hlink.routine _ _ _ hlookup
  obtain rfl : args = [] := by
    rw [Routine.arity, show routine.code.signature = _ from hsig] at harity
    exact List.eq_nil_of_length_eq_zero harity
  obtain ⟨rfl, rfl⟩ := Builds.pure h₁
  have hs := Program.signatureAt?_of_lookup hlookup
  obtain rfl : i = ⟨index, routine.signature⟩ :=
    Option.some.inj (hi.symm.trans (hB.imports.imported_fst hs))
  have hres : routine.signature.results = [routine.returnType.machineType] := by rw [hsig]
  have hvalues : (B.imported index routine.signature).2.function.values = B.function.values := by
    obtain ⟨added, he, -⟩ := B.imported_snd index routine.signature
    rw [he]
  have hset : fr.setValues? (List.range'
      (B.imported index routine.signature).2.function.values.length
      routine.signature.results.length) [v.word] =
        some (fr.setValue B.function.values.length v.word) := by
    rw [hres, hvalues]
    rfl
  have e := (Executes.imported hB.cursor index routine.signature fr).trans
    (.call (hB.imported hs) hi List.mapM_nil hrun hset)
  obtain rfl := atEnd_inj e.inline.cursor hc
  refine ⟨v, fault, _, e.goes hf, ⟨?_, ?_⟩, htype, rfl, hr⟩
  · simp [Frame.setValue]
  · simp [hres, hvalues, v.word_type, htype]

end Lower

/-! ## Conditionals -/

namespace Ir.Layout

variable {B T P D A C : Builder} {parked : Option SlotId} {condition u w : ValueId}
  {b testEnd thenEnd elseEnd : Nat}
  (L : Layout B b T P D A C parked condition u w testEnd thenEnd elseEnd) (size : Nat)
include L

/-- The test is in front of its blocks in the end, and so is the branch after it. -/
theorem test_isPrefix (c : Nat) :
    T.function.block c <+:
      (A.joined C parked size u w (B.function.blocks.length + 3)).2.function.block c :=
  (L.park.grown.block_isPrefix c).trans <| (L.decided.grown.block_isPrefix c).trans <|
    ((Builder.branched_grown L.decided.cursor L.ends.2.1 condition _).block_isPrefix c).trans
      ((L.grown_branched_joined size).block_isPrefix c)

/-- So is each arm in the blocks that it made. -/
theorem thenArm_isPrefix {c : Nat}
    (hc : c = B.function.blocks.length + 1 ∨ D.function.blocks.length ≤ c) :
    A.function.block c <+:
      (A.joined C parked size u w (B.function.blocks.length + 3)).2.function.block c := by
  by_cases ht : c = thenEnd
  · obtain ⟨m, n, h⟩ := L.block_thenEnd size
    rw [ht, h]
    exact List.prefix_append _ _
  · by_cases he : c = elseEnd
    · have hlen : A.function.blocks.length ≤ c := by
        have := L.ends
        have := L.lengths
        omega
      rw [Function.block_eq_nil hlen]
      exact ⟨_, rfl⟩
    · rw [L.block_joined size ht he]
      have hleft := Builder.left_grown L.thenArm.cursor L.thenArm.bound parked u
      exact ((hleft _).block_isPrefix c).trans (L.grown_left.block_isPrefix c)

theorem elseArm_isPrefix {c : Nat}
    (hc : c = B.function.blocks.length + 2 ∨ A.function.blocks.length ≤ c) :
    C.function.block c <+:
      (A.joined C parked size u w (B.function.blocks.length + 3)).2.function.block c := by
  by_cases he : c = elseEnd
  · obtain ⟨m, n, h⟩ := L.block_elseEnd size
    rw [he, h]
    exact List.prefix_append _ _
  · have ht : c ≠ thenEnd := by
      have := L.ends
      have := L.lengths
      omega
    rw [L.block_joined size ht he]
    exact (Builder.left_grown L.elseArm.cursor L.elseArm.bound parked w _).block_isPrefix c

variable {f : Function}
  (hf : Covers f B b (A.joined C parked size u w (B.function.blocks.length + 3)).2)
include hf

theorem covers_test : Covers f B.opened B.function.blocks.length T where
  block := fun c hc => (L.test_isPrefix size c).trans <| hf.block c <| by
    rw [Builder.opened_length] at hc
    omega
  imports := (L.test_extends size).imports.trans hf.imports
  length := Nat.le_trans (L.test_extends size).length hf.length

theorem covers_decided : Covers f T testEnd D where
  block := fun c hc => by
    have hend := L.ends.1
    have hlen := L.lengths
    have hX := (Builder.branched_grown L.decided.cursor L.ends.2.1 condition
      B.function.blocks.length).block_isPrefix c
    exact (hX.trans ((L.grown_branched_joined size).block_isPrefix c)).trans
      (hf.block c (by omega))
  imports := by
    have hX := (Builder.branched_grown L.decided.cursor L.ends.2.1 condition
      B.function.blocks.length).imports
    exact (hX.trans (L.grown_branched_joined size).imports).trans hf.imports
  length := by
    have hlen := L.lengths
    have := hf.length
    rw [L.joined_length size] at this
    omega

theorem covers_thenArm : Covers f (D.branched condition B.function.blocks.length)
    (B.function.blocks.length + 1) A where
  block := fun c hc => by
    have hlen := L.lengths
    simp only [Builder.branched, Builder.enter_function, Builder.emitted_length] at hc
    exact (L.thenArm_isPrefix size hc).trans (hf.block c (by omega))
  imports := (L.thenArm_extends size).imports.trans hf.imports
  length := Nat.le_trans (L.thenArm_extends size).length hf.length

theorem covers_elseArm : Covers f ((A.left parked u (B.function.blocks.length + 3)).enter
    (B.function.blocks.length + 2)) (B.function.blocks.length + 2) C where
  block := fun c hc => by
    have hlen := L.lengths
    rw [Builder.enter_function,
      Builder.left_length L.thenArm.cursor L.thenArm.bound parked u] at hc
    exact (L.elseArm_isPrefix size hc).trans (hf.block c (by omega))
  imports := (L.elseArm_extends size).imports.trans hf.imports
  length := Nat.le_trans (L.elseArm_extends size).length hf.length

theorem join_lt : B.function.blocks.length + 3 < f.blocks.length := by
  have hlen := L.lengths
  have := hf.length
  rw [L.joined_length size] at this
  omega

/-- A run enters the test. -/
theorem leads_test (fr : Frame) : f.Leads link 1 (f.rest B b) fr
    (f.rest B.opened B.function.blocks.length) fr := by
  have hblock := Builder.block_opened L.cursor L.bound b
  rw [if_pos rfl] at hblock
  have hlt := L.join_lt size hf
  rw [Function.rest_append hblock (((L.grown_opened_joined size).block_isPrefix b).trans
    (hf.block b (Or.inl rfl))), Function.rest_of_nil (L.block_opened (Nat.le_refl _))]
  exact .goto rfl (by omega) _

/-- A run enters the arm that the test chooses. -/
theorem leads_arm {fr : Frame} {t : Bool} (hcond : fr.values condition = some (.ofBool t)) :
    f.Leads link 1 (f.rest D testEnd) fr
      (f.block (if t then B.function.blocks.length + 1 else B.function.blocks.length + 2)) fr := by
  have hblock : (D.branched condition B.function.blocks.length).function.block testEnd =
      D.function.block testEnd ++ [_] :=
    Builder.block_emitted_self D _ [] L.decided.cursor L.ends.2.1
  have hlt := L.join_lt size hf
  have hend := L.ends.1
  have hX := (L.grown_branched_joined size).block_isPrefix testEnd
  rw [Function.rest_append hblock (hX.trans (hf.block testEnd (by omega)))]
  refine .goto ?_ ?_ _
  · simp only [Function.step, Builder.stmt, hcond, Word.isTrue?_ofBool, Option.bind_eq_bind,
      Option.bind_some, Option.pure_def]
  · split <;> omega

end Ir.Layout

namespace Ir

variable {f : Function} {fr : Frame}

/-- A run through an arm comes to the join with the arm's value in the slot. -/
structure Joins (link : Linkage) (f : Function) (X : Builder) (start : Nat) (fr : Frame)
    (join : Nat) (slot : SlotId) (bound : Nat) (v : Value) (fault : Bool) (fr' : Frame) : Prop where
  leads : ∃ k, X.function.blocks.length + k ≤ bound ∧
    f.Leads link (k + 1) (f.block start) fr (f.block join) fr'
  kept : ∀ x, x < X.function.values.length → fr'.values x = fr.values x
  slot : fr'.slots slot = some v.word
  faulted : fr'.faulted = (fr.faulted || fault)

theorem Joins.mono {X X' : Builder} {start join bound bound' : Nat} {slot : SlotId} {v : Value}
    {fault : Bool} {fr' : Frame} (h : Joins link f X' start fr join slot bound v fault fr')
    (hx : X.Extends X') (hb : bound ≤ bound') :
    Joins link f X start fr join slot bound' v fault fr' where
  leads := by
    obtain ⟨k, hk, hleads⟩ := h.leads
    exact ⟨k, Nat.le_trans (Nat.add_le_add_right hx.length k) (Nat.le_trans hk hb), hleads⟩
  kept := fun x hv => h.kept x (Nat.lt_of_lt_of_le hv hx.values.length_le)
  slot := h.slot
  faulted := h.faulted

theorem Ends.joins {X A : Builder} {start last join : Nat} {slot : SlotId} {tv : TypedValue}
    {r : Except Abort Value} (h : Ends link f X start fr A last tv r)
    (hstart : X.function.block start = []) (hj : join < f.blocks.length)
    (hblock : ∃ m n, A.function.block last ++
      [⟨m, [], .store tv.value slot⟩, ⟨n, [], .jump join⟩] <+: f.block last) :
    ∃ v fault fr', Joins link f X start fr join slot A.function.blocks.length v fault fr' ∧
      v.type = tv.type ∧ Agrees r v fault := by
  obtain ⟨v, fault, fr', g, hv, htype, hfault, hr⟩ := h
  obtain ⟨k, hk, hleads⟩ := g.leads
  obtain ⟨m, n, Y, hY⟩ := hblock
  rw [Function.rest_of_nil hstart] at hleads
  have hrest : f.rest A last =
      ⟨m, [], .store tv.value slot⟩ :: ⟨n, [], .jump join⟩ :: Y := by
    rw [Function.rest, ← hY, List.append_assoc, List.drop_left]
    rfl
  have hstore : f.runCode link [⟨m, [], .store tv.value slot⟩] fr' =
      some (fr'.setSlot slot v.word) := by
    simp [Function.runCode, Function.step, hv.value]
  rw [hrest] at hleads
  have hend := (hleads.trans (.code hstore _)).trans (.goto rfl hj Y)
  exact ⟨v, fault, fr'.setSlot slot v.word,
    ⟨⟨k, hk, hend⟩, g.kept, by simp [Frame.setSlot], hfault⟩, htype, hr⟩

end Ir

namespace Lower

open Ir (Goes Ends Joins)

theorem parkTest_executes {form : ConditionalForm} {test : TypedValue} {parked : Option Ir.SlotId}
    {T P : Builder} {b : Nat} {fr : Frame} {w : Word} (h : Builds (parkTest form test) T parked P)
    (hT : Ready p b T) (hw : Holds T fr test.value w) :
    ∃ fr', Executes link b T fr P fr' ∧ Ready p b P ∧ fr'.faulted = fr.faulted := by
  rcases h.parkTest with ⟨-, rfl⟩ | ⟨-, rfl⟩
  · exact ⟨fr, .refl hT.cursor fr, hT, rfl⟩
  · have hS : Ready p b (T.withSlot widestSlot) := ⟨hT.cursor, hT.bound, hT.imports⟩
    have e₁ : Executes link b T fr (T.withSlot widestSlot) fr :=
      ⟨.withSlot hT.cursor widestSlot, ⟨[], by simp, rfl⟩, fun _ _ => rfl⟩
    have e₂ : Executes link b (T.withSlot widestSlot) fr ((T.withSlot widestSlot).emitted
        (.store test.value T.function.slots.length) []) (fr.setSlot T.function.slots.length w) :=
      .emitted hS.cursor hS.bound rfl (by simp [Function.step, Builder.stmt, hw.value])
        fun _ _ => rfl
    exact ⟨_, e₁.trans e₂, hS.emitted _ _, rfl⟩

/-- The value that was left in a slot is read back. -/
theorem load_executes {M : Builder} {b : Nat} {fr : Frame} {slot : Ir.SlotId} {w : Word}
    (hc : M.cursor = .atEnd b) (hb : b < M.function.blocks.length) (hw : fr.slots slot = some w) :
    Executes link b M fr (M.emitted (.load w.type slot) [w.type])
      (fr.setValue M.function.values.length w) := by
  refine .emitted hc hb rfl ?_ fun v hv => by simp [Frame.setValue, Nat.ne_of_lt hv]
  simp only [Function.step, Builder.stmt, hw, Option.bind_eq_bind, Option.bind_some, if_true]
  rfl

/-- A run to an arm, through it and to the value that is read back at the join. -/
theorem Joins.goes {B X M : Builder} {b start join k : Nat} {slot : Ir.SlotId} {f : Function}
    {fr fr₁ fr₂ : Frame} {v : Value} {fault : Bool}
    (hl : f.Leads link k (f.rest B b) fr (f.block start) fr₁)
    (hk : B.function.blocks.length + k < X.function.blocks.length)
    (hkept : ∀ x, x < B.function.values.length → fr₁.values x = fr.values x)
    (hj : Joins link f X start fr₁ join slot M.function.blocks.length v fault fr₂)
    (hX : B.Extends X) (hM : X.Extends M) (hempty : M.function.block join = [])
    (hb : join < M.function.blocks.length)
    (hf : Covers f (M.enter join) join
      ((M.enter join).emitted (.load v.word.type slot) [v.word.type])) :
    ∃ fr', Goes link f B b fr ((M.enter join).emitted (.load v.word.type slot) [v.word.type]) join
        fr' ∧
      Holds ((M.enter join).emitted (.load v.word.type slot) [v.word.type]) fr'
        M.function.values.length v.word ∧ fr'.faulted = fr₂.faulted := by
  have e : Executes link join (M.enter join) fr₂ _ _ := load_executes rfl hb hj.slot
  obtain ⟨k', hk', hl'⟩ := hj.leads
  have hl'' := e.leads hf
  rw [Function.rest_of_nil (B := M.enter join) hempty] at hl''
  refine ⟨_, ⟨⟨k + (k' + 1) + 0, ?_, (hl.trans hl').trans hl''⟩, fun x hx => ?_⟩, ?_, rfl⟩
  · rw [Builder.emitted_length, Builder.enter_function]
    omega
  · have hx' := Nat.lt_of_lt_of_le hx hX.values.length_le
    rw [e.kept x (Nat.lt_of_lt_of_le hx' hM.values.length_le), hj.kept x hx', hkept x hx]
  · exact .new (M.enter join) fr₂ _ v.word

/-- A run through the arm that a test chooses. -/
theorem arms_join {thenArm elseArm : Lower TypedValue} {r₁ r₂ : Except Abort Value}
    {names : List String} {B T P D A C : Builder} {parked : Option Ir.SlotId}
    {condition : Ir.ValueId} {u w : TypedValue} {b testEnd thenEnd elseEnd size : Nat}
    {f : Function} (ha : Simulates p link thenArm r₁) (he : Simulates p link elseArm r₂)
    (hai : Imports p names thenArm)
    (L : Layout B b T P D A C parked condition u.value w.value testEnd thenEnd elseEnd)
    (h₁ : Builds thenArm (D.branched condition B.function.blocks.length) u A)
    (h₂ : Builds elseArm ((A.left parked u.value (B.function.blocks.length + 3)).enter
      (B.function.blocks.length + 2)) w C)
    (htype : u.type = w.type) (hD : Ready p testEnd D)
    (hf : Covers f B b
      (A.joined C parked size u.value w.value (B.function.blocks.length + 3)).2)
    (t : Bool) (fr : Frame) :
    ∃ v fault fr', Joins link f (D.branched condition B.function.blocks.length)
        (if t then B.function.blocks.length + 1 else B.function.blocks.length + 2) fr
        (B.function.blocks.length + 3)
        (A.joined C parked size u.value w.value (B.function.blocks.length + 3)).1
        C.function.blocks.length v fault fr' ∧
      v.type = u.type ∧ Agrees (if t then r₁ else r₂) v fault := by
  have hlen := L.lengths
  have hends := L.ends
  have hX : Ready p (B.function.blocks.length + 1)
      (D.branched condition B.function.blocks.length) :=
    ⟨rfl, by simp [Builder.branched]; omega, hD.imports⟩
  have hleft := Builder.left_grown L.thenArm.cursor L.thenArm.bound parked u.value
    (B.function.blocks.length + 3)
  cases t with
  | true =>
      have hrun := ha _ _ _ _ _ h₁ hX L.branched_numbered L.thenArm.cursor f fr
        (L.covers_thenArm size hf)
      obtain ⟨m, n, hblock⟩ := L.block_thenEnd size
      obtain ⟨v, fault, fr', hj, hv⟩ := hrun.joins L.block_thenStart (L.join_lt size hf)
        ⟨m, n, hblock ▸ hf.block thenEnd (by omega)⟩
      exact ⟨v, fault, fr', hj.mono (.refl _) hlen.2.2.2, hv⟩
  | false =>
      have hA := h₁.ready hX hai L.thenArm
      have hE : Ready p (B.function.blocks.length + 2)
          ((A.left parked u.value (B.function.blocks.length + 3)).enter
            (B.function.blocks.length + 2)) := by
        refine ⟨rfl, ?_, ?_⟩
        · have := hleft.length
          rw [Builder.enter_function]
          omega
        · rw [Builder.ImportsFrom, Builder.enter_function, left_imports]
          exact hA.imports
      have hrun := he _ _ _ _ _ h₂ hE L.left_numbered L.elseArm.cursor f fr
        (L.covers_elseArm size hf)
      obtain ⟨m, n, hblock⟩ := L.block_elseEnd size
      obtain ⟨v, fault, fr', hj, hv⟩ := hrun.joins L.block_elseStart (L.join_lt size hf)
        ⟨m, n, hblock ▸ hf.block elseEnd (by omega)⟩
      rw [htype]
      exact ⟨v, fault, fr', hj.mono ((L.thenArm.grown.toExtends.trans hleft.toExtends).trans
        (.enter _ _)) (Nat.le_refl _), hv⟩

theorem Simulates.conditional {form : ConditionalForm} {testSpan thenSpan : Span}
    {test thenArm elseArm : Lower TypedValue} {r₀ r₁ r₂ : Except Abort Value}
    {names names' : List String}
    (ht : Simulates p link test r₀) (ha : Simulates p link thenArm r₁)
    (he : Simulates p link elseArm r₂) (hti : Imports p names test) (hai : Imports p names' thenArm)
    (htr : Regional test) (har : Regional thenArm) (her : Regional elseArm) :
    Simulates p link (Lower.conditional form testSpan thenSpan test thenArm elseArm)
      (do if (← r₀).isTrue then r₁ else r₂) := by
  intro B tv B' b b' h hB hn hc f fr hf
  obtain ⟨t, T, parked, P, condition, D, u, A, w, C, testEnd, thenEnd, elseEnd, L, h₁, h₂, h₃, h₄,
    h₅, htype, rfl, rfl⟩ := h.layout htr har her hB.cursor hB.bound hn
  obtain rfl : b' = B.function.blocks.length + 3 := atEnd_inj rfl hc
  have hlen := L.lengths
  have hjoin : B.function.blocks.length + 3 < (A.joined C parked u.type.byteSize u.value w.value
      (B.function.blocks.length + 3)).2.function.blocks.length := by
    rw [L.joined_length]
    omega
  have hload := Inline.emitted (B := (A.joined C parked u.type.byteSize u.value w.value
    (B.function.blocks.length + 3)).2.enter (B.function.blocks.length + 3)) rfl hjoin
    (.load u.type.machineType (A.joined C parked u.type.byteSize u.value w.value
      (B.function.blocks.length + 3)).1) rfl [u.type.machineType]
  have hM : Covers f B b (A.joined C parked u.type.byteSize u.value w.value
      (B.function.blocks.length + 3)).2 :=
    hf.init ((Builder.Extends.enter _ _).trans hload.grown.toExtends) hload.grown.block_isPrefix
  -- the test, its truth, the chosen arm and the value read back
  have hO : Ready p B.function.blocks.length B.opened := ⟨rfl, by simp, hB.imports⟩
  obtain ⟨v₀, fault₀, fr₁, g₁, hv₀, ht₀, hf₁, hr₀⟩ := ht _ _ _ _ _ h₁ hO L.opened_numbered
    L.test.cursor f fr (L.covers_test _ hM)
  obtain ⟨fr₂, e₂, hP, hf₂⟩ := parkTest_executes h₂ (h₁.ready hO hti L.test) hv₀
  obtain ⟨impl, himpl, rfl, rfl⟩ := h₃.unary
  rw [← ht₀] at himpl
  obtain ⟨fr₃, e₃, hD, hcond, hf₃⟩ := runs_boolify hP himpl (hv₀.kept e₂)
  obtain ⟨v, fault, fr₄, hj, hvt, hr⟩ := arms_join ha he hai L h₄ h₅ htype hD hM v₀.isTrue fr₃
  have hword : v.word.type = u.type.machineType := by rw [v.word_type, hvt]
  obtain ⟨k, hk, hl⟩ := g₁.leads
  have hrun := ((L.leads_test _ hM fr).trans hl).trans
    (((e₂.trans e₃).leads (L.covers_decided _ hM)).trans (L.leads_arm _ hM hcond.value))
  have hcount : B.function.blocks.length + (1 + k + (0 + 1)) <
      ((impl.code t.value P).2.branched (impl.code t.value P).1
        B.function.blocks.length).function.blocks.length := by
    rw [Builder.opened_length] at hk
    simp only [Builder.branched, Builder.enter_function, Builder.emitted_length]
    omega
  have hopen := (Builder.opened_grown L.cursor L.bound).toExtends
  have hkept : ∀ x, x < B.function.values.length → fr₃.values x = fr.values x := by
    intro x hx
    have hx := Nat.lt_of_lt_of_le hx hopen.values.length_le
    rw [(e₂.trans e₃).kept x (Nat.lt_of_lt_of_le hx L.test.grown.values.length_le), g₁.kept x hx]
  rw [← L.joined_length u.type.byteSize] at hj
  rw [← hword] at hf ⊢
  obtain ⟨fr₅, g, hv, hf₅⟩ := Joins.goes hrun hcount hkept hj
    (hopen.trans L.grown_opened_branched.toExtends)
    (L.grown_branched_joined _).toExtends (L.block_join _) hjoin
    ⟨fun c hc => hf.block c (Or.inr (by
      rcases hc with rfl | hc
      · exact Nat.le_add_right _ 3
      · exact Nat.le_trans (Nat.le_add_right _ 3) (Nat.le_of_lt (Nat.lt_of_lt_of_le hjoin hc)))),
      hf.imports, hf.length⟩
  refine ⟨v, fault₀ || fault, fr₅, g, hv, hvt, ?_, hr₀.bind hr⟩
  rw [hf₅, hj.faulted, hf₃, hf₂, hf₁, Bool.or_false, Bool.or_assoc]

/-! ## Expressions and statements -/

theorem expression_simulates (hlink : Linked p link call) :
    ∀ node : Node, Simulates p link (expression p node) (node.eval call)
  | .literal _ l => by
      rw [expression, Node.eval]
      exact literal_simulates l
  | .name _ _ => by
      intro B tv B' b b' h
      rw [expression] at h
      exact absurd h not_builds_bareName
  | .function _ _ _ _ => by
      intro B tv B' b b' h
      rw [expression] at h
      exact absurd h not_builds_fail
  | .binary _ op lhs rhs => by
      intro B tv B' b b' h hB hn hc f fr hf
      rw [expression] at h
      obtain ⟨x, B₁, h₁, h⟩ := h.bind
      obtain ⟨y, B₂, h₂, h⟩ := h.bind
      obtain ⟨b₁, r₁⟩ := expression_regional p lhs B x B₁ b h₁ hB.cursor hB.bound hn
      have hn₁ := r₁.grown.numbered hn
      obtain ⟨b₂, r₂⟩ := expression_regional p rhs B₁ y B₂ b₁ h₂ r₁.cursor r₁.bound hn₁
      have r₃ := Region.of_inline (binary_inline h r₂.cursor r₂.bound) r₂.bound
      obtain rfl := atEnd_inj r₃.cursor hc
      have hB₁ := h₁.ready hB (expression_imports p lhs) r₁
      have hB₂ := h₂.ready hB₁ (expression_imports p rhs) r₂
      -- the left operand is kept while the right one is computed
      obtain ⟨u, fault₁, fr₁, g₁, hu, hut, hf₁, hr₁⟩ := expression_simulates hlink lhs B x B₁ b b₁
        h₁ hB hn r₁.cursor f fr (hf.first (r₂.trans r₃))
      obtain ⟨v, fault₂, fr₂, g₂, hv, hvt, hf₂, hr₂⟩ := expression_simulates hlink rhs B₁ y B₂ b₁ b'
        h₂ hB₁ hn₁ r₂.cursor f fr₁ ((hf.second r₁).first r₃)
      rw [Node.eval]
      refine g₁.ends r₁.grown.toExtends hf₁ hr₁ (g₂.ends r₂.grown.toExtends hf₂ hr₂ ?_)
      exact binary_ends h hlink hB₂ (hu.mono r₂.grown.toExtends g₂.kept) hut hv hvt
        (hf.second (r₁.trans r₂))
  | .negate _ operand => by
      intro B tv B' b b' h hB hn hc f fr hf
      rw [expression] at h
      obtain ⟨x, B₁, h₁, h⟩ := h.bind
      obtain ⟨b₁, r₁⟩ := expression_regional p operand B x B₁ b h₁ hB.cursor hB.bound hn
      have r₂ := Region.of_inline (unary_inline h r₁.cursor r₁.bound) r₁.bound
      obtain rfl := atEnd_inj r₂.cursor hc
      obtain ⟨u, fault, fr₁, g, hu, hut, hf₁, hr⟩ := expression_simulates hlink operand B x B₁ b b'
        h₁ hB hn r₁.cursor f fr (hf.first r₂)
      rw [Node.eval]
      refine g.ends r₁.grown.toExtends hf₁ hr ?_
      exact negate_ends h (h₁.ready hB (expression_imports p operand) r₁) hu hut (hf.second r₁)
  | .conditional _ _ test thenArm elseArm => by
      rw [expression, Node.eval]
      exact .conditional (expression_simulates hlink test) (expression_simulates hlink thenArm)
        (expression_simulates hlink elseArm) (expression_imports p test)
        (expression_imports p thenArm) (expression_regional p test) (expression_regional p thenArm)
        (expression_regional p elseArm)
  | .call span callee args => by
      rw [expression]
      exact call_simulates hlink span callee args

theorem statements_simulates (hlink : Linked p link call) :
    ∀ nodes : List Node, Simulates p link (statements p nodes) (Node.evalAll call nodes)
  | [] => by
      intro B tv B' b b' h hB _ hc f fr hf
      obtain ⟨v, B₁, h₁, h⟩ := Builds.bind h
      obtain ⟨rfl, rfl⟩ := h.pure
      obtain ⟨rfl, rfl⟩ := h₁.build
      obtain rfl := atEnd_inj hB.cursor hc
      exact (Ir.Computes.of_runs (.signed 0) (.iconst hB .w64 0) rfl).ends hf
  | [node] => expression_simulates hlink node
  | node :: next :: rest => by
      intro B tv B' b b' h hB hn hc f fr hf
      obtain ⟨x, B₁, h₁, h⟩ := Builds.bind h
      obtain ⟨b₁, r₁⟩ := expression_regional p node B x B₁ b h₁ hB.cursor hB.bound hn
      have hB₁ := h₁.ready hB (expression_imports p node) r₁
      have hn₁ := r₁.grown.numbered hn
      obtain ⟨b₂, r₂⟩ := statements_regional p (next :: rest) B₁ tv B' b₁ h r₁.cursor r₁.bound hn₁
      obtain ⟨u, fault, fr₁, g, -, -, hf₁, hr⟩ := expression_simulates hlink node B x B₁ b b₁ h₁ hB
        hn r₁.cursor f fr (hf.first r₂)
      exact g.ends r₁.grown.toExtends hf₁ hr (statements_simulates hlink (next :: rest) B₁ tv B' b₁
        b' h hB₁ hn₁ hc f fr₁ (hf.second r₁))

end Lower

/-! ## Routines -/

section Finished

variable {name : String} {E : Builder} {e : Nat} (hE : Region (.prepared name) 1 E e)
  (v : Ir.ValueId) (ty : MachineType) (size : Nat)
include hE

theorem finished_covers : Covers (E.finished v ty size).function (.prepared name) 1 E where
  block := by
    intro c hc
    rw [Builder.prepared_length] at hc
    rw [finished_block hE v ty size c, if_neg (by omega)]
    split
    · rename_i he
      rw [he]
      exact List.prefix_append _ _
    · rw [if_neg (by omega)]
  imports := List.prefix_rfl
  length := by simp

/-- From the body's end, a finished routine returns the result. -/
theorem finished_resume {fr : Frame} {w : Word} (hv : fr.values v = some w) (ht : w.type = ty)
    (fuel : Nat) :
    (E.finished v ty size).function.resume link (fuel + 1)
      ((E.finished v ty size).function.rest E e) fr = some ⟨[w], fr.faulted⟩ := by
  have hb := bodyEnd_bounds hE
  have hblock := finished_block hE v ty size
  have hrest : (E.finished v ty size).function.rest E e =
      [⟨E.count + 1, [], .store v E.function.slots.length⟩, ⟨E.count + 2, [], .jump 2⟩] := by
    rw [Function.rest, hblock e, if_neg (by omega), if_pos rfl, List.drop_left]
  have hlast : (E.finished v ty size).function.block 2 =
      [⟨E.count + 3, [E.function.values.length], .load ty E.function.slots.length⟩,
        ⟨E.count + 4, [], .ret [E.function.values.length]⟩] := by
    rw [hblock 2, if_neg (by omega), if_neg (by omega), if_pos rfl]
  have hstore : (E.finished v ty size).function.runCode link
      [⟨E.count + 1, [], .store v E.function.slots.length⟩] fr =
      some (fr.setSlot E.function.slots.length w) := by
    simp [Function.runCode, Function.step, hv]
  have hleads := (Function.Leads.code hstore [⟨E.count + 2, [], .jump 2⟩]).trans
    (.goto rfl (by rw [Builder.finished_length]; omega) [])
  rw [hrest]
  refine (hleads fuel).trans ?_
  rw [hlast]
  simp [Function.resume, Function.runBlock, Function.step, Frame.setSlot, Frame.setValues?,
    Frame.setValue, ht]

end Finished

/-- A lowered routine runs to its end and does what its statements mean. -/
theorem Routine.run_lowered (hlink : Linked p link call) {types : TypeTable} {name : String}
    {anonymous : Bool} {nodes : List Node} {r : Routine}
    (h : (Routine.lower p types name anonymous nodes).1 = .ok r) :
    ∃ v fault, r.code.run link = some ⟨[Value.word v], fault⟩ ∧ v.type = r.returnType ∧
      Agrees (Node.evalAll call nodes) v fault := by
  have hsig := Routine.lower_signature h
  obtain ⟨tv, E, hb, rfl⟩ := Routine.lower_ok h
  obtain ⟨e, hE⟩ := statements_region hb
  have hready : Ready p 1 (.prepared name) := ⟨rfl, by simp, fun _ hi => nomatch hi⟩
  obtain ⟨v, fault, fr, g, hv, htype, hfault, hr⟩ := Lower.statements_simulates hlink nodes _ _ _ 1
    e hb hready (prepared_numbered name) hE.cursor _ .start
    (finished_covers hE tv.value tv.type.machineType tv.type.byteSize)
  refine ⟨v, fault, ?_, htype, hr⟩
  obtain ⟨k, hk, hl⟩ := g.leads
  rw [Builder.prepared_length] at hk
  have hlen := Builder.finished_length E tv.value tv.type.machineType tv.type.byteSize
  have hentry := finished_block hE tv.value tv.type.machineType tv.type.byteSize 0
  rw [if_pos rfl] at hentry
  -- one block more for the entry, one for the body's start and one for the end
  obtain ⟨fuel, hfuel⟩ : ∃ fuel, E.function.blocks.length = fuel + 1 + k + 1 + 1 :=
    ⟨E.function.blocks.length - 3 - k, by omega⟩
  generalize hf : (E.finished tv.value tv.type.machineType tv.type.byteSize).function = f at *
  have hend : f.resume link (fuel + 1) (f.rest E e) fr = some ⟨[v.word], fr.faulted⟩ :=
    hf ▸ finished_resume hE tv.value tv.type.machineType tv.type.byteSize hv.value
      (by rw [v.word_type, htype]) fuel
  calc f.run link = f.runFrom link f.blocks.length 0 .start := by
        rw [Function.run, show f.signature = _ from hsig]
        rfl
    _ = f.resume link (fuel + 1 + k + 1) (f.block 0) .start := by
        rw [hlen, hfuel, Function.runFrom_succ (by omega)]
    _ = f.resume link (fuel + 1 + k) (f.block 1) .start := by
        rw [hentry]
        exact Function.Leads.goto rfl (by omega) [] _
    _ = f.resume link (fuel + 1) (f.rest E e) fr := by
        rw [← Function.rest_of_nil (prepared_block name 1)]
        exact hl (fuel + 1)
    _ = some ⟨[v.word], fault⟩ := by rw [hend, hfault]; rfl

end ScalarLang
