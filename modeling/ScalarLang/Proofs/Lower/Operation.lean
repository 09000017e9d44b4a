import Mathlib
import ScalarLang.Proofs.Ir.Execution
import ScalarLang.Proofs.Ir.WellBuilt
import ScalarLang.Proofs.Semantics.Evaluator

/-
  What the code of an operation computes.
  `Runs` is a triple for building steps: the code that the step makes, run on the frame at hand,
  establishes the postcondition, keeps the values that were there and adds a fault or none. Each
  instruction has its rule; the code of an operator is taken through them one after the other and
  comes to what the operator does to values.
-/

namespace ScalarLang

namespace Word

theorem isTrue?_ofBool (t : Bool) : (ofBool t).isTrue? = some t := by cases t <;> rfl

theorem apply_band_ofBool (s t : Bool) :
    Ir.BinaryOpcode.band.apply (ofBool s) (ofBool t) = some (ofBool (s && t)) := by
  cases s <;> cases t <;> rfl

end Word

theorem Ir.Constant.type_word? {c : Constant} {w : Word} (h : c.word? = some w) :
    w.type = c.type := by
  cases c with
  | int ty imm => cases ty <;> cases h <;> rfl
  | f32 x | f64 x => cases h; rfl

/-! ## Integers of every width -/

/-- The number that bits stand for. -/
def IntWidth.read (width : IntWidth) (signed : Bool) (x : BitVec width.bits) : Int :=
  if signed then x.toInt else x.toNat

namespace Word

/-- The word of some bits. -/
def int : (width : IntWidth) → BitVec width.bits → Word
  | .w8, x => .i8 x
  | .w16, x => .i16 x
  | .w32, x => .i32 x
  | .w64, x => .i64 x

variable (width : IntWidth) (x y : BitVec width.bits)

theorem type_int : (int width x).type = width.machineType := by cases width <;> rfl

theorem mapInts_int (f : {n : Nat} → BitVec n → BitVec n → Option (BitVec n)) :
    mapInts f (int width x) (int width y) = (f x y).map (int width) := by
  cases width <;> rfl

theorem compareInts_int (cc : IntCC) :
    compareInts cc (int width x) (int width y) = some (ofBool (cc.holds x y)) := by
  cases width <;> rfl

theorem ofInt?_machineType (n : Int) :
    ofInt? width.machineType n = some (int width (BitVec.ofInt width.bits n)) := by
  cases width <;> rfl

theorem extend?_int (signed : Bool) :
    (int width x).extend? signed .i64 = some (.i64 (BitVec.ofInt 64 (width.read signed x))) := by
  cases width <;> cases signed <;> rfl

/-- Widening makes no number zero that was not. -/
theorem widened_eq_zero (signed : Bool) :
    (BitVec.ofInt 64 (width.read signed x) == 0#64) = (x == 0#(width.bits)) := by
  have hbits : width.bits ≤ 64 := by cases width <;> decide
  rw [Bool.eq_iff_iff, beq_iff_eq, beq_iff_eq]
  cases signed with
  | true =>
      have hwide : BitVec.ofInt 64 (width.read true x) = x.signExtend 64 := rfl
      rw [hwide, ← BitVec.toInt_inj, BitVec.toInt_signExtend_of_le hbits, ← BitVec.toInt_inj]
      simp
  | false =>
      have hwide : BitVec.ofInt 64 (width.read false x) = x.setWidth 64 := by
        simp [IntWidth.read, BitVec.ofInt_natCast]
      rw [hwide, ← BitVec.toNat_inj, BitVec.toNat_setWidth_of_le hbits, ← BitVec.toNat_inj]
      simp

theorem setWidth_one : (1 : BitVec 64).setWidth width.bits = 1#(width.bits) := by
  cases width <;> rfl

theorem setWidth_least : (1#64 <<< (width.machineType.bits - 1)).setWidth width.bits =
    BitVec.intMin width.bits := by
  cases width <;> rfl

theorem setWidth_minusOne : (if 64 ≤ width.machineType.bits then BitVec.allOnes 64
    else (1#64 <<< width.machineType.bits) - 1).setWidth width.bits = -1#(width.bits) := by
  cases width <;> rfl

theorem divSigned?_one : divSigned? x 1#(width.bits) = some x := by
  have h₀ : ¬ 1#(width.bits) = 0 := by cases width <;> decide
  have h₁ : ¬ 1#(width.bits) = BitVec.allOnes width.bits := by cases width <;> decide
  rw [divSigned?, if_neg (by simp only [h₀, h₁, and_false, or_self, not_false_eq_true]),
    BitVec.sdiv_one]

theorem divUnsigned?_one : divUnsigned? x 1#(width.bits) = some x := by
  have h₀ : ¬ 1#(width.bits) = 0 := by cases width <;> decide
  rw [divUnsigned?, if_neg h₀]
  exact congrArg some BitVec.udiv_one

variable {width x y}

theorem divSigned?_of_fits (hy : y ≠ 0#(width.bits))
    (ho : ¬ (x = BitVec.intMin width.bits ∧ y = -1#(width.bits))) :
    divSigned? x y = some (x.sdiv y) := by
  rw [BitVec.neg_one_eq_allOnes] at ho
  exact if_neg fun h => h.elim hy ho

variable (x y)

/-- Division by what a divisor is replaced with has a result, and only a zero divisor makes it
    another one. -/
theorem apply_sdiv_guarded :
    Ir.BinaryOpcode.sdiv.apply (int width x) (int width
      (if x == BitVec.intMin width.bits && y == -1#(width.bits) then 1#(width.bits)
        else if y == 0#(width.bits) then 1#(width.bits) else y)) =
      some (int width (if y = 0#(width.bits) then x else x.sdiv y)) := by
  rw [Ir.BinaryOpcode.apply, mapInts_int]
  by_cases hy : y = 0#(width.bits)
  · subst hy
    simp [divSigned?_one]
  · by_cases ho : x = BitVec.intMin width.bits ∧ y = -1#(width.bits)
    · obtain ⟨rfl, rfl⟩ := ho
      rw [if_neg hy, BitVec.intMin_sdiv_neg_one]
      simp [divSigned?_one]
    · have hcond : (x == BitVec.intMin width.bits && y == -1#(width.bits)) = false := by
        simpa using ho
      rw [hcond, beq_false_of_ne hy, if_neg hy]
      simp [divSigned?_of_fits hy ho]

theorem apply_udiv_guarded :
    Ir.BinaryOpcode.udiv.apply (int width x)
      (int width (if y == 0#(width.bits) then 1#(width.bits) else y)) =
      some (int width (if y = 0#(width.bits) then x else x.udiv y)) := by
  rw [Ir.BinaryOpcode.apply, mapInts_int]
  by_cases hy : y = 0#(width.bits)
  · subst hy
    simp [divUnsigned?_one]
  · rw [beq_false_of_ne hy, if_neg hy]
    simp [divUnsigned?, hy]

end Word

namespace Ir

variable {p : Program} {link : Linkage} {b : Nat} {B B' : Builder} {fr fr' : Frame} {v : ValueId}
  {w : Word}

/-- The builder is at the end of block `b`, and its imports have the signatures of what they stand
    for in the program. -/
structure Ready (p : Program) (b : Nat) (B : Builder) : Prop where
  cursor : B.cursor = .atEnd b
  bound : b < B.function.blocks.length
  imports : B.ImportsFrom p

theorem Ready.emitted (h : Ready p b B) (inst : Inst) (types : List MachineType) :
    Ready p b (B.emitted inst types) :=
  ⟨h.cursor, by simpa using h.bound, h.imports⟩

theorem Ready.imported (h : Ready p b B) {index : Nat} {signature : Signature}
    (hs : p.signatureAt? index = some signature) : Ready p b (B.imported index signature).2 := by
  have himports := h.imports.imported hs
  obtain ⟨added, he, -⟩ := B.imported_snd index signature
  rw [he] at himports ⊢
  exact ⟨h.cursor, h.bound, himports⟩

/-- The value holds the word and has its type. -/
structure Holds (B : Builder) (fr : Frame) (v : ValueId) (w : Word) : Prop where
  value : fr.values v = some w
  type : B.function.values[v]? = some w.type

theorem Holds.mono (h : Holds B fr v w) (hx : B.Extends B')
    (hk : ∀ u, u < B.function.values.length → fr'.values u = fr.values u) : Holds B' fr' v w where
  value := by rw [hk v (List.getElem?_eq_some_iff.mp h.type).1, h.value]
  type := hx.getElem?_values h.type

theorem Holds.kept (h : Holds B fr v w) (e : Executes link b B fr B' fr') : Holds B' fr' v w :=
  h.mono e.inline.grown.toExtends e.kept

theorem Holds.typeOf (h : Holds B fr v w) : B.typeOf v = w.type := by
  rw [Builder.typeOf, h.type, Option.getD_some]

theorem Holds.new (B : Builder) (fr : Frame) (inst : Inst) (w : Word) :
    Holds (B.emitted inst [w.type]) (fr.setValue B.function.values.length w)
      B.function.values.length w :=
  ⟨by simp [Frame.setValue], by simp⟩

/-! ## Building steps as code -/

/-- Running the code that the step makes establishes `Q` and adds the fault, if it is one. -/
def Runs {α : Type} (p : Program) (link : Linkage) (b : Nat) (x : Build α) (B : Builder)
    (fr : Frame) (fault : Bool) (Q : Builder → Frame → α → Prop) : Prop :=
  ∃ fr', Executes link b B fr (x B).2 fr' ∧ Ready p b (x B).2 ∧ Q (x B).2 fr' (x B).1 ∧
    fr'.faulted = (fr.faulted || fault)

namespace Runs

variable {α β : Type} {a c : ValueId} {x y z : Word}

theorem pure (h : Ready p b B) {a : α} {Q : Builder → Frame → α → Prop} (hQ : Q B fr a) :
    Runs p link b (pure a) B fr false Q :=
  ⟨fr, .refl h.cursor fr, h, hQ, by simp⟩

theorem bind {x : Build α} {f : α → Build β} {fault fault' : Bool} {Q : Builder → Frame → α → Prop}
    {Q' : Builder → Frame → β → Prop} (h : Runs p link b x B fr fault Q)
    (h' : ∀ a B' fr', Executes link b B fr B' fr' → Ready p b B' → Q B' fr' a →
      Runs p link b (f a) B' fr' fault' Q') :
    Runs p link b (x >>= f) B fr (fault || fault') Q' := by
  obtain ⟨fr₁, e₁, r₁, q₁, hf₁⟩ := h
  obtain ⟨fr₂, e₂, r₂, q₂, hf₂⟩ := h' _ _ _ e₁ r₁ q₁
  exact ⟨fr₂, e₁.trans e₂, r₂, q₂, by rw [hf₂, hf₁, Bool.or_assoc]⟩

/-- A step without fault before other code. -/
theorem next {x : Build α} {f : α → Build β} {fault : Bool} {Q : Builder → Frame → α → Prop}
    {Q' : Builder → Frame → β → Prop} (h : Runs p link b x B fr false Q)
    (h' : ∀ a B' fr', Executes link b B fr B' fr' → Ready p b B' → Q B' fr' a →
      Runs p link b (f a) B' fr' fault Q') : Runs p link b (x >>= f) B fr fault Q' := by
  simpa using h.bind h'

theorem typeOf (h : Ready p b B) (ha : Holds B fr a x) :
    Runs p link b (Build.typeOf a) B fr false fun _ _ ty => ty = x.type :=
  ⟨fr, .refl h.cursor fr, h, ha.typeOf, by simp⟩

theorem value (h : Ready p b B) {inst : Inst} (hw : inst.compute? fr.values = some w) :
    Runs p link b (Build.value inst w.type) B fr false (Holds · · · w) :=
  ⟨_, .value h.cursor h.bound hw w.type, h.emitted _ _, .new B fr inst w, by simp [Frame.setValue]⟩

theorem const (h : Ready p b B) {c : Constant} (hw : c.word? = some w) :
    Runs p link b (Build.const c) B fr false (Holds · · · w) := by
  have hrun : Runs p link b (Build.value (.const c) w.type) B fr false (Holds · · · w) := value h hw
  rwa [Constant.type_word? hw] at hrun

theorem iconst (h : Ready p b B) (width : IntWidth) (imm : BitVec 64) :
    Runs p link b (Build.iconst width.machineType imm) B fr false
      (Holds · · · (.int width (imm.setWidth width.bits))) := by
  refine const h ?_
  rw [Constant.word?, Word.ofInt?_machineType, BitVec.ofInt_natCast, BitVec.ofNat_toNat]

theorem binary (h : Ready p b B) (ha : Holds B fr a x) (hc : Holds B fr c y) {op : BinaryOpcode}
    (hw : op.apply x y = some w) (ht : x.type = w.type) :
    Runs p link b (Build.binary op a c) B fr false (Holds · · · w) := by
  refine (typeOf h ha).next fun ty B₁ fr₁ e r hty => ?_
  rw [hty, ht]
  exact value r (by simp [Inst.compute?, (ha.kept e).value, (hc.kept e).value, hw])

theorem unary (h : Ready p b B) (ha : Holds B fr a x) {op : UnaryOpcode} (hw : op.apply x = some w)
    (ht : x.type = w.type) : Runs p link b (Build.unary op a) B fr false (Holds · · · w) := by
  refine (typeOf h ha).next fun ty B₁ fr₁ e r hty => ?_
  rw [hty, ht]
  exact value r (by simp [Inst.compute?, (ha.kept e).value, hw])

theorem extend (h : Ready p b B) (ha : Holds B fr a x) {signed : Bool} {ty : MachineType}
    (hw : x.extend? signed ty = some w) (ht : w.type = ty) :
    Runs p link b (Build.extend signed ty a) B fr false (Holds · · · w) := by
  subst ht
  exact value h (by simp [Inst.compute?, ha.value, hw])

theorem icmp (h : Ready p b B) (ha : Holds B fr a x) (hc : Holds B fr c y) {cc : IntCC} {t : Bool}
    (hw : Word.compareInts cc x y = some (.ofBool t)) :
    Runs p link b (Build.icmp cc a c) B fr false (Holds · · · (.ofBool t)) := by
  have hi : (Inst.icmp cc a c).compute? fr.values = some (.ofBool t) := by
    simp [Inst.compute?, ha.value, hc.value, hw]
  exact value h hi

theorem icmpImm (h : Ready p b B) (width : IntWidth) {u : BitVec width.bits}
    (ha : Holds B fr a (.int width u)) (cc : IntCC) (imm : Int) :
    Runs p link b (Build.icmpImm cc a imm) B fr false
      (Holds · · · (.ofBool (cc.holds u (BitVec.ofInt width.bits imm)))) := by
  have hi : (Inst.icmpImm cc a imm).compute? fr.values =
      some (.ofBool (cc.holds u (BitVec.ofInt width.bits imm))) := by
    simp [Inst.compute?, ha.value, Word.type_int, Word.ofInt?_machineType, Word.compareInts_int]
  exact value h hi

theorem fcmp (h : Ready p b B) (ha : Holds B fr a x) (hc : Holds B fr c y) {cc : FloatCC} {t : Bool}
    (hw : Word.compareFloats cc x y = some (.ofBool t)) :
    Runs p link b (Build.fcmp cc a c) B fr false (Holds · · · (.ofBool t)) := by
  have hi : (Inst.fcmp cc a c).compute? fr.values = some (.ofBool t) := by
    simp [Inst.compute?, ha.value, hc.value, hw]
  exact value h hi

theorem select (h : Ready p b B) {d : ValueId} {t : Bool} (hd : Holds B fr d (.ofBool t))
    (ha : Holds B fr a x) (hc : Holds B fr c y) (ht : x.type = y.type) :
    Runs p link b (Build.select d a c) B fr false (Holds · · · (if t then x else y)) := by
  refine (typeOf h ha).next fun ty B₁ fr₁ e r hty => ?_
  have htype : ty = (if t then x else y).type := by cases t <;> simp [hty, ht]
  rw [htype]
  refine value r ?_
  cases t <;>
    simp [Inst.compute?, (hd.kept e).value, (ha.kept e).value, (hc.kept e).value,
      Word.isTrue?_ofBool]

end Runs

/-! ## Calls -/

theorem setValues?_kept {n k : Nat} {ws : List Word}
    (h : fr.setValues? (List.range' n k) ws = some fr') :
    (∀ u, u < n → fr'.values u = fr.values u) ∧ fr'.faulted = fr.faulted := by
  induction k generalizing n ws fr with
  | zero =>
      cases ws with
      | nil =>
          obtain rfl : fr = fr' := Option.some.inj h
          exact ⟨fun _ _ => rfl, rfl⟩
      | cons => cases h
  | succ k ih =>
      cases ws with
      | nil => cases h
      | cons w ws =>
          have hrest : (fr.setValue n w).setValues? (List.range' (n + 1) k) ws = some fr' := h
          obtain ⟨hk, hf⟩ := ih hrest
          refine ⟨fun u hu => ?_, hf⟩
          rw [hk u (Nat.lt_succ_of_lt hu)]
          simp [Frame.setValue, Nat.ne_of_lt hu]

theorem Executes.imported (h : B.cursor = .atEnd b) (index : Nat) (signature : Signature)
    (fr : Frame) : Executes link b B fr (B.imported index signature).2 fr := by
  refine ⟨.imported h index signature, ⟨[], ?_, rfl⟩, fun _ _ => rfl⟩
  obtain ⟨added, he, -⟩ := B.imported_snd index signature
  rw [he, List.append_nil]
  rfl

theorem Executes.call (h : Ready p b B) {callee : ImportId} {args : List ValueId} {ws : List Word}
    {i : Import} {out : Outcome} {fr₁ : Frame} (hi : B.function.imports[callee]? = some i)
    (hargs : args.mapM fr.values = some ws) (hlink : link i.index ws = some out)
    (hset : fr.setValues? (List.range' B.function.values.length i.signature.results.length)
      out.results = some fr₁) :
    Executes link b B fr (B.emitted (.call callee args) i.signature.results)
      { fr₁ with faulted := fr₁.faulted || out.faulted } := by
  refine .emitted h.cursor h.bound rfl ?_ (setValues?_kept hset).1
  simp only [Function.step, Builder.stmt, hi, hargs, hlink, hset, Option.bind_eq_bind,
    Option.bind_some, Option.pure_def]

namespace Runs

/-- A call of a built-in routine. -/
theorem callIntrinsic (hl : ∀ r : Intrinsic, link r.index = r.run) (h : Ready p b B)
    {r : Intrinsic} {args : List ValueId} {ws : List Word} {out : Outcome} {fr₁ : Frame}
    (hargs : args.mapM fr.values = some ws) (hrun : r.run ws = some out)
    (hset : fr.setValues? (List.range' B.function.values.length r.signature.results.length)
      out.results = some fr₁) :
    Runs p link b (Build.callIntrinsic r args) B fr out.faulted fun B' fr' v =>
      v = (List.range' B.function.values.length r.signature.results.length).head? ∧
        B'.function.values = B.function.values ++ r.signature.results ∧
        fr'.values = fr₁.values := by
  have hs := p.signatureAt?_intrinsic r
  have hi := h.imports.imported_fst hs
  have hvalues : (B.imported r.index r.signature).2.function.values = B.function.values := by
    obtain ⟨added, he, -⟩ := B.imported_snd r.index r.signature
    rw [he]
  have hf := (setValues?_kept hset).2
  have hlink : link r.index ws = some out := by rw [hl, hrun]
  rw [← hvalues] at hset
  have he := (Executes.imported h.cursor r.index r.signature fr).trans
    (.call (h.imported hs) hi hargs hlink hset)
  have happly : Build.callIntrinsic r args B =
      ((List.range' B.function.values.length r.signature.results.length).head?,
        (B.imported r.index r.signature).2.emitted (.call (B.imported r.index r.signature).1 args)
          r.signature.results) := by
    rw [← hvalues]
    exact Build.call_apply _ args _ hi
  rw [Runs, happly]
  exact ⟨_, he, (h.imported hs).emitted _ _, ⟨rfl, by simp [hvalues], rfl⟩, by simp [hf]⟩

theorem checkDivisor (hl : ∀ r : Intrinsic, link r.index = r.run) (h : Ready p b B) {a : ValueId}
    {y : BitVec 64} (ha : Holds B fr a (.i64 y)) :
    Runs p link b (Build.callIntrinsic .checkDivisor [a]) B fr (y == 0) fun _ _ _ => True := by
  have hargs : [a].mapM fr.values = some [.i64 y] := by simp [ha.value]
  have hrun : Intrinsic.checkDivisor.run [.i64 y] = some ⟨[], y == 0⟩ := rfl
  obtain ⟨fr', e, r, -, hf⟩ := callIntrinsic hl h hargs hrun rfl
  exact ⟨fr', e, r, trivial, hf⟩

theorem roundHalf (hl : ∀ r : Intrinsic, link r.index = r.run) (h : Ready p b B) {a : ValueId}
    {x : Binary .single} (ha : Holds B fr a (.f32 x)) :
    Runs p link b (Build.roundHalf a) B fr false (Holds · · · (.f32 x.roundHalf)) := by
  have hargs : [a].mapM fr.values = some [.f32 x] := by simp [ha.value]
  have hrun : Intrinsic.roundHalf.run [.f32 x] = some ⟨[.f32 x.roundHalf], false⟩ := rfl
  refine (callIntrinsic hl h hargs hrun rfl).bind fun v B' fr' e r ⟨hv, htypes, hvalues⟩ =>
    .pure r ?_
  obtain rfl : v = some B.function.values.length := hv
  refine ⟨?_, ?_⟩
  · rw [hvalues]
    simp [Frame.setValue]
  · rw [htypes]
    simp [Intrinsic.signature, Word.type]

/-! ## Division -/

section Division

variable (hl : ∀ r : Intrinsic, link r.index = r.run) (width : IntWidth) {x y : BitVec width.bits}
  {a c d o : ValueId}

/-- The divisor as the check takes it. -/
theorem widenDivisor (h : Ready p b B) (hc : Holds B fr c (.int width y)) (signed : Bool) :
    Runs p link b (Build.widenDivisor signed width.machineType c) B fr false
      (Holds · · · (.i64 (BitVec.ofInt 64 (width.read signed y)))) := by
  unfold Build.widenDivisor
  split
  · rename_i hwide
    cases width <;> cases hwide
    have hsame : BitVec.ofInt 64 (IntWidth.w64.read signed y) = y := Value.ofInt_integer signed y
    rw [hsame]
    exact .pure h hc
  · exact extend h hc (Word.extend?_int width y signed) rfl

/-- One of two integers. -/
theorem selectInt (h : Ready p b B) {t : Bool} {e : ValueId} (he : Holds B fr e (.ofBool t))
    (ha : Holds B fr a (.int width x)) (hc : Holds B fr c (.int width y)) :
    Runs p link b (Build.select e a c) B fr false
      (Holds · · · (.int width (if t then x else y))) := by
  rw [apply_ite (Word.int width)]
  exact select h he ha hc (by rw [Word.type_int, Word.type_int])

/-- The signed quotient, where the divisor is 1 also if the quotient does not fit. -/
theorem signedDiv (h : Ready p b B) (ha : Holds B fr a (.int width x))
    (hc : Holds B fr c (.int width y)) (ho : Holds B fr o (.int width 1#(width.bits)))
    (hd : Holds B fr d (.int width (if y == 0#(width.bits) then 1#(width.bits) else y))) :
    Runs p link b (do
      let least ← Build.iconst width.machineType (1#64 <<< (width.machineType.bits - 1))
      let minusOne ← Build.iconst width.machineType
        (if 64 ≤ width.machineType.bits then .allOnes 64 else (1#64 <<< width.machineType.bits) - 1)
      let lhsIsLeast ← Build.icmp .eq a least
      let rhsIsMinusOne ← Build.icmp .eq c minusOne
      let overflows ← Build.binary .band lhsIsLeast rhsIsMinusOne
      let divisor ← Build.select overflows o d
      Build.binary .sdiv a divisor) B fr false
        (Holds · · · (.int width (if y = 0#(width.bits) then x else x.sdiv y))) := by
  refine (iconst h width _).next fun v₁ B₁ fr₁ e₁ r₁ h₁ => ?_
  rw [Word.setWidth_least] at h₁
  refine (iconst r₁ width _).next fun v₂ B₂ fr₂ e₂ r₂ h₂ => ?_
  rw [Word.setWidth_minusOne] at h₂
  have e₂' := e₁.trans e₂
  refine (icmp r₂ (ha.kept e₂') (h₁.kept e₂) (Word.compareInts_int width _ _ _)).next
    fun v₃ B₃ fr₃ e₃ r₃ h₃ => ?_
  have e₃' := e₂'.trans e₃
  refine (icmp r₃ (hc.kept e₃') (h₂.kept e₃) (Word.compareInts_int width _ _ _)).next
    fun v₄ B₄ fr₄ e₄ r₄ h₄ => ?_
  have e₄' := e₃'.trans e₄
  refine (binary r₄ (h₃.kept e₄) h₄ (Word.apply_band_ofBool _ _) rfl).next
    fun v₅ B₅ fr₅ e₅ r₅ h₅ => ?_
  have e₅' := e₄'.trans e₅
  refine (selectInt width r₅ h₅ (ho.kept e₅') (hd.kept e₅')).next fun v₆ B₆ fr₆ e₆ r₆ h₆ => ?_
  refine binary r₆ (ha.kept (e₅'.trans e₆)) h₆ (Word.apply_sdiv_guarded x y) ?_
  rw [Word.type_int, Word.type_int]

include hl in
/-- Integer division reports a zero divisor and then gives the dividend. -/
theorem checkedDiv (h : Ready p b B) (ha : Holds B fr a (.int width x))
    (hc : Holds B fr c (.int width y)) (signed : Bool) :
    Runs p link b (Build.checkedDiv signed a c) B fr (y == 0#(width.bits)) (Holds · · ·
      (.int width (if y = 0#(width.bits) then x else if signed then x.sdiv y else x.udiv y))) := by
  unfold Build.checkedDiv
  refine (typeOf h hc).next fun ty B₁ fr₁ e₁ r₁ hty => ?_
  obtain rfl : ty = width.machineType := hty.trans (Word.type_int width y)
  refine (widenDivisor width r₁ (hc.kept e₁) signed).next fun v₂ B₂ fr₂ e₂ r₂ h₂ => ?_
  have e₂' := e₁.trans e₂
  rw [← Word.widened_eq_zero width y signed, ← Bool.or_false (_ == _)]
  refine (checkDivisor hl r₂ h₂).bind fun _ B₃ fr₃ e₃ r₃ _ => ?_
  have e₃' := e₂'.trans e₃
  refine (icmpImm r₃ width (hc.kept e₃') .eq 0).next fun v₄ B₄ fr₄ e₄ r₄ h₄ => ?_
  refine (iconst r₄ width 1).next fun v₅ B₅ fr₅ e₅ r₅ h₅ => ?_
  rw [Word.setWidth_one] at h₅
  have e₅' := (e₃'.trans e₄).trans e₅
  refine (selectInt width r₅ (h₄.kept e₅) h₅ (hc.kept e₅')).next fun v₆ B₆ fr₆ e₆ r₆ h₆ => ?_
  have e₆' := e₅'.trans e₆
  cases signed with
  | true => exact signedDiv width r₆ (ha.kept e₆') (hc.kept e₆') (h₅.kept e₆) h₆
  | false =>
      refine binary r₆ (ha.kept e₆') h₆ (Word.apply_udiv_guarded x y) ?_
      rw [Word.type_int, Word.type_int]

end Division

end Runs

/-- The code gives a value of type `ty` and agrees with `r`. -/
def Computes (p : Program) (link : Linkage) (b : Nat) (x : Build ValueId) (B : Builder) (fr : Frame)
    (ty : ScalarType) (r : Except Abort Value) : Prop :=
  ∃ w fault, Runs p link b x B fr fault (Holds · · · (Value.word w)) ∧ w.type = ty ∧
    Agrees r w fault

theorem Computes.of_runs {x : Build ValueId} {r : Except Abort Value} (w : Value)
    (h : Runs p link b x B fr false (Holds · · · w.word)) (hr : r = .ok w) :
    Computes p link b x B fr w.type r :=
  ⟨w, false, h, rfl, hr ▸ agrees_ok w⟩

theorem Computes.bits {x : Build ValueId} {r : Except Abort Value} {signed : Bool} {z : BitVec 64}
    (h : Runs p link b x B fr false (Holds · · · (.i64 z))) (hr : r = .ok (.ofBits signed z)) :
    Computes p link b x B fr (if signed then .i64 else .u64) r := by
  rw [← Value.ofBits_type signed z]
  exact of_runs _ (by rwa [Value.ofBits_word]) hr

theorem Computes.truth {x : Build ValueId} {r : Except Abort Value} {t : Bool}
    (h : Runs p link b x B fr false (Holds · · · (.ofBool t))) (hr : r = .ok (.boolean t)) :
    Computes p link b x B fr .boolean r :=
  of_runs (.boolean t) h hr

end Ir

/-! ## Operators -/

open Ir

variable {p : Program} {link : Linkage} {b : Nat} {B : Builder} {fr : Frame} {a c : ValueId}
  (hl : ∀ r : Intrinsic, link r.index = r.run) (h : Ready p b B)
include h

include hl in
theorem computes_integer (signed : Bool) (op : BinaryOp) {x y : BitVec 64} {ty : ScalarType}
    (ha : Holds B fr a (.i64 x)) (hc : Holds B fr c (.i64 y)) :
    Computes p link b ((BinaryImpl.ofInteger signed op).code ty a c) B fr
      ((BinaryImpl.ofInteger signed op).resultType (if signed then .i64 else .u64))
      (Value.binaryInteger signed op x y) := by
  have hcompare (cc : IntCC) : Runs p link b (Build.icmp cc a c) B fr false
      (Holds · · · (.ofBool (cc.holds x y))) := .icmp h ha hc rfl
  cases op with
  | add => exact .bits (.binary h ha hc rfl rfl) (congrArg _ (Value.wrap_add signed x y))
  | sub => exact .bits (.binary h ha hc rfl rfl) (congrArg _ (Value.wrap_sub signed x y))
  | mul => exact .bits (.binary h ha hc rfl rfl) (congrArg _ (Value.wrap_mul signed x y))
  | bitAnd => exact .bits (.binary h ha hc rfl rfl) rfl
  | bitOr => exact .bits (.binary h ha hc rfl rfl) rfl
  | bitXor => exact .bits (.binary h ha hc rfl rfl) rfl
  | shl => exact .bits (.binary h ha hc rfl rfl) (congrArg _ (Value.wrap_shiftLeft signed x _))
  | shr =>
      refine .bits (z := if signed then x.sshiftRight (y.toNat % 64) else x >>> (y.toNat % 64)) ?_
        (congrArg _ (Value.wrap_shiftRight signed x _))
      cases signed <;> exact .binary h ha hc rfl rfl
  | div =>
      have hdiv : Runs p link b (Build.checkedDiv signed a c) B fr (y == 0#64) (Holds · · ·
          (.i64 (if y = 0#64 then x else if signed then x.sdiv y else x.udiv y))) :=
        Runs.checkedDiv hl .w64 h ha hc signed
      have hzero := Value.integer_eq_zero signed y
      by_cases hy : y = 0#64
      · refine ⟨.ofBits signed x, true, ?_, Value.ofBits_type signed x, ?_⟩
        · rw [if_pos hy, beq_iff_eq.mpr hy] at hdiv
          rwa [Value.ofBits_word]
        · simp [Value.binaryInteger, hzero.mpr hy, Agrees]
      · rw [if_neg hy, beq_false_of_ne hy] at hdiv
        refine .bits hdiv ?_
        rw [← Value.wrap_div]
        exact if_neg (mt hzero.mp hy)
  | eq =>
      exact .truth (hcompare .eq) (congrArg (Except.ok ∘ Value.boolean) (Value.integer_beq _ _ _))
  | ne =>
      exact .truth (hcompare .ne) (congrArg (Except.ok ∘ Value.boolean) (Value.integer_bne _ _ _))
  | gt =>
      refine .truth (hcompare _) (congrArg (Except.ok ∘ Value.boolean) ?_)
      refine (Value.integer_lt signed y x).trans ?_
      cases signed <;> rfl
  | lt =>
      refine .truth (hcompare _) (congrArg (Except.ok ∘ Value.boolean) ?_)
      refine (Value.integer_lt signed x y).trans ?_
      cases signed <;> rfl
  | ge =>
      refine .truth (hcompare _) (congrArg (Except.ok ∘ Value.boolean) ?_)
      refine (Value.integer_le signed y x).trans ?_
      cases signed <;> rfl
  | le =>
      refine .truth (hcompare _) (congrArg (Except.ok ∘ Value.boolean) ?_)
      refine (Value.integer_le signed x y).trans ?_
      cases signed <;> rfl

theorem runs_widenBoolean {op : IntOp} {x y : Bool} {z : BitVec 64} {ty : ScalarType}
    (ha : Holds B fr a (.ofBool x)) (hc : Holds B fr c (.ofBool y))
    (hz : op.opcode.apply (.i64 (BitVec.ofInt 64 x.toInt)) (.i64 (BitVec.ofInt 64 y.toInt)) =
      some (.i64 z)) :
    Runs p link b ((BinaryImpl.widenBoolean op).code ty a c) B fr false (Holds · · · (.i64 z)) := by
  have hextend (t : Bool) : (Word.ofBool t).extend? false .i64 =
      some (.i64 (BitVec.ofInt 64 t.toInt)) := by cases t <;> rfl
  refine (Runs.extend h ha (hextend x) rfl).next fun v₁ B₁ fr₁ e₁ r₁ h₁ => ?_
  refine (Runs.extend r₁ (hc.kept e₁) (hextend y) rfl).next fun v₂ B₂ fr₂ e₂ r₂ h₂ => ?_
  exact .binary r₂ (h₁.kept e₂) h₂ hz rfl

theorem computes_boolean {op : BinaryOp} {impl : BinaryImpl}
    (hi : BinaryImpl.ofBoolean? op = some impl) {x y : Bool} {ty : ScalarType}
    (ha : Holds B fr a (.ofBool x)) (hc : Holds B fr c (.ofBool y)) :
    Computes p link b (impl.code ty a c) B fr (impl.resultType .boolean)
      (Value.binaryBoolean op x y) := by
  cases op with
  | mul | div | shl | shr | gt | lt | ge | le => cases hi
  | add =>
      obtain rfl := Option.some.inj hi
      refine .of_runs (.signed _) (runs_widenBoolean h ha hc rfl) ?_
      cases x <;> cases y <;> rfl
  | sub =>
      obtain rfl := Option.some.inj hi
      refine .of_runs (.signed _) (runs_widenBoolean h ha hc rfl) ?_
      cases x <;> cases y <;> rfl
  | bitAnd =>
      obtain rfl := Option.some.inj hi
      exact .truth (.binary h ha hc (Word.apply_band_ofBool x y) rfl) rfl
  | bitOr =>
      obtain rfl := Option.some.inj hi
      exact .truth (t := x || y) (.binary h ha hc (by cases x <;> cases y <;> rfl) rfl) rfl
  | bitXor =>
      obtain rfl := Option.some.inj hi
      exact .truth (t := x ^^ y) (.binary h ha hc (by cases x <;> cases y <;> rfl) rfl) rfl
  | eq =>
      obtain rfl := Option.some.inj hi
      exact .truth (t := x == y) (.icmp h ha hc (by cases x <;> cases y <;> rfl)) rfl
  | ne =>
      obtain rfl := Option.some.inj hi
      exact .truth (t := x != y) (.icmp h ha hc (by cases x <;> cases y <;> rfl)) rfl

omit h in
theorem holds_compare (o : Option Ordering) :
    FloatCC.eq.holds o = o.any (· == .eq) ∧ FloatCC.one.holds o = o.any (· != .eq) ∧
      FloatCC.gt.holds o = o.any (· == .gt) ∧ FloatCC.lt.holds o = o.any (· == .lt) ∧
      FloatCC.ge.holds o = o.any (· != .lt) ∧ FloatCC.le.holds o = o.any (· != .gt) := by
  cases o <;> exact ⟨rfl, rfl, rfl, rfl, rfl, rfl⟩

/-- A float operation on numbers. -/
def FloatOp.eval {fmt : Format} : FloatOp → Binary fmt → Binary fmt → Binary fmt
  | .add => Binary.add
  | .sub => Binary.sub
  | .mul => Binary.mul
  | .div => Binary.div

omit h in
/-- Operators on floats, given what arithmetic and comparisons give. -/
theorem computes_float {fmt : Format} {x y : Binary fmt} (value : Binary fmt → Value)
    {ty : ScalarType} {op : BinaryOp} {impl : BinaryImpl} (hi : BinaryImpl.ofFloat? op = some impl)
    (harith : ∀ op : FloatOp, Runs p link b ((BinaryImpl.float op).code ty a c) B fr false
      (Holds · · · (value (op.eval x y)).word))
    (hcompare : ∀ cc, Runs p link b (Build.fcmp cc a c) B fr false
      (Holds · · · (.ofBool (cc.holds (x.compare? y)))))
    (htype : ∀ z, (value z).type = ty) :
    Computes p link b (impl.code ty a c) B fr (impl.resultType ty)
      (Value.binaryFloat value op x y) := by
  obtain ⟨heq, hne, hgt, hlt, hge, hle⟩ := holds_compare (x.compare? y)
  have hvalue (op : FloatOp) {r : Except Abort Value} (hr : r = .ok (value (op.eval x y))) :
      Computes p link b ((BinaryImpl.float op).code ty a c) B fr ty r :=
    ⟨_, false, harith op, htype _, hr ▸ agrees_ok _⟩
  cases op with
  | bitAnd | bitOr | bitXor | shl | shr => cases hi
  | add => exact Option.some.inj hi ▸ hvalue .add rfl
  | sub => exact Option.some.inj hi ▸ hvalue .sub rfl
  | mul => exact Option.some.inj hi ▸ hvalue .mul rfl
  | div => exact Option.some.inj hi ▸ hvalue .div rfl
  | eq => exact Option.some.inj hi ▸ .truth (hcompare .eq) (by rw [heq]; rfl)
  | ne => exact Option.some.inj hi ▸ .truth (hcompare .one) (by rw [hne]; rfl)
  | gt => exact Option.some.inj hi ▸ .truth (hcompare .gt) (by rw [hgt]; rfl)
  | lt => exact Option.some.inj hi ▸ .truth (hcompare .lt) (by rw [hlt]; rfl)
  | ge => exact Option.some.inj hi ▸ .truth (hcompare .ge) (by rw [hge]; rfl)
  | le => exact Option.some.inj hi ▸ .truth (hcompare .le) (by rw [hle]; rfl)

include hl in
/-- A half is rounded again after each operation. -/
theorem runs_halfArithmetic {x y : Binary .single} (ha : Holds B fr a (.f32 x))
    (hc : Holds B fr c (.f32 y)) (op : FloatOp) :
    Runs p link b ((BinaryImpl.float op).code .float16 a c) B fr false
      (Holds · · · (.f32 (op.eval x y).roundHalf)) := by
  have hop : op.opcode.apply (.f32 x) (.f32 y) = some (.f32 (op.eval x y)) := by cases op <;> rfl
  refine (Runs.binary h ha hc hop rfl).next fun v B₁ fr₁ e r hv => ?_
  rw [if_pos rfl]
  exact .roundHalf hl r hv

include hl in
/-- The code of an operator does to values of one type what the operator does. -/
theorem computes_binary {u v : Value} {op : BinaryOp} {impl : BinaryImpl} (htype : u.type = v.type)
    (hi : u.type.binaryImpl? op = some impl) (ha : Holds B fr a u.word) (hc : Holds B fr c v.word) :
    Computes p link b (impl.code u.type a c) B fr (impl.resultType u.type)
      (Value.binary op u v) := by
  cases u with
  | boolean x =>
      cases v <;> cases htype
      exact computes_boolean h hi ha hc
  | signed x =>
      cases v <;> cases htype
      exact Option.some.inj hi ▸ computes_integer hl h true op ha hc
  | unsigned x =>
      cases v <;> cases htype
      exact Option.some.inj hi ▸ computes_integer hl h false op ha hc
  | float16 x =>
      cases v <;> cases htype
      exact computes_float (fun z => .float16 z.roundHalf) hi (runs_halfArithmetic hl h ha hc)
        (fun _ => .fcmp h ha hc rfl) fun _ => rfl
  | float32 x =>
      cases v <;> cases htype
      exact computes_float .float32 hi (fun op => .binary h ha hc (by cases op <;> rfl) rfl)
        (fun _ => .fcmp h ha hc rfl) fun _ => rfl
  | float64 x =>
      cases v <;> cases htype
      exact computes_float .float64 hi (fun op => .binary h ha hc (by cases op <;> rfl) rfl)
        (fun _ => .fcmp h ha hc rfl) fun _ => rfl

theorem computes_negate {u : Value} {impl : UnaryImpl} (hi : u.type.unaryImpl? .negate = some impl)
    (ha : Holds B fr a u.word) :
    Computes p link b (impl.code a) B fr (impl.resultType u.type) u.negate := by
  cases u with
  | boolean | unsigned => cases hi
  | signed x =>
      have hneg : Value.wrap true (-x.toInt) = .signed (-x) := by
        rw [Value.wrap, BitVec.ofInt_neg, BitVec.ofInt_toInt]
        rfl
      exact Option.some.inj hi ▸ .of_runs (.signed (-x)) (.unary h ha rfl rfl) (congrArg _ hneg)
  | float16 x => exact Option.some.inj hi ▸ .of_runs (.float16 x.neg) (.unary h ha rfl rfl) rfl
  | float32 x => exact Option.some.inj hi ▸ .of_runs (.float32 x.neg) (.unary h ha rfl rfl) rfl
  | float64 x => exact Option.some.inj hi ▸ .of_runs (.float64 x.neg) (.unary h ha rfl rfl) rfl

/-- A float is compared with the zero of its format. -/
theorem runs_floatTruthy {x z : Word} {t : Bool} (ha : Holds B fr a x)
    (hz : (if x.type = .f64 then Constant.f64 (.zero false) else .f32 (.zero false)).word? = some z)
    (ht : Word.compareFloats .one x z = some (.ofBool t)) :
    Runs p link b (UnaryImpl.floatTruthy.code a) B fr false (Holds · · · (.ofBool t)) := by
  refine (Runs.typeOf h ha).next fun ty B₁ fr₁ e₁ r₁ hty => ?_
  rw [hty]
  refine (Runs.const r₁ hz).next fun v B₂ fr₂ e₂ r₂ hv => ?_
  exact .fcmp r₂ (ha.kept (e₁.trans e₂)) hv ht

/-- The code of a test gives whether the value is true. -/
theorem runs_boolify {u : Value} {impl : UnaryImpl} (hi : u.type.unaryImpl? .boolify = some impl)
    (ha : Holds B fr a u.word) :
    Runs p link b (impl.code a) B fr false (Holds · · · (.ofBool u.isTrue)) := by
  cases u with
  | boolean t => exact Option.some.inj hi ▸ .pure h ha
  | signed x => exact Option.some.inj hi ▸ .icmpImm h .w64 ha .ne 0
  | unsigned x => exact Option.some.inj hi ▸ .icmpImm h .w64 ha .ne 0
  | float16 x =>
      obtain rfl := Option.some.inj hi
      exact runs_floatTruthy h ha rfl (by rw [Value.isTrue, ← (holds_compare _).2.1]; rfl)
  | float32 x =>
      obtain rfl := Option.some.inj hi
      exact runs_floatTruthy h ha rfl (by rw [Value.isTrue, ← (holds_compare _).2.1]; rfl)
  | float64 x =>
      obtain rfl := Option.some.inj hi
      exact runs_floatTruthy h ha rfl (by rw [Value.isTrue, ← (holds_compare _).2.1]; rfl)

end ScalarLang
