import Mathlib
import ScalarLang.Ir.Run
import ScalarLang.Proofs.Lower.Region

/-
  Running code that is built step by step.
  A finished function starts its blocks with what a builder had in them, so a run that has come to
  the end of that part goes on with the rest. `Leads` says that running one piece of code comes to
  running another one, and through how many blocks; pieces compose. Straight code is run in the
  function under construction, and then as part of any function that goes on from it.
-/

namespace ScalarLang.Ir

/-! ## Runs of straight code -/

namespace Function

variable {link : Linkage} {f g : Function}

/-- Runs straight code to its end. -/
def runCode (link : Linkage) (f : Function) : Block → Frame → Option Frame
  | [], fr => some fr
  | s :: rest, fr =>
    match f.step link fr s with
    | some (.next fr) => runCode link f rest fr
    | _ => none

theorem runCode_append {X Y : Block} {fr fr' : Frame} (h : f.runCode link X fr = some fr') :
    f.runCode link (X ++ Y) fr = f.runCode link Y fr' := by
  fun_induction f.runCode link X fr with
  | case1 fr => rw [List.nil_append, Option.some.inj h]
  | case2 s rest fr fr₁ hs ih =>
      simp only [List.cons_append, runCode, hs]
      exact ih h
  | case3 => cases h

theorem runBlock_append {X Y : Block} {fr fr' : Frame} (h : f.runCode link X fr = some fr') :
    f.runBlock link (X ++ Y) fr = f.runBlock link Y fr' := by
  fun_induction f.runCode link X fr with
  | case1 fr => rw [List.nil_append, Option.some.inj h]
  | case2 s rest fr fr₁ hs ih =>
      simp only [List.cons_append, runBlock, hs]
      exact ih h
  | case3 => cases h

/-- What a statement does depends on the function only for what calls refer to. -/
theorem step_mono (h : f.imports <+: g.imports) {fr : Frame} {s : Stmt} {flow : Flow}
    (hs : f.step link fr s = some flow) : g.step link fr s = some flow := by
  rcases hi : s.inst with _ | _ | _ | _ | _ | _ | _ | _ | ⟨callee, args⟩
  case call =>
    simp only [step, hi, Option.bind_eq_bind, Option.bind_eq_some_iff] at hs ⊢
    obtain ⟨i, himport, hrest⟩ := hs
    obtain ⟨added, hadded⟩ := h
    refine ⟨i, ?_, hrest⟩
    rw [← hadded, List.getElem?_append_left (List.getElem?_eq_some_iff.mp himport).1, himport]
  all_goals
    simp only [step, hi] at hs ⊢
    exact hs

theorem runCode_mono (h : f.imports <+: g.imports) {X : Block} {fr fr' : Frame}
    (hr : f.runCode link X fr = some fr') : g.runCode link X fr = some fr' := by
  fun_induction f.runCode link X fr with
  | case1 fr => exact hr
  | case2 s rest fr fr₁ hs ih =>
      simp only [runCode, step_mono h hs]
      exact ih hr
  | case3 => cases hr

theorem step_compute {s : Stmt} {fr fr' : Frame} {w : Word}
    (hw : s.inst.compute? fr.values = some w) (hset : fr.setValues? s.results [w] = some fr') :
    f.step link fr s = some (.next fr') := by
  obtain ⟨number, results, inst⟩ := s
  cases inst
  case call | ret | jump | brif | store | load => cases hw
  all_goals simp only [step, hw, hset, Option.bind_eq_bind, Option.bind_some, Option.pure_def]

/-! ## Runs across blocks -/

/-- Runs statements and what they lead to, entering at most `fuel` blocks. -/
def resume (link : Linkage) (f : Function) (fuel : Nat) (code : Block) (fr : Frame) :
    Option Outcome :=
  match f.runBlock link code fr with
  | some (.goto target fr) => f.runFrom link fuel target fr
  | some (.done out) => some out
  | _ => none

theorem runFrom_succ {b : Nat} (hb : b < f.blocks.length) (fuel : Nat) (fr : Frame) :
    f.runFrom link (fuel + 1) b fr = f.resume link fuel (f.block b) fr := by
  rw [runFrom, getElem?_blocks hb, resume, Option.bind_eq_bind, Option.bind_some]
  rcases f.runBlock link (f.block b) fr with _ | flow
  · rfl
  · cases flow <;> rfl

/-- Running `X` comes to running `Y` after `k` blocks were entered. -/
def Leads (link : Linkage) (f : Function) (k : Nat) (X : Block) (fr : Frame) (Y : Block)
    (fr' : Frame) : Prop :=
  ∀ fuel, f.resume link (fuel + k) X fr = f.resume link fuel Y fr'

namespace Leads

variable {k k' : Nat} {X Y Z : Block} {fr fr' fr'' : Frame}

theorem trans (h : f.Leads link k X fr Y fr') (h' : f.Leads link k' Y fr' Z fr'') :
    f.Leads link (k + k') X fr Z fr'' := by
  intro fuel
  rw [Nat.add_comm k k', ← Nat.add_assoc, h, h']

theorem code (h : f.runCode link X fr = some fr') (Y : Block) :
    f.Leads link 0 (X ++ Y) fr Y fr' := by
  intro fuel
  rw [resume, resume, runBlock_append h]
  rfl

theorem goto {s : Stmt} {target : Nat} (hs : f.step link fr s = some (.goto target fr'))
    (ht : target < f.blocks.length) (Y : Block) :
    f.Leads link 1 (s :: Y) fr (f.block target) fr' := by
  intro fuel
  rw [← runFrom_succ ht]
  simp only [resume, runBlock, hs]

end Leads

/-- What comes in a block after the part that a builder has of it. -/
def rest (f : Function) (B : Builder) (b : Nat) : Block :=
  (f.block b).drop (B.function.block b).length

theorem rest_of_nil {B : Builder} {b : Nat} (h : B.function.block b = []) :
    f.rest B b = f.block b := by
  rw [rest, h, List.length_nil, List.drop_zero]

theorem rest_append {B B' : Builder} {b : Nat} {X : Block}
    (h : B'.function.block b = B.function.block b ++ X) (hp : B'.function.block b <+: f.block b) :
    f.rest B b = X ++ f.rest B' b := by
  obtain ⟨Y, hY⟩ := hp
  rw [rest, rest, ← hY, List.drop_left, h, List.append_assoc, List.drop_left]

end Function

/-- The function goes on from what was built in block `b` since `B`. -/
structure Covers (f : Function) (B : Builder) (b : Nat) (B' : Builder) : Prop where
  block : ∀ c, c = b ∨ B.function.blocks.length ≤ c → B'.function.block c <+: f.block c
  imports : B'.function.imports <+: f.imports
  length : B'.function.blocks.length ≤ f.blocks.length

namespace Covers

variable {f : Function} {B B' B'' : Builder} {b b' b'' : Nat}

theorem init (h : Covers f B b B'') (r : B'.Extends B'')
    (hp : ∀ c, B'.function.block c <+: B''.function.block c) : Covers f B b B' where
  block := fun c hc => (hp c).trans (h.block c hc)
  imports := r.imports.trans h.imports
  length := Nat.le_trans r.length h.length

theorem first (h : Covers f B b B'') (r : Region B' b' B'' b'') : Covers f B b B' :=
  h.init r.grown.toExtends r.grown.block_isPrefix

theorem second (h : Covers f B b B'') (r : Region B b B' b') : Covers f B' b' B'' where
  block := fun c hc => h.block c <| by
    rcases hc with rfl | hc
    · exact r.exit
    · exact Or.inr (Nat.le_trans r.grown.length hc)
  imports := h.imports
  length := h.length

end Covers

/-! ## Straight code under construction -/

/-- Running what was built in block `b` since `B` takes one frame to another and keeps the values
    that were there. -/
structure Executes (link : Linkage) (b : Nat) (B : Builder) (fr : Frame) (B' : Builder)
    (fr' : Frame) : Prop where
  inline : Inline B b B'
  code : ∃ X, B'.function.block b = B.function.block b ++ X ∧
    B'.function.runCode link X fr = some fr'
  kept : ∀ v, v < B.function.values.length → fr'.values v = fr.values v

namespace Executes

variable {link : Linkage} {b : Nat} {B B' B'' : Builder} {fr fr' fr'' : Frame}

theorem refl (hc : B.cursor = .atEnd b) (fr : Frame) : Executes link b B fr B fr :=
  ⟨.refl hc, ⟨[], by simp, rfl⟩, fun _ _ => rfl⟩

theorem trans (h : Executes link b B fr B' fr') (h' : Executes link b B' fr' B'' fr'') :
    Executes link b B fr B'' fr'' where
  inline := h.inline.trans h'.inline
  code := by
    obtain ⟨X, hX, hr⟩ := h.code
    obtain ⟨Y, hY, hr'⟩ := h'.code
    refine ⟨X ++ Y, by rw [hY, hX, List.append_assoc], ?_⟩
    rw [Function.runCode_append (Function.runCode_mono h'.inline.grown.imports hr), hr']
  kept := fun v hv => (h'.kept v (Nat.lt_of_lt_of_le hv h.inline.grown.values.length_le)).trans
    (h.kept v hv)

/-- One statement. -/
theorem emitted (hc : B.cursor = .atEnd b) (hb : b < B.function.blocks.length) {inst : Inst}
    (hi : inst.isTerminator = false) {types : List MachineType}
    (hs : B.function.step link fr (B.stmt inst types) = some (.next fr'))
    (hk : ∀ v, v < B.function.values.length → fr'.values v = fr.values v) :
    Executes link b B fr (B.emitted inst types) fr' where
  inline := .emitted hc hb inst hi types
  code := by
    refine ⟨[B.stmt inst types], B.block_emitted_self inst types hc hb, ?_⟩
    have hs' := Function.step_mono (g := (B.emitted inst types).function) List.prefix_rfl hs
    simp only [Function.runCode, hs']
  kept := hk

/-- A statement that computes a word. -/
theorem value (hc : B.cursor = .atEnd b) (hb : b < B.function.blocks.length) {inst : Inst}
    {w : Word} (hw : inst.compute? fr.values = some w) (ty : MachineType) :
    Executes link b B fr (B.emitted inst [ty]) (fr.setValue B.function.values.length w) := by
  have hi : inst.isTerminator = false := by
    cases inst
    case ret | jump | brif => cases hw
    all_goals rfl
  refine emitted hc hb hi (Function.step_compute hw rfl) fun v hv => ?_
  simp [Frame.setValue, Nat.ne_of_lt hv]

/-- What straight code does, it does in every function that goes on from it. -/
theorem leads (h : Executes link b B fr B' fr') {f : Function} (hf : Covers f B b B') :
    f.Leads link 0 (f.rest B b) fr (f.rest B' b) fr' := by
  obtain ⟨X, hX, hr⟩ := h.code
  rw [Function.rest_append hX (hf.block b (Or.inl rfl))]
  exact .code (Function.runCode_mono hf.imports hr) _

end Executes

end ScalarLang.Ir
