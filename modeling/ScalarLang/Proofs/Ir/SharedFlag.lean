import Mathlib
import ScalarLang.Ir.Run

/-
  Faults on a thread.
  A run keeps a flag of its own for each call and joins them as calls return. Machine code has one
  flag on its thread, which the built-in check sets and which nothing resets before the run is over.
  The two agree: code that starts with the flag as others left it does what it does with a flag of
  its own, and leaves the flag set if it was set before or if the run had a fault.
-/

namespace ScalarLang.Ir

/-- What each external index stands for where calls share a flag: from arguments and the flag to
    results and the flag. -/
abbrev SharedLinkage := Nat → List Word → Bool → Option Outcome

/-! ## Running with a shared flag -/

namespace Function

variable (link : SharedLinkage) (f : Function)

/-- Runs one statement. A call gets the flag of the frame and leaves its own. -/
def stepShared (fr : Frame) (s : Stmt) : Option Flow :=
  match s.inst with
  | .call callee args => do
    let i ← f.imports[callee]?
    let out ← link i.index (← args.mapM fr.values) fr.faulted
    let fr ← fr.setValues? s.results out.results
    return .next { fr with faulted := out.faulted }
  | _ => f.step (fun _ _ => none) fr s

def runBlockShared : Block → Frame → Option Flow
  | [], _ => none
  | s :: rest, fr =>
    match f.stepShared link fr s with
    | some (.next fr) => runBlockShared rest fr
    | flow => flow

def runFromShared : Nat → BlockId → Frame → Option Outcome
  | 0, _, _ => none
  | fuel + 1, b, fr => do
    let block ← f.blocks[b]?
    match ← f.runBlockShared link block fr with
    | .next _ => none
    | .goto target fr => runFromShared fuel target fr
    | .done out => some out

def runShared (flag : Bool) : Option Outcome :=
  if f.signature.params.isEmpty then
    f.runFromShared link f.blocks.length 0 { Frame.start with faulted := flag }
  else none

end Function

end ScalarLang.Ir

namespace ScalarLang

/-- A built-in routine on a thread: the check sets the flag, and nothing else touches it. -/
def Intrinsic.runShared : Intrinsic → List Word → Bool → Option Ir.Outcome
  | checkDivisor, [.i64 x], flag => some ⟨[], if x == 0 then true else flag⟩
  | roundHalf, [.f32 x], flag => some ⟨[.f32 x.roundHalf], flag⟩
  | _, _, _ => none

def Ir.linkageShared (functions : List Ir.Function) : Nat → Ir.SharedLinkage
  | 0 => fun index args flag => (Intrinsic.ofIndex? index).bind (·.runShared args flag)
  | count + 1 => fun index args flag =>
    if index = firstRoutineIndex + count then
      if args.isEmpty then
        functions[count]?.bind (·.runShared (linkageShared functions count) flag)
      else none
    else linkageShared functions count index args flag

namespace Ir

/-! ## Agreement -/

/-- The outcome where the flag may have been set before. -/
def Outcome.raise (flag : Bool) (out : Outcome) : Outcome :=
  { out with faulted := flag || out.faulted }

def Frame.raise (flag : Bool) (fr : Frame) : Frame := { fr with faulted := flag || fr.faulted }

def Flow.raise (flag : Bool) : Flow → Flow
  | .next fr => .next (fr.raise flag)
  | .goto b fr => .goto b (fr.raise flag)
  | .done out => .done (out.raise flag)

/-- A call that shares the flag does what it does with its own. -/
def Shares (shared : SharedLinkage) (link : Linkage) : Prop :=
  ∀ index args flag, shared index args flag = (link index args).map (·.raise flag)

theorem Frame.setValues?_raise (flag : Bool) (fr : Frame) (vs : List ValueId) (ws : List Word) :
    (fr.raise flag).setValues? vs ws = (fr.setValues? vs ws).map (·.raise flag) := by
  induction vs generalizing fr ws with
  | nil => cases ws <;> rfl
  | cons v vs ih =>
      cases ws with
      | nil => rfl
      | cons w ws => exact ih (fr.setValue v w) ws

theorem Frame.setValues?_faulted {fr fr' : Frame} {vs : List ValueId} {ws : List Word}
    (h : fr.setValues? vs ws = some fr') : fr'.faulted = fr.faulted := by
  induction vs generalizing fr ws with
  | nil =>
      cases ws with
      | nil => rw [← Option.some.inj h]
      | cons w ws => cases h
  | cons v vs ih =>
      cases ws with
      | nil => cases h
      | cons w ws =>
          have hrest : fr'.faulted = (fr.setValue v w).faulted := ih h
          exact hrest

variable {shared : SharedLinkage} {link : Linkage} {f : Function} {flag : Bool}

/-- A statement that defines a value. -/
theorem define_raise (fr : Frame) (results : List ValueId) (word : Option Word) :
    (word.bind fun w =>
        ((fr.raise flag).setValues? results [w]).bind fun fr => some (Flow.next fr)) =
      (word.bind fun w => (fr.setValues? results [w]).bind fun fr => some (Flow.next fr)).map
        (·.raise flag) := by
  cases word with
  | none => rfl
  | some w =>
      simp only [Option.bind_some, Frame.setValues?_raise]
      cases fr.setValues? results [w] <;> rfl

theorem stepShared_raise (h : Shares shared link) (fr : Frame) (s : Stmt) :
    f.stepShared shared (fr.raise flag) s = (f.step link fr s).map (·.raise flag) := by
  obtain ⟨number, results, inst⟩ := s
  have hvalues : (fr.raise flag).values = fr.values := rfl
  have hslots : (fr.raise flag).slots = fr.slots := rfl
  cases inst with
  | call callee args =>
      simp only [Function.stepShared, Function.step, hvalues]
      rcases f.imports[callee]? with _ | i
      · rfl
      rcases args.mapM fr.values with _ | words
      · rfl
      simp only [Option.bind_eq_bind, Option.bind_some, h i.index words]
      rcases link i.index words with _ | out
      · rfl
      have hresults (flag : Bool) : (out.raise flag).results = out.results := rfl
      simp only [Option.map_some, Option.bind_some, Frame.setValues?_raise, hresults]
      rcases hfr : fr.setValues? results out.results with _ | fr'
      · rfl
      · have hfaulted := Frame.setValues?_faulted hfr
        simp [Frame.raise, Outcome.raise, Flow.raise, hfaulted, Bool.or_assoc]
  | ret values =>
      simp only [Function.stepShared, Function.step, hvalues]
      cases values.mapM fr.values <;> rfl
  | jump target => rfl
  | brif c t e =>
      simp only [Function.stepShared, Function.step, hvalues]
      rcases fr.values c with _ | w
      · rfl
      simp only [Option.bind_eq_bind, Option.bind_some]
      cases w.isTrue? <;> rfl
  | store a slot =>
      simp only [Function.stepShared, Function.step, hvalues]
      cases fr.values a <;> rfl
  | load ty slot =>
      simp only [Function.stepShared, Function.step, hslots]
      rcases fr.slots slot with _ | w
      · rfl
      simp only [Option.bind_eq_bind, Option.bind_some]
      split
      · exact define_raise fr results (some w)
      · rfl
  | const c => exact define_raise fr results c.word?
  | binary | unary | extend | icmp | icmpImm | fcmp | select =>
      exact define_raise fr results (Inst.compute? fr.values _)

theorem runBlockShared_raise (h : Shares shared link) (block : Block) (fr : Frame) :
    f.runBlockShared shared block (fr.raise flag) =
      (f.runBlock link block fr).map (·.raise flag) := by
  induction block generalizing fr with
  | nil => rfl
  | cons s rest ih =>
      rw [Function.runBlockShared, Function.runBlock, stepShared_raise h]
      rcases f.step link fr s with _ | (fr' | ⟨b, fr'⟩ | out)
      · rfl
      · exact ih fr'
      · rfl
      · rfl

theorem runFromShared_raise (h : Shares shared link) (fuel : Nat) (b : BlockId) (fr : Frame) :
    f.runFromShared shared fuel b (fr.raise flag) =
      (f.runFrom link fuel b fr).map (·.raise flag) := by
  induction fuel generalizing b fr with
  | zero => rfl
  | succ fuel ih =>
      rw [Function.runFromShared, Function.runFrom]
      rcases f.blocks[b]? with _ | block
      · rfl
      · simp only [Option.bind_eq_bind, Option.bind_some, runBlockShared_raise h]
        rcases f.runBlock link block fr with _ | (fr' | ⟨b', fr'⟩ | out)
        · rfl
        · rfl
        · exact ih b' fr'
        · rfl

theorem runShared_raise (h : Shares shared link) (flag : Bool) :
    f.runShared shared flag = (f.run link).map (·.raise flag) := by
  have hstart : { Frame.start with faulted := flag } = Frame.start.raise flag := by
    simp [Frame.raise, Frame.start]
  rw [Function.runShared, Function.run]
  split
  · rw [hstart, runFromShared_raise h]
  · rfl

theorem intrinsic_raise (i : Intrinsic) (args : List Word) (flag : Bool) :
    i.runShared args flag = (i.run args).map (·.raise flag) := by
  unfold Intrinsic.runShared Intrinsic.run
  split
  · rename_i x
    show some (⟨[], if x == 0 then true else flag⟩ : Outcome) = some ⟨[], flag || x == 0⟩
    cases x == 0 <;> cases flag <;> rfl
  · simp [Outcome.raise]
  · split <;> simp_all

theorem linkageShared_shares (functions : List Function) (count : Nat) :
    Shares (linkageShared functions count) (linkage functions count) := by
  induction count with
  | zero =>
      intro index args flag
      rw [linkageShared, linkage]
      dsimp only
      cases Intrinsic.ofIndex? index with
      | none => rfl
      | some i => exact intrinsic_raise i args flag
  | succ count ih =>
      intro index args flag
      rw [linkageShared, linkage]
      dsimp only
      split
      · split
        · cases functions[count]? with
          | none => rfl
          | some f => exact runShared_raise ih flag
        · rfl
      · exact ih index args flag

end Ir

end ScalarLang
