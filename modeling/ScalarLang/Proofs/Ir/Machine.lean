import Mathlib
import ScalarLang.Ir.Run
import ScalarLang.Proofs.Ir.Dominance

/-
  Running code step by step.
  The machine has a stack of calls, each at a statement of its function, and no bound on the steps
  it takes. Runs by `linkage`, which bounds the number of blocks and nests calls, are runs of the
  machine. If control goes forward within functions and calls go to earlier functions, the machine
  halts from every state: a call comes to its end because those it makes are of earlier functions,
  because few blocks are left ahead of its own, or because few statements are left in that block.
-/

namespace ScalarLang.Ir

/-- The position of the function that a statement calls, unless it is built in. -/
def Stmt.callee? (f : Function) (s : Stmt) : Option Nat :=
  match s.inst with
  | .call callee _ => f.imports[callee]?.bind fun i =>
    if firstRoutineIndex ≤ i.index then some (i.index - firstRoutineIndex) else none
  | _ => none

/-- A call that is under way: the position of its function, the statement it stands at and its
    frame. -/
structure Activation where
  position : Nat
  block : BlockId
  offset : Nat
  frame : Frame

namespace Activation

def start (position : Nat) : Activation := ⟨position, 0, 0, .start⟩

def next (a : Activation) (fr : Frame) : Activation :=
  { a with offset := a.offset + 1, frame := fr }

def goto (a : Activation) (b : BlockId) (fr : Frame) : Activation :=
  { a with block := b, offset := 0, frame := fr }

/-- The statement that comes next, with its function. -/
def stmt? (functions : List Function) (a : Activation) : Option (Function × Stmt) := do
  let f ← functions[a.position]?
  let s ← (f.block a.block)[a.offset]?
  return (f, s)

/-- Goes on after a call with what the call left. -/
def resume? (a : Activation) (results : List ValueId) (out : Outcome) : Option Activation := do
  let fr ← a.frame.setValues? results out.results
  return a.next { fr with faulted := fr.faulted || out.faulted }

end Activation

/-- The machine runs its latest call, or hands an outcome to the call before it. -/
inductive Machine where
  | running (current : Activation) (callers : List Activation)
  | returning (outcome : Outcome) (callers : List Activation)

/-- Where control goes after a statement. -/
def Flow.machine (a : Activation) (callers : List Activation) : Flow → Machine
  | .next fr => .running (a.next fr) callers
  | .goto b fr => .running (a.goto b fr) callers
  | .done out => .returning out callers

/-- One step: a statement, a call of a function of the program, or a return to the caller. -/
def Machine.step (functions : List Function) : Machine → Option Machine
  | .running a callers => do
    let (f, s) ← a.stmt? functions
    match s.callee? f with
    | some position => return .running (.start position) (a :: callers)
    | none => return (← f.step (linkage functions 0) a.frame s).machine a callers
  | .returning out (a :: callers) => do
    let (_, s) ← a.stmt? functions
    return .running (← a.resume? s.results out) callers
  | .returning _ [] => none

namespace Machine

variable {functions : List Function} {f : Function} {s : Stmt} {a : Activation}
  {callers : List Activation}

/-- The machine comes from one state to another. -/
abbrev Reaches (functions : List Function) : Machine → Machine → Prop :=
  Relation.ReflTransGen fun m m' => m.step functions = some m'

/-- Every run from the state is finite. -/
abbrev Halts (functions : List Function) (m : Machine) : Prop :=
  Acc (fun m' m => m.step functions = some m') m

theorem step_call {position : Nat} (hs : a.stmt? functions = some (f, s))
    (hcall : s.callee? f = some position) :
    (running a callers).step functions = some (.running (.start position) (a :: callers)) := by
  simp [step, hs, hcall]

theorem step_local {flow : Flow} (hs : a.stmt? functions = some (f, s))
    (hcall : s.callee? f = none) (hflow : f.step (linkage functions 0) a.frame s = some flow) :
    (running a callers).step functions = some (flow.machine a callers) := by
  simp [step, hs, hcall, hflow]

theorem step_return {a' : Activation} {out : Outcome} (hs : a.stmt? functions = some (f, s))
    (hresume : a.resume? s.results out = some a') :
    (returning out (a :: callers)).step functions = some (.running a' callers) := by
  simp [step, hs, hresume]

/-! ## Halting -/

end Machine

/-- The functions can be numbered so that control goes to blocks of a smaller number, and calls go
    to earlier functions. -/
structure Layered (functions : List Function) (height : Nat → Nat → Nat) : Prop where
  edge : ∀ {position : Nat} {f : Function} {b c : BlockId}, functions[position]? = some f →
    f.Edge b c → height position c < height position b
  call : ∀ {position callee : Nat} {f : Function} {b : BlockId} {s : Stmt},
    functions[position]? = some f → s ∈ f.block b → s.callee? f = some callee → callee < position

namespace Machine

variable {functions : List Function} {height : Nat → Nat → Nat}

/-- How much of its block a call has ahead. -/
def ahead (functions : List Function) (a : Activation) : Nat :=
  ((functions[a.position]?.map (·.block a.block)).getD []).length - a.offset

theorem stmt?_eq_some {a : Activation} {f : Function} {s : Stmt}
    (h : a.stmt? functions = some (f, s)) :
    functions[a.position]? = some f ∧ (f.block a.block)[a.offset]? = some s := by
  simp only [Activation.stmt?, Option.bind_eq_bind, Option.bind_eq_some_iff, Option.pure_def,
    Option.some.injEq, Prod.mk.injEq] at h
  obtain ⟨f', hf, s', hs, rfl, rfl⟩ := h
  exact ⟨hf, hs⟩

theorem ahead_next {a : Activation} {f : Function} {s : Stmt}
    (h : a.stmt? functions = some (f, s)) (fr : Frame) :
    ahead functions (a.next fr) < ahead functions a := by
  obtain ⟨hf, hs⟩ := stmt?_eq_some h
  have hlt := (List.getElem?_eq_some_iff.mp hs).1
  simp only [ahead, Activation.next, hf, Option.map_some, Option.getD_some]
  omega

/-- A call comes to its end if the calls below it do. -/
theorem halts_running (h : Layered functions height) {callers : List Activation}
    (hcallers : ∀ out, Halts functions (.returning out callers)) (a : Activation) :
    Halts functions (.running a callers) := by
  refine Acc.intro _ fun m hm => ?_
  simp only [step, Option.bind_eq_bind, Option.bind_eq_some_iff] at hm
  obtain ⟨⟨f, s⟩, hs, hm⟩ := hm
  obtain ⟨hf, hmem⟩ := stmt?_eq_some hs
  have hmem := List.mem_of_getElem? hmem
  dsimp only at hm
  split at hm
  · rename_i position hcall
    obtain rfl := Option.some.inj hm
    have hearlier := h.call hf hmem hcall
    -- the callee is of an earlier function, and what it returns to is further on in this block
    refine halts_running h (fun out => Acc.intro _ fun m' hm' => ?_) (.start position)
    simp only [step, Option.bind_eq_bind, Option.bind_eq_some_iff, Option.pure_def,
      Option.some.injEq, Activation.resume?, hs] at hm'
    obtain ⟨_, rfl, _, ⟨fr, -, rfl⟩, rfl⟩ := hm'
    have hahead := ahead_next hs { fr with faulted := fr.faulted || out.faulted }
    exact halts_running h hcallers _
  · obtain ⟨flow, hflow, hm⟩ := Option.bind_eq_some_iff.mp hm
    obtain rfl := Option.some.inj hm
    cases flow with
    | next fr =>
        have hahead := ahead_next hs fr
        exact halts_running h hcallers (a.next fr)
    | goto b fr =>
        have hedge := h.edge hf (Function.edge_of_step hmem hflow)
        exact halts_running h hcallers (a.goto b fr)
    | done out => exact hcallers out
termination_by (a.position, height a.position a.block, ahead functions a)
decreasing_by
  · exact Prod.Lex.right _ (Prod.Lex.right _ hahead)
  · exact Prod.Lex.left _ _ hearlier
  · exact Prod.Lex.right _ (Prod.Lex.right _ hahead)
  · exact Prod.Lex.right _ (Prod.Lex.left _ _ hedge)

theorem halts_returning (h : Layered functions height) (out : Outcome)
    (callers : List Activation) : Halts functions (.returning out callers) := by
  induction callers generalizing out with
  | nil => exact Acc.intro _ fun m hm => by cases hm
  | cons a callers ih =>
      refine Acc.intro _ fun m hm => ?_
      simp only [step, Option.bind_eq_bind, Option.bind_eq_some_iff, Option.pure_def,
        Option.some.injEq] at hm
      obtain ⟨_, -, a', -, rfl⟩ := hm
      exact halts_running h ih a'

/-- The machine halts from every state. -/
theorem wellFounded_step (h : Layered functions height) :
    WellFounded fun m' m : Machine => m.step functions = some m' := by
  refine ⟨fun m => ?_⟩
  cases m with
  | running a callers => exact halts_running h (fun out => halts_returning h out callers) a
  | returning out callers => exact halts_returning h out callers

/-! ## Runs by nesting are runs of the machine -/

/-- What has an outcome is built in or an earlier function. -/
theorem linkage_eq_some {count index : Nat} {args : List Word} {out : Outcome}
    (h : linkage functions count index args = some out) :
    (index < firstRoutineIndex ∧ linkage functions 0 index args = some out) ∨
      ∃ k < count, index = firstRoutineIndex + k ∧ ∃ f, functions[k]? = some f ∧
        f.run (linkage functions k) = some out := by
  induction count with
  | zero =>
      refine Or.inl ⟨?_, h⟩
      by_contra hge
      obtain ⟨k, rfl⟩ := Nat.exists_eq_add_of_le' (Nat.not_lt.mp hge)
      cases h
  | succ count ih =>
      unfold linkage at h
      split at h
      · rename_i hindex
        split at h
        · obtain ⟨f, hf, hrun⟩ := Option.bind_eq_some_iff.mp h
          exact Or.inr ⟨count, Nat.lt_succ_self _, hindex, f, hf, hrun⟩
        · cases h
      · refine (ih h).imp_right ?_
        rintro ⟨k, hk, hrest⟩
        exact ⟨k, Nat.lt_succ_of_lt hk, hrest⟩

/-- A statement that calls no function of the program does without them. -/
theorem step_builtin {position : Nat} {f : Function} {s : Stmt} {fr : Frame} {flow : Flow}
    (hcall : s.callee? f = none)
    (h : f.step (linkage functions position) fr s = some flow) :
    f.step (linkage functions 0) fr s = some flow := by
  obtain ⟨number, results, inst⟩ := s
  cases inst with
  | call callee args =>
      simp only [Function.step, Option.bind_eq_bind, Option.bind_eq_some_iff] at h ⊢
      obtain ⟨i, hi, ws, hws, out, hout, hrest⟩ := h
      have hbuiltin : i.index < firstRoutineIndex := by
        simpa [Stmt.callee?, hi] using hcall
      refine ⟨i, hi, ws, hws, out, ?_, hrest⟩
      rcases linkage_eq_some hout with ⟨-, hout⟩ | ⟨k, -, hk, -⟩
      · exact hout
      · omega
  | _ => exact h

/-- A block is left. -/
theorem runBlock_ne_next {link : Linkage} {f : Function} {code : Block} {fr fr' : Frame} :
    f.runBlock link code fr ≠ some (.next fr') := by
  intro h
  fun_induction f.runBlock link code fr with
  | case1 => cases h
  | case2 s rest fr fr₁ hs ih => exact ih h
  | case3 s rest fr hne => exact hne fr' h

section Position

variable {position : Nat} {f : Function} {a : Activation} {s : Stmt} {flow : Flow}
  (hf : functions[position]? = some f)
  (hcalls : ∀ k < position, ∀ g out callers, functions[k]? = some g →
    g.run (linkage functions k) = some out →
    Reaches functions (.running (.start k) callers) (.returning out callers))
include hf hcalls

/-- What a statement does, the machine does in one or more steps. -/
theorem reaches_flow {callers : List Activation} (hposition : a.position = position)
    (hs : (f.block a.block)[a.offset]? = some s)
    (h : f.step (linkage functions position) a.frame s = some flow) :
    Reaches functions (.running a callers) (flow.machine a callers) := by
  have hstmt : a.stmt? functions = some (f, s) := by
    simp [Activation.stmt?, hposition, hf, hs]
  cases hcall : s.callee? f with
  | none => exact .single (step_local hstmt hcall (step_builtin hcall h))
  | some k =>
      obtain ⟨number, results, inst⟩ := s
      cases inst with
      | call callee args =>
          simp only [Function.step, Option.bind_eq_bind, Option.bind_eq_some_iff, Option.pure_def,
            Option.some.injEq] at h
          obtain ⟨i, hi, ws, -, out, hout, fr, hfr, rfl⟩ := h
          simp only [Stmt.callee?, hi, Option.bind_some] at hcall
          split at hcall
          · rename_i hindex
            obtain rfl := Option.some.inj hcall
            rcases linkage_eq_some hout with ⟨hlt, -⟩ | ⟨k, hk, hindex', g, hg, hrun⟩
            · omega
            · -- the call, the run of the callee, and the return
              have hresume : a.resume? results out =
                  some (a.next { fr with faulted := fr.faulted || out.faulted }) := by
                simp [Activation.resume?, hfr]
              obtain rfl : k = i.index - firstRoutineIndex := by omega
              exact .head (step_call hstmt (by simp [Stmt.callee?, hi, hindex]))
                ((hcalls _ hk g out (a :: callers) hg hrun).tail (step_return hstmt hresume))
          · cases hcall
      | _ => cases hcall

theorem reaches_block {callers : List Activation} {code : Block} (hposition : a.position = position)
    (hcode : (f.block a.block).drop a.offset = code)
    (h : f.runBlock (linkage functions position) code a.frame = some flow) :
    Reaches functions (.running a callers) (flow.machine a callers) := by
  induction code generalizing a with
  | nil => cases h
  | cons s rest ih =>
      have hs : (f.block a.block)[a.offset]? = some s := by
        rw [← List.head?_drop, hcode]
        rfl
      unfold Function.runBlock at h
      split at h
      · rename_i fr hstep
        have hrest : (f.block a.block).drop (a.offset + 1) = rest := by
          rw [← List.tail_drop, hcode]
          rfl
        have hreaches := ih (a := a.next fr) hposition hrest h
        refine (reaches_flow hf hcalls hposition hs hstep).trans ?_
        cases flow with
        | next fr' => exact absurd h runBlock_ne_next
        | goto c fr' => exact hreaches
        | done out => exact hreaches
      · exact reaches_flow hf hcalls hposition hs h

theorem reaches_runFrom {callers : List Activation} {fuel : Nat} {b : BlockId} {fr : Frame}
    {out : Outcome} (h : f.runFrom (linkage functions position) fuel b fr = some out) :
    Reaches functions (.running ⟨position, b, 0, fr⟩ callers) (.returning out callers) := by
  induction fuel generalizing b fr with
  | zero => cases h
  | succ fuel ih =>
      simp only [Function.runFrom, Option.bind_eq_bind, Option.bind_eq_some_iff] at h
      obtain ⟨code, hcode, flow, hflow, h⟩ := h
      have hblock : f.block b = code := by simp [Function.block, hcode]
      have hreaches : Reaches functions (.running ⟨position, b, 0, fr⟩ callers)
          (flow.machine ⟨position, b, 0, fr⟩ callers) :=
        reaches_block hf hcalls rfl (hblock ▸ rfl) hflow
      cases flow with
      | next fr' => cases h
      | goto c fr' => exact hreaches.trans (ih h)
      | done out' =>
          obtain rfl := Option.some.inj h
          exact hreaches

end Position

/-- A function that has an outcome in the linkage has it on the machine. -/
theorem reaches_run {position : Nat} {f : Function} {out : Outcome}
    (hf : functions[position]? = some f) (h : f.run (linkage functions position) = some out)
    (callers : List Activation) :
    Reaches functions (.running (.start position) callers) (.returning out callers) := by
  induction position using Nat.strong_induction_on generalizing f out callers with
  | _ position ih =>
      unfold Function.run at h
      split at h
      · exact reaches_runFrom hf (fun k hk g out callers hg hrun => ih k hk hg hrun callers) h
      · cases h

end Machine

end ScalarLang.Ir
