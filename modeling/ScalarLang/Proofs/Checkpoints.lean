import Mathlib
import ScalarLang.Program

/-
  Checkpoints nest.
  A checkpoint has two numbers and no routines, so returning to it depends on the routines below it
  having stayed as they were. Routines are added at the end and dropped from the end, and returning
  to a later checkpoint, even to one of routines that are gone, drops none of them. Only retiring
  an entry point may: one that stood last at the checkpoint, whose place another routine can take.
-/

namespace ScalarLang.Program

/-- What can happen to a program. The checkpoints that were taken are numbered from 0. -/
inductive Move where
  | commit (r : Routine)
  | nameEntry
  | retireEntry
  | checkpoint
  | rollback (number : Nat)

/-- A program and the checkpoints taken of it, in order. Returning to one of them forgets none. -/
structure Trail where
  program : Program
  taken : List Checkpoint

namespace Trail

variable {p : Program} {t : Trail}

/-- A program of which no checkpoint has been taken. -/
def start (p : Program) : Trail := ⟨p, []⟩

def step (t : Trail) : Move → Trail
  | .commit r => { t with program := t.program.commit r }
  | .nameEntry => { t with program := t.program.nextEntryName.2 }
  | .retireEntry => { t with program := t.program.retireEntry }
  | .checkpoint => { t with taken := t.taken ++ [t.program.checkpoint] }
  | .rollback number =>
    { t with program := (t.taken[number]?.map t.program.rollback).getD t.program }

def run (t : Trail) (moves : List Move) : Trail := moves.foldl step t

theorem run_concat (t : Trail) (moves : List Move) (m : Move) :
    t.run (moves ++ [m]) = (t.run moves).step m := by
  rw [run, List.foldl_append]
  rfl

/-! ## One move -/

/-- The routines of a program still stand first, and no checkpoint was taken of fewer. -/
structure Above (p : Program) (t : Trail) : Prop where
  routines : p.routines <+: t.program.routines
  taken : ∀ c ∈ t.taken, p.size ≤ c.size

namespace Above

/-- Routines may be lost at the end as long as enough are left. -/
theorem shorten (h : Above p t) {q : Program} (hq : q.routines <+: t.program.routines)
    (hsize : p.size ≤ q.size) : Above p { t with program := q } :=
  ⟨List.prefix_of_prefix_length_le h.routines hq hsize, h.taken⟩

theorem retire (h : Above p t) (hsize : p.size ≤ t.program.retireEntry.size) :
    Above p (t.step .retireEntry) := by
  refine h.shorten ?_ hsize
  unfold retireEntry
  split
  · exact List.dropLast_prefix _
  · exact List.prefix_rfl

theorem rollback (h : Above p t) (number : Nat) : Above p (t.step (.rollback number)) := by
  cases hc : t.taken[number]? with
  | none =>
      simp only [step, hc, Option.map_none, Option.getD_none]
      exact h
  | some c =>
      have hsize : (t.program.rollback c).size = min c.size t.program.size := List.length_take
      simp only [step, hc, Option.map_some, Option.getD_some]
      refine h.shorten (List.take_prefix _ _) ?_
      rw [hsize]
      exact Nat.le_min.mpr ⟨h.taken c (List.mem_of_getElem? hc), h.routines.length_le⟩

theorem step (h : Above p t) {m : Move}
    (hsize : m = .retireEntry → p.size ≤ t.program.retireEntry.size) : Above p (t.step m) := by
  cases m with
  | commit r => exact ⟨h.routines.trans (List.prefix_append _ _), h.taken⟩
  | nameEntry => exact ⟨h.routines, h.taken⟩
  | retireEntry => exact h.retire (hsize rfl)
  | checkpoint =>
      refine ⟨h.routines, fun c hc => ?_⟩
      rcases List.mem_append.mp hc with hc | hc
      · exact h.taken c hc
      · rw [List.mem_singleton.mp hc]
        exact h.routines.length_le
  | rollback number => exact h.rollback number

/-! ## All moves -/

theorem run (p : Program) (moves : List Move)
    (h : ∀ before after, moves = before ++ .retireEntry :: after →
      p.size ≤ ((start p).run before).program.retireEntry.size) :
    Above p ((start p).run moves) := by
  induction moves using List.reverseRecOn with
  | nil => exact ⟨List.prefix_rfl, fun c hc => (nomatch hc)⟩
  | append_singleton moves m ih =>
      rw [run_concat]
      refine (ih fun before after heq => ?_).step fun hm => h moves [] (by rw [hm])
      exact h before (after ++ [m]) (by rw [heq, List.append_assoc, List.cons_append])

end Above

end Trail

/-- Returning to a checkpoint restores the program it was taken of, with its routines, their order
    and the count of entry points, whatever was added, dropped and returned to since, if at no time
    fewer routines were left than the program had. -/
theorem checkpoints_nest (p : Program) (moves : List Move)
    (h : ∀ k ≤ moves.length, p.size ≤ ((Trail.start p).run (moves.take k)).program.size) :
    ((Trail.start p).run moves).program.rollback p.checkpoint = p := by
  have habove : Trail.Above p ((Trail.start p).run moves) := by
    refine .run p moves fun before after hmoves => ?_
    have hsize := h (before.length + 1) (by rw [hmoves, List.length_append, List.length_cons]; omega)
    rwa [hmoves, List.take_length_add_append, List.take_succ_cons, List.take_zero,
      Trail.run_concat] at hsize
  rw [rollback, checkpoint, size, ← List.prefix_iff_eq_take.mp habove.routines]

/-- A routine without code. -/
def blank (name : String) (anonymous : Bool) : Routine :=
  ⟨name, .i64, anonymous, .empty name ⟨[], []⟩⟩

/-- The last checkpoint that is returned to was taken of routines that are gone by then. -/
def detour : List Move :=
  [.commit (blank "g" false), .checkpoint, .nameEntry, .commit (blank "anon$2" true), .checkpoint,
    .rollback 0, .nameEntry, .commit (blank "h" false), .rollback 1, .nameEntry,
    .commit (blank "anon$3" true), .retireEntry]

theorem detour_nested :
    (∀ k ≤ detour.length, 1 ≤
      ((Trail.start ⟨[blank "f" false], 1⟩).run (detour.take k)).program.size) ∧
    ((Trail.start ⟨[blank "f" false], 1⟩).run detour).program.size = 3 ∧
    ((Trail.start ⟨[blank "f" false], 1⟩).run detour).program.rollback ⟨1, 1⟩ =
      ⟨[blank "f" false], 1⟩ := by
  have hsize : ∀ k ≤ detour.length, 1 ≤
      ((Trail.start ⟨[blank "f" false], 1⟩).run (detour.take k)).program.size := by decide
  exact ⟨hsize, by decide, checkpoints_nest ⟨[blank "f" false], 1⟩ detour hsize⟩

end ScalarLang.Program
