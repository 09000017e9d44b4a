import Mathlib
import ScalarLang.Ir.Run
import ScalarLang.Proofs.Ir.Building

/-
  Paths through the blocks of a function, and dominance.
  A block dominates another if every path from the entry to the other visits it. Dominance is
  shown by a certificate: a set of blocks for each block, such that along every edge nothing
  appears in the set but the block that is entered. A certificate is kept up while a function is
  built, because a new edge has to be compared with the sets at its two ends only.
-/

namespace ScalarLang.Ir.Function

/-- Control may go from block `b` to block `c`. -/
def Edge (f : Function) (b c : BlockId) : Prop := ∃ s ∈ f.block b, c ∈ s.inst.targets

/-- A step goes to a target of its instruction. -/
theorem target_of_step {link : Linkage} {f : Function} {fr fr' : Frame} {s : Stmt} {b : BlockId}
    (h : f.step link fr s = some (.goto b fr')) : b ∈ s.inst.targets := by
  rcases hi : s.inst with _ | _ | _ | _ | _ | _ | _ | _ | _ | _ | target | ⟨c, t, e⟩
  case jump =>
    simp only [step, hi, Option.some.injEq, Flow.goto.injEq] at h
    simp [Inst.targets, h.1]
  case brif =>
    simp only [step, hi, Option.bind_eq_bind, Option.bind_eq_some_iff, Option.pure_def,
      Option.some.injEq, Flow.goto.injEq] at h
    obtain ⟨w, -, b', -, rfl, -⟩ := h
    cases b' <;> simp [Inst.targets]
  all_goals
    simp [step, hi, Option.bind_eq_some_iff] at h

theorem edge_of_step {link : Linkage} {f : Function} {fr fr' : Frame} {s : Stmt} {b c : BlockId}
    (hs : s ∈ f.block b) (h : f.step link fr s = some (.goto c fr')) : f.Edge b c :=
  ⟨s, hs, target_of_step h⟩

/-- The blocks that a path from the entry visits, the last one first. -/
inductive Path (f : Function) : List BlockId → Prop where
  | entry : Path f [0]
  | step {b c : BlockId} {visited : List BlockId} :
      Path f (b :: visited) → f.Edge b c → Path f (c :: b :: visited)

/-- Every path from the entry to `c` visits `d`. -/
def Dominates (f : Function) (d c : BlockId) : Prop :=
  ∀ visited, f.Path (c :: visited) → d ∈ c :: visited

/-- The sets are dominators: only the block itself is new when a block is entered. -/
structure Dominators (f : Function) (doms : BlockId → Set BlockId) : Prop where
  entry : doms 0 ⊆ {0}
  edge : ∀ b c, f.Edge b c → doms c ⊆ insert c (doms b)

theorem Dominators.dominates {f : Function} {doms : BlockId → Set BlockId} (h : f.Dominators doms)
    {d c : BlockId} (hd : d ∈ doms c) : f.Dominates d c := by
  intro visited hp
  generalize hv : c :: visited = path at hp
  induction hp generalizing c visited with
  | entry =>
      obtain ⟨rfl, -⟩ := List.cons_eq_cons.mp hv
      exact List.mem_singleton.mpr (h.entry hd)
  | @step b c' rest _ he ih =>
      obtain ⟨rfl, -⟩ := List.cons_eq_cons.mp hv
      -- either `d` is the block just entered, or it is in the set of the block before
      rcases h.edge b c he hd with rfl | hd
      · exact List.mem_cons_self
      · exact List.mem_cons_of_mem _ (ih hd rest rfl)

end ScalarLang.Ir.Function
