import Mathlib
import ScalarLang.Proofs.Ir.Machine
import ScalarLang.Proofs.Lower.Ranking
import ScalarLang.Proofs.Session.Linking
import ScalarLang.Proofs.Session.Meaning
import ScalarLang.Proofs.Session.Names

/-
  Every program halts.
  Within a routine control moves forward, and a routine was lowered when those that it calls were
  there already. Both hold of every program that a session can have, so no routine calls itself,
  not even through others, and the machine halts from every state. Where it halts after an entry
  point was called is the outcome that the engine gives.
-/

namespace ScalarLang

open Ir (Machine)

/-- The routine at one position has a call of the routine at another. -/
def Program.Calls (p : Program) (caller callee : Nat) : Prop :=
  ∃ r b s, p.routines[caller]? = some r ∧ s ∈ r.code.block b ∧ s.callee? r.code = some callee

instance (p : Program) (caller callee : Nat) : Decidable (p.Calls caller callee) :=
  decidable_of_iff (p.routines[caller]?.any (fun r =>
      r.code.blocks.any (·.any (·.callee? r.code == some callee))) = true) <| by
    simp only [Option.any_eq_true, List.any_eq_true, beq_iff_eq, Ir.Function.mem_blocks_iff]
    constructor
    · rintro ⟨r, hr, _, ⟨b, -, rfl⟩, s, hs, hcallee⟩
      exact ⟨r, b, s, hr, hs, hcallee⟩
    · rintro ⟨r, b, s, hr, hs, hcallee⟩
      exact ⟨r, hr, _, ⟨b, Ir.Function.block_mem hs, rfl⟩, s, hs, hcallee⟩

namespace Traced

variable {p : Program} {origins : List Origin}

theorem ranked (h : Traced p origins) {r : Routine} (hr : r ∈ p.routines) :
    ∃ rank, r.code.Ranked rank := by
  obtain ⟨k, hk⟩ := List.mem_iff_getElem?.mp hr
  obtain ⟨o, -, -, types, hlower⟩ := h.made k r hk
  exact Routine.lower_ranked hlower

/-- Calls go to earlier positions. -/
theorem callee_lt (h : Traced p origins) {caller callee : Nat} (hcall : p.Calls caller callee) :
    callee < caller := by
  obtain ⟨r, b, s, hr, -, hs⟩ := hcall
  obtain ⟨o, ho, -⟩ := h.made caller r hr
  unfold Ir.Stmt.callee? at hs
  split at hs
  · obtain ⟨i, hi, hs⟩ := Option.bind_eq_some_iff.mp hs
    split at hs
    · rename_i hindex
      obtain rfl := Option.some.inj hs
      obtain ⟨k, f, hk, hlt, -⟩ := h.import_sound hr ho (List.mem_of_getElem? hi) hindex
      rw [hk, Program.indexAt]
      omega
    · cases hs
  · cases hs

theorem calls_acyclic (h : Traced p origins) (k : Nat) : ¬ Relation.TransGen p.Calls k k := by
  have hlt {i j : Nat} (hij : Relation.TransGen p.Calls i j) : j < i := by
    induction hij with
    | single hc => exact h.callee_lt hc
    | tail _ hc ih => exact (h.callee_lt hc).trans ih
  exact fun hk => Nat.lt_irrefl k (hlt hk)

theorem layered (h : Traced p origins) : ∃ height, Ir.Layered (p.routines.map (·.code)) height := by
  have hheight (k : Nat) : ∃ height : Nat → Nat, ∀ r, p.routines[k]? = some r →
      ∀ b c, r.code.Edge b c → height c < height b := by
    cases hk : p.routines[k]? with
    | none => exact ⟨fun _ => 0, fun r hr => by cases hr⟩
    | some r =>
        obtain ⟨rank, hrank⟩ := h.ranked (List.mem_of_getElem? hk)
        obtain ⟨height, hheight⟩ := hrank.exists_height
        refine ⟨height, fun r' hr' => ?_⟩
        obtain rfl := Option.some.inj hr'
        exact hheight
  choose height hheight using hheight
  refine ⟨height, fun {k f b c} hf he => ?_, fun {k callee f b s} hf hs hcall => ?_⟩
  all_goals
    rw [List.getElem?_map] at hf
    obtain ⟨r, hr, rfl⟩ := Option.map_eq_some_iff.mp hf
  · exact hheight k r hr b c he
  · exact h.callee_lt ⟨r, b, s, hr, hs, hcall⟩

/-- A call of any routine comes to its outcome. -/
theorem reaches_outcome (h : Traced p origins) (hnames : (p.routines.map (·.name)).Nodup) {k : Nat}
    {r : Routine} (hr : p.routines[k]? = some r) :
    ∃ out, Ir.linkage (p.routines.map (·.code)) p.size (Program.indexAt k) [] = some out ∧
      Machine.Reaches (p.routines.map (·.code)) (.running (.start k) []) (.returning out []) := by
  have hl := (Program.lookup_eq_some_iff hnames).mpr ⟨k, hr, rfl, rfl⟩
  obtain ⟨-, v, fault, hrun, -⟩ := h.linked.routine r.name _ r hl
  refine ⟨_, hrun, ?_⟩
  rcases Machine.linkage_eq_some hrun with ⟨hlt, -⟩ | ⟨j, -, hj, f, hf, hout⟩
  · exact absurd hlt (by simp [Program.indexAt])
  · obtain rfl : k = j := by
      rw [Program.indexAt] at hj
      omega
    exact Machine.reaches_run hf hout []

end Traced

/-- Every program halts. After any commands, no routine has a cycle of blocks, a routine calls
    earlier ones only and so never itself, directly or through others. The machine makes no
    infinite run from any state, whatever values its frames have, and from the call of any routine
    it comes to the outcome that the engine gives. -/
theorem every_program_halts (types : TypeTable) (engine : Engine)
    (commands : List Session.Command) :
    let p := ((Ledger.new types engine).run commands).session.program
    let functions := p.routines.map (·.code)
    (∀ r ∈ p.routines, ∀ b, ¬ Relation.TransGen r.code.Edge b b) ∧
    (∀ caller callee, p.Calls caller callee → callee < caller) ∧
    (∀ k, ¬ Relation.TransGen p.Calls k k) ∧
    (WellFounded fun m' m : Machine => m.step functions = some m') ∧
    ∀ k r, p.routines[k]? = some r →
      ∃ out, Ir.linkage functions p.size (Program.indexAt k) [] = some out ∧
        Machine.Reaches functions (.running (.start k) []) (.returning out []) := by
  intro p functions
  have h : Traced p _ := run_traced types engine commands
  have hnames : (p.routines.map (·.name)).Nodup := (run_tidy types engine commands).names
  refine ⟨fun r hr => ?_, fun _ _ => h.callee_lt, h.calls_acyclic, ?_,
    fun k r hr => h.reaches_outcome hnames hr⟩
  · obtain ⟨rank, hrank⟩ := h.ranked hr
    exact hrank.acyclic
  · obtain ⟨height, hlayered⟩ := h.layered
    exact Machine.wellFounded_step hlayered

/-- Definitions in one source, the second of which calls the first inside of a conditional and the
    third of which calls itself and is refused, and an entry point that calls the second. -/
def nestedCommands : List Session.Command :=
  [.compile "def f() \x7b 7 / 0 \x7d; def g() \x7b when f() > 3 f() else if True 1 else 2 \x7d",
    .compile "def h() \x7b h() \x7d", .compile "g() + f()"]

theorem nestedCommands_halt :
    let p := ((Ledger.new .empty .new).run nestedCommands).session.program
    p.routines.map (·.name) = ["f", "g", "anon$1"] ∧ p.Calls 1 0 ∧ p.Calls 2 1 ∧
      (¬ Relation.TransGen p.Calls 1 1) ∧
      ∃ out, Ir.linkage (p.routines.map (·.code)) 3 (Program.indexAt 2) [] = some out ∧
        out.faulted = true ∧
        Machine.Reaches (p.routines.map (·.code)) (.running (.start 2) []) (.returning out []) := by
  intro p
  obtain ⟨-, -, hcalls, -, hreaches⟩ := every_program_halts .empty .new nestedCommands
  have hnames : p.routines.map (·.name) = ["f", "g", "anon$1"] := by decide +kernel
  have hsize : p.size = 3 := by decide +kernel
  refine ⟨hnames, by decide +kernel, by decide +kernel, hcalls 1, ?_⟩
  have hentry : p.routines[2]?.isSome = true := by decide +kernel
  obtain ⟨r, hr⟩ := Option.isSome_iff_exists.mp hentry
  obtain ⟨out, hout, hrun⟩ := hreaches 2 r hr
  have hfault : (Ir.linkage (p.routines.map (·.code)) p.size (Program.indexAt 2) []).any
      (·.faulted) = true := by decide +kernel
  rw [hout] at hfault
  exact ⟨out, hsize ▸ hout, hfault, hrun⟩

end ScalarLang
