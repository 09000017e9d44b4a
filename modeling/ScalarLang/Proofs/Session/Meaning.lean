import Mathlib
import ScalarLang.Proofs.Lower.Simulation
import ScalarLang.Proofs.Program
import ScalarLang.Proofs.Session.History

/-
  What code means in a session.
  The functions of a session, with the bodies they were lowered from, are what calls refer to. By
  induction over the program, running a routine by its index agrees with evaluating a call of its
  name: a routine sees the routines before it only, and these are what its scope had. So whatever
  is lowered next runs as its statements evaluate.
-/

namespace ScalarLang

/-! ## Linkage -/

theorem Linked.congr {p q : Program} {link : Ir.Linkage} {call : String → Except Abort Value}
    (h : Linked p link call) (hq : q.routines = p.routines) : Linked q link call :=
  ⟨h.intrinsic, fun name index r hl => h.routine name index r (Program.lookup_congr hq name ▸ hl)⟩

theorem linkage_succ_of_ne {functions : List Ir.Function} {count index : Nat}
    (h : index ≠ firstRoutineIndex + count) (args : List Word) :
    Ir.linkage functions (count + 1) index args = Ir.linkage functions count index args :=
  if_neg h

theorem linkage_succ_self {functions : List Ir.Function} {count : Nat} {f : Ir.Function}
    (h : functions[count]? = some f) :
    Ir.linkage functions (count + 1) (firstRoutineIndex + count) [] =
      f.run (Ir.linkage functions count) := by
  refine (if_pos rfl).trans ?_
  rw [h]
  rfl

theorem linkage_intrinsic (functions : List Ir.Function) (count : Nat) (r : Intrinsic) :
    Ir.linkage functions count r.index = r.run := by
  induction count with
  | zero => cases r <;> rfl
  | succ count ih =>
      have hne : r.index ≠ firstRoutineIndex + count := by
        cases r <;> simp [Intrinsic.index, firstRoutineIndex] <;> omega
      funext args
      rw [linkage_succ_of_ne hne, ih]

/-- Routines with their bodies, the latest first. -/
def definitions (routines : List Routine) (origins : List Origin) : List (String × List Node) :=
  ((routines.zip origins).map fun (r, o) => (r.name, o.body)).reverse

/-- The functions that a session has. -/
def Ledger.definitions (l : Ledger) : List (String × List Node) :=
  ScalarLang.definitions l.session.program.routines l.origins

theorem definitions_concat {routines : List Routine} {origins : List Origin}
    (h : routines.length = origins.length) (r : Routine) (o : Origin) :
    definitions (routines ++ [r]) (origins ++ [o]) =
      (r.name, o.body) :: definitions routines origins := by
  simp [definitions, List.zip_append h]

theorem any_definitions {routines : List Routine} {origins : List Origin}
    (h : routines.length = origins.length) (name : String) :
    (definitions routines origins).any (·.1 == name) = routines.any (·.name == name) := by
  rw [definitions, List.any_reverse, List.any_map]
  have hfst : (routines.zip origins).map Prod.fst = routines := List.map_fst_zip (by omega)
  conv_rhs => rw [← hfst, List.any_map]
  rfl

/-- One more routine, which was lowered in what is there already. -/
theorem Linked.concat {p q : Program} {functions : List Ir.Function} {origins : List Origin}
    (h : Linked p (Ir.linkage functions p.size) (evalCall (definitions p.routines origins)))
    (hlen : p.routines.length = origins.length) {g : Routine} {o : Origin} {types : TypeTable}
    (hq : q.routines = p.routines ++ [g]) (hg : functions[p.size]? = some g.code)
    (hlower : (Routine.lower p types g.name g.anonymous o.body).1 = .ok g) :
    Linked q (Ir.linkage functions (p.size + 1))
      (evalCall ((g.name, o.body) :: definitions p.routines origins)) := by
  refine ⟨linkage_intrinsic functions _, fun name index r hl => ?_⟩
  have hknown := (any_definitions hlen name).trans (p.any_name name)
  rcases Program.lookup_concat hq hl with hl | ⟨hnone, hname, rfl, rfl⟩
  · obtain ⟨hsig, v, fault, hrun, htype, hr⟩ := h.routine name index r hl
    obtain ⟨k, rfl, hk, -⟩ := Program.lookup_eq_some hl
    have hlt : k < p.size := (List.getElem?_eq_some_iff.mp hk).1
    have hne : firstRoutineIndex + k ≠ firstRoutineIndex + p.size := by omega
    refine ⟨hsig, v, fault, by rw [linkage_succ_of_ne hne, hrun], htype, ?_⟩
    rw [Program.contains, hl, Option.isSome_some] at hknown
    rwa [evalCall, if_pos hknown]
  · obtain ⟨v, fault, hrun, htype, hr⟩ := Routine.run_lowered h hlower
    refine ⟨Routine.lower_signature hlower, v, fault, ?_, htype, ?_⟩
    · rw [Program.indexAt, linkage_succ_self hg, hrun]
    · rw [Program.contains, hnone, Option.isSome_none] at hknown
      rwa [evalCall, if_neg (by rw [hknown]; exact Bool.false_ne_true), if_pos hname]

/-- The first routines of a session's program are linked to the meaning of their functions. -/
theorem Traced.linked_take {p : Program} {origins : List Origin} (h : Traced p origins) (n : Nat)
    (hn : n ≤ p.size) :
    Linked ⟨p.routines.take n, 0⟩ (Ir.linkage (p.routines.map (·.code)) n)
      (evalCall (definitions (p.routines.take n) (origins.take n))) := by
  induction n with
  | zero => exact ⟨linkage_intrinsic _ 0, fun name index r hl => by simp [Program.lookup] at hl⟩
  | succ n ih =>
      have hlt : n < p.routines.length := hn
      obtain ⟨g, hg⟩ : ∃ g, p.routines[n]? = some g := ⟨_, List.getElem?_eq_getElem hlt⟩
      obtain ⟨o, ho, hscope, types, hlower⟩ := h.made n g hg
      have hsize : o.scope.size = n := by
        rw [Program.size, hscope, List.length_take, Nat.min_eq_left (Nat.le_of_lt hlt)]
      have hlen : (p.routines.take n).length = (origins.take n).length := by
        rw [List.length_take, List.length_take, h.length]
        rfl
      have hroutines : p.routines.take (n + 1) = p.routines.take n ++ [g] := by
        rw [List.take_add_one, hg]
        rfl
      have horigins : origins.take (n + 1) = origins.take n ++ [o] := by
        rw [List.take_add_one, ho]
        rfl
      rw [hroutines, horigins, definitions_concat hlen]
      have hbefore := (ih (Nat.le_of_lt hlt)).congr hscope
      rw [← hscope] at hlen hbefore ⊢
      subst hsize
      exact hbefore.concat hlen rfl (by rw [List.getElem?_map, hg]; rfl) hlower

/-- Every program that a session has is linked to the meaning of its functions. -/
theorem Traced.linked {p : Program} {origins : List Origin} (h : Traced p origins) :
    Linked p (Ir.linkage (p.routines.map (·.code)) p.size)
      (evalCall (definitions p.routines origins)) := by
  have hall := h.linked_take p.size (Nat.le_refl _)
  have hroutines : p.routines.take p.size = p.routines := List.take_length
  have horigins : origins.take p.size = origins := by rw [← h.length, List.take_length]
  rw [hroutines, horigins] at hall
  exact hall.congr rfl

/-! ## Meaning -/

/-- Lowering preserves meaning. After any commands, code of statements that are accepted runs to its
    end: without fault, and with the value `v`, exactly if the statements evaluate to `v`, where
    calls refer to the functions of the session, and with a fault exactly if they abort with a
    division by zero. -/
theorem lowered_code_means (types types' : TypeTable) (engine : Engine)
    (commands : List Session.Command) (name : String) (anonymous : Bool) (nodes : List Node)
    (r : Routine)
    (h : (Routine.lower ((Ledger.new types engine).run commands).session.program types' name
      anonymous nodes).1 = .ok r) :
    let l := (Ledger.new types engine).run commands
    let p := l.session.program
    let outcome := r.code.run (Ir.linkage (p.routines.map (·.code)) p.size)
    let meaning := Node.evalAll (evalCall l.definitions) nodes
    outcome.isSome ∧
      (∀ v, meaning = .ok v ↔ ∃ w, outcome = some ⟨[w], false⟩ ∧
        Value.ofWord? r.returnType.representation w = some v) ∧
      (meaning = .error .divisionByZero ↔ ∃ words, outcome = some ⟨words, true⟩) := by
  intro l p outcome meaning
  have hlinked := (run_traced types engine commands).linked
  obtain ⟨u, fault, hrun, htype, hr⟩ := Routine.run_lowered hlinked h
  have hout : outcome = some ⟨[u.word], fault⟩ := hrun
  have hread : Value.ofWord? r.returnType.representation u.word = some u := htype ▸ u.ofWord?_word
  have hr : Agrees meaning u fault := hr
  rw [hout]
  refine ⟨rfl, fun v => ⟨fun hm => ?_, ?_⟩, fun hm => ?_, ?_⟩
  · rw [hm] at hr
    obtain ⟨rfl, rfl⟩ := hr
    exact ⟨u.word, rfl, hread⟩
  · rintro ⟨w, hw, hv⟩
    simp only [Option.some.injEq, Ir.Outcome.mk.injEq, List.cons.injEq, and_true] at hw
    obtain ⟨rfl, rfl⟩ := hw
    rw [hr.eq_ok, Option.some.inj (hread.symm.trans hv)]
  · rw [hm] at hr
    exact ⟨[u.word], by rw [show fault = true from hr]⟩
  · rintro ⟨words, hw⟩
    simp only [Option.some.injEq, Ir.Outcome.mk.injEq] at hw
    obtain ⟨-, rfl⟩ := hw
    exact hr.eq_divisionByZero

/-- Two functions, the second of which calls the first in a test and in an arm. -/
def callingCommands : List Session.Command :=
  [.compile "def f() \x7b 7 / 2 \x7d",
    .compile "def g() \x7b when f() == 3 f() * 10 else 1 / 0 \x7d"]

/-- A quotient of what the second function gives. -/
def callingNodes (divisor : BitVec 64) : List Node :=
  [.binary ⟨0, 0⟩ .div (.call ⟨0, 0⟩ ⟨"g", ⟨0, 0⟩⟩ []) (.literal ⟨0, 0⟩ (.signed divisor))]

/-- The quotient by 4 is 7, and the one by 0 faults. -/
theorem callingNodes_mean :
    let p := ((Ledger.new .empty .new).run callingCommands).session.program
    ∃ r r', (Routine.lower p .empty "a" true (callingNodes 4)).1 = .ok r ∧
      (Routine.lower p .empty "b" true (callingNodes 0)).1 = .ok r' ∧
      (∃ w, r.code.run (Ir.linkage (p.routines.map (·.code)) p.size) = some ⟨[w], false⟩ ∧
        Value.ofWord? r.returnType.representation w = some (.signed 7)) ∧
      ∃ words, r'.code.run (Ir.linkage (p.routines.map (·.code)) p.size) = some ⟨words, true⟩ := by
  intro p
  have haccepted : (Routine.lower p .empty "a" true (callingNodes 4)).1.isOk = true ∧
      (Routine.lower p .empty "b" true (callingNodes 0)).1.isOk = true := by
    decide +kernel
  have hmeaning : Node.evalAll (evalCall ((Ledger.new .empty .new).run callingCommands).definitions)
      (callingNodes 4) = .ok (.signed 7) := by
    decide +kernel
  have habort : Node.evalAll (evalCall ((Ledger.new .empty .new).run callingCommands).definitions)
      (callingNodes 0) = .error .divisionByZero := by
    decide +kernel
  rcases hr : (Routine.lower p .empty "a" true (callingNodes 4)).1 with e | r
  · rw [hr] at haccepted
    exact nomatch haccepted.1
  rcases hr' : (Routine.lower p .empty "b" true (callingNodes 0)).1 with e | r'
  · rw [hr'] at haccepted
    exact nomatch haccepted.2
  exact ⟨r, r', rfl, rfl,
    ((lowered_code_means _ _ _ _ _ _ _ _ hr).2.1 _).mp hmeaning,
    (lowered_code_means _ _ _ _ _ _ _ _ hr').2.2.mp habort⟩

end ScalarLang
