import Mathlib
import ScalarLang.Proofs.Session.Linking
import ScalarLang.Proofs.Session.Meaning
import ScalarLang.Proofs.Session.Names

/-
  Accepted code runs.
  All code of a session passes the check, since no routine takes arguments and built-in routines
  get what they ask for. So a program loads unless one of its names is that of a built-in routine,
  which a definition may be given. A program that loads has the entry point, and running it comes
  to its end with a value or with a division by zero.
-/

namespace ScalarLang

/-! ## The check -/

namespace Traced

variable {p : Program} {origins : List Origin}

theorem isValid (h : Traced p origins) {r : Routine} (hr : r ∈ p.routines) :
    r.code.isValid = true := by
  obtain ⟨k, hk⟩ := List.mem_iff_getElem?.mp hr
  obtain ⟨o, ho, hscope, types, hlower⟩ := h.made k r hk
  have hsig : ∀ r' ∈ o.scope.routines, r'.signature = ⟨[], [r'.returnType.machineType]⟩ := by
    intro r' hr'
    rw [hscope] at hr'
    exact h.signature (List.mem_of_mem_take hr')
  obtain ⟨hwf, -, himports⟩ := Routine.lower_wellFormed (h.consistent_scope hk ho) hlower
  refine hwf.isValid_iff.mpr fun b s hs callee args i hcall hi => ?_
  have ht := hwf.typed b s hs
  simp only [Ir.Function.Typed, hcall] at ht
  obtain ⟨i', hi', hlen, -, hbuiltin⟩ := ht
  obtain rfl : i' = i := Option.some.inj (hi'.symm.trans hi)
  by_cases hlt : i'.index < firstRoutineIndex
  · exact hbuiltin hlt
  · -- a routine of the program has no parameters
    have hat := himports i' (List.mem_of_getElem? hi)
    rw [Program.signatureAt?_of_le (Nat.le_of_not_lt hlt)] at hat
    obtain ⟨r', hr', hsig'⟩ := Option.map_eq_some_iff.mp hat
    rw [← hsig', hsig r' (List.mem_of_getElem? hr')] at hlen ⊢
    rw [List.length_eq_zero_iff.mp hlen]
    rfl

theorem verify (h : Traced p origins) : Engine.verify p = .ok () := by
  have hnone : p.routines.find? (!·.code.isValid) = none :=
    List.find?_eq_none.mpr fun r hr => by simp [h.isValid hr]
  simp only [Engine.verify, hnone]

/-! ## Running -/

variable {engine : Engine} {entry : String}

theorem image_eq (h : Traced p origins) (hsymbols : p.symbols.Nodup) :
    Engine.image p = .ok ⟨p.routines, p.table⟩ := by
  have hdefine : Engine.defineAll p = .ok p.table :=
    (Engine.defineAll_eq_ok_iff fun r hr => h.signature_ne_intrinsic hr).mpr ⟨hsymbols, rfl⟩
  simp only [Engine.image, h.verify, hdefine, bind, Except.bind]
  rfl

theorem image_refused (h : Traced p origins) (hsymbols : ¬ p.symbols.Nodup) :
    ∃ reason, Engine.image p = .error (.backend reason) := by
  rcases hdefine : Engine.defineAll p with e | entries
  · obtain ⟨reason, rfl⟩ := Engine.defineAll_error hdefine
    refine ⟨reason, ?_⟩
    simp only [Engine.image, h.verify, hdefine, bind, Except.bind]
  · have hok := (Engine.defineAll_eq_ok_iff fun r hr => h.signature_ne_intrinsic hr).mp hdefine
    exact absurd hok.1 hsymbols

/-- Running an entry of the table comes to its end and gives a value that can be read, which is
    what a call of the entry means. -/
theorem run?_entry (h : Traced p origins) {index : Nat} {r : Routine}
    (hl : p.lookup entry = some (index, r)) :
    ∃ v fault, Image.run? ⟨p.routines, p.table⟩ ⟨index, r.returnType.representation⟩ =
      some (v, fault) ∧ Agrees (evalCall (definitions p.routines origins) entry) v fault := by
  obtain ⟨-, v, fault, hrun, htype, hagrees⟩ := h.linked.routine entry index r hl
  refine ⟨v, fault, ?_, hagrees⟩
  have hread : Value.ofWord? r.returnType.representation v.word = some v := htype ▸ v.ofWord?_word
  have hrun : Ir.linkage (p.routines.map (·.code)) p.routines.length index [] =
    some ⟨[v.word], fault⟩ := hrun
  simp [Image.run?, hrun, hread]

/-- Executing an entry point gives what a call of it means. -/
theorem execute_eq (h : Traced p origins) (hsymbols : p.symbols.Nodup)
    (hentry : p.contains entry = true) (hengine : engine.isLoaded = false) :
    ∃ v fault, (engine.execute p entry).1 = (if fault then .error .divisionByZero else .ok v) ∧
      Agrees (evalCall (definitions p.routines origins) entry) v fault := by
  obtain ⟨⟨index, r⟩, hl⟩ := Option.isSome_iff_exists.mp hentry
  obtain ⟨v, fault, hrun, hagrees⟩ := h.run?_entry hl
  have htable : p.table.lookup entry = some ⟨index, r.returnType.representation⟩ := by
    rw [Program.lookup_table hsymbols, hl]
    rfl
  refine ⟨v, fault, ?_, hagrees⟩
  rw [Engine.execute_of_image hengine (h.image_eq hsymbols)]
  simp only [Engine.call, htable, hrun]
  cases fault <;> rfl

theorem execute_runs (h : Traced p origins) (hsymbols : p.symbols.Nodup)
    (hentry : p.contains entry = true) (hengine : engine.isLoaded = false) :
    (∃ v, (engine.execute p entry).1 = .ok v) ∨
      (engine.execute p entry).1 = .error .divisionByZero := by
  obtain ⟨v, fault, hresult, -⟩ := h.execute_eq hsymbols hentry hengine
  cases fault with
  | false => exact Or.inl ⟨v, hresult⟩
  | true => exact Or.inr hresult

theorem execute_refused (h : Traced p origins) (hsymbols : ¬ p.symbols.Nodup)
    (hengine : engine.isLoaded = false) (entry : String) :
    ∃ reason, (engine.execute p entry).1 = .error (.backend reason) := by
  obtain ⟨reason, himage⟩ := h.image_refused hsymbols
  exact ⟨reason, by rw [Engine.execute_of_error hengine himage]⟩

end Traced

/-! ## The engine -/

theorem step_unloaded {l : Ledger} (h : l.engine.isLoaded = false) (c : Session.Command) :
    (l.step c).engine.isLoaded = false := by
  cases c with
  | compile source => exact h
  | execute entry => exact Engine.execute_unloaded h _ entry
  | eval source =>
      have heval : (l.step (.eval source)).engine = (l.session.eval l.engine source).2.2 := rfl
      rw [heval]
      rcases l.session.eval_effect l.engine source with ⟨-, he⟩ | ⟨entry, -, he⟩
      · rwa [he]
      · rw [he]
        exact Engine.execute_unloaded h _ entry
  | reset => exact h

theorem run_unloaded (types : TypeTable) {engine : Engine} (h : engine.isLoaded = false)
    (commands : List Session.Command) :
    ((Ledger.new types engine).run commands).engine.isLoaded = false :=
  List.foldlRecOn (motive := fun l => l.engine.isLoaded = false) commands Ledger.step h
    fun _ hl c _ => step_unloaded hl c

/-! ## Accepted code -/

theorem Intrinsic.isWord_symbol (i : Intrinsic) : IsWord i.symbol := by
  cases i <;> simp [IsWord, Intrinsic.symbol, isWordChar]

/-- With an entry point pending, only the name of a definition can be that of a built-in
    routine. -/
theorem Pending.symbols_nodup_iff {p : Program} {entry : String} (h : Pending p entry) :
    p.symbols.Nodup ↔ ∀ name ∈ p.definedNames, Intrinsic.ofSymbol? name = none := by
  rw [Program.symbols_nodup_iff (Tidy.names (Or.inr ⟨entry, h⟩))]
  obtain ⟨rs, e, hrs, hp, he, rfl, hentry⟩ := h
  have hdefined : p.definedNames = rs.map (·.name) := by
    have hall : rs.filter (!·.anonymous) = rs :=
      List.filter_eq_self.mpr fun r hr => by simp [(hrs.named r hr).1]
    simp [Program.definedNames, hp, he, hall]
  have hnone : Intrinsic.ofSymbol? e.name = none := by
    refine List.find?_eq_none.mpr fun i _ hi => hentry ?_
    rw [← eq_of_beq hi]
    exact i.isWord_symbol
  rw [hdefined, hp]
  simp [or_imp, forall_and, hnone]

/-- Accepted code runs. After any commands on an engine without a program, if a source is compiled
    to an entry point then executing it gives a value or the fault of a division by zero, exactly
    if no defined function has the name of a built-in routine; the only other failure is that the
    backend refuses the program. -/
theorem accepted_code_runs_iff (types : TypeTable) {engine : Engine}
    (hengine : engine.isLoaded = false) (commands : List Session.Command) {source entry : String}
    {s : Session} (h : ((Ledger.new types engine).run commands).session.compile source =
      (.ok (some entry), s)) :
    let result := (s.execute ((Ledger.new types engine).run commands).engine entry).1
    (((∃ v, result = .ok v) ∨ result = .error .divisionByZero) ↔
        ∀ name ∈ s.definedFunctions, Intrinsic.ofSymbol? name = none) ∧
      ∀ e, result = .error e → e = .divisionByZero ∨ ∃ reason, e = .backend reason := by
  intro result
  have htraced := compile_traced (run_traced types engine commands) source
  have hpending := compile_names (run_tidy types engine commands) source
  rw [h] at htraced hpending
  have hunloaded := run_unloaded types hengine commands
  have hnames : s.definedFunctions = s.program.definedNames := rfl
  rw [hnames, ← hpending.symbols_nodup_iff]
  by_cases hsymbols : s.program.symbols.Nodup
  · have hruns := htraced.execute_runs hsymbols hpending.contains hunloaded
    refine ⟨iff_of_true hruns hsymbols, fun e he => Or.inl ?_⟩
    rcases hruns with ⟨v, hv⟩ | hdivision
    · exact nomatch hv.symm.trans he
    · exact Except.error.inj (he.symm.trans hdivision)
  · obtain ⟨reason, hr⟩ := htraced.execute_refused hsymbols hunloaded entry
    have hr : result = .error (.backend reason) := hr
    refine ⟨iff_of_false ?_ hsymbols, fun e he => Or.inr ⟨reason, ?_⟩⟩
    · rintro (⟨v, hv⟩ | hdivision)
      · exact nomatch hr.symm.trans hv
      · exact nomatch hr.symm.trans hdivision
    · exact Except.error.inj (he.symm.trans hr)

/-- Two functions, the second of which faults. -/
def dividingCommands : List Session.Command :=
  [.eval "def f() \x7b 7 \x7d; f()", .eval "def g() \x7b f() / 0 \x7d; g()"]

/-- A fault stops no code but the code that has it. -/
theorem dividingCommands_run :
    let l := (Ledger.new .empty .new).run dividingCommands
    Engine.new.isLoaded = false ∧
      ∃ s, l.session.compile "f() + 1" = (.ok (some "anon$3"), s) ∧
        s.definedFunctions = ["f", "g"] ∧
        ((∃ v, (s.execute l.engine "anon$3").1 = .ok v) ∨
          (s.execute l.engine "anon$3").1 = .error .divisionByZero) := by
  intro l
  have hentry : (l.session.compile "f() + 1").1.toOption = some (some "anon$3") := by
    decide +kernel
  have hnames : (l.session.compile "f() + 1").2.definedFunctions = ["f", "g"] := by
    decide +kernel
  have h : l.session.compile "f() + 1" = (.ok (some "anon$3"), (l.session.compile "f() + 1").2) :=
    Prod.ext (eq_ok_of_toOption hentry) rfl
  refine ⟨rfl, _, h, hnames, ?_⟩
  refine (accepted_code_runs_iff .empty rfl dividingCommands h).1.mpr ?_
  rw [hnames]
  decide +kernel

/-- A definition with the name of a built-in routine is accepted, and then code that has nothing to
    do with it does not run. -/
theorem builtin_name_stops_session :
    let first := (Session.new .empty).eval .new "def aki_check_divisor() \x7b 1 \x7d"
    first.1 = .ok none ∧ ∃ entry s, first.2.1.compile "1 + 1" = (.ok (some entry), s) ∧
      (s.execute first.2.2 entry).1 = .error (.backend ("Function aki_check_divisor signature " ++
        Signature.description ⟨[], [.i64]⟩ ++ " is incompatible with previous declaration " ++
        Signature.description ⟨[.i64], []⟩)) := by
  intro first
  have hfirst : first.1.toOption = some none := by decide +kernel
  have hentry : (first.2.1.compile "1 + 1").1.toOption = some (some "anon$1") := by decide +kernel
  refine ⟨eq_ok_of_toOption hfirst, "anon$1", (first.2.1.compile "1 + 1").2, ?_, ?_⟩
  · exact Prod.ext (eq_ok_of_toOption hentry) rfl
  · decide +kernel

end ScalarLang
