import Mathlib
import ScalarLang.Proofs.Session.Noninterference

/-
  Sessions over different tables of types.
  A table is shared by all sessions and outlives them, so the number of a type depends on everything
  that was lowered before. Lowering goes by these numbers, but it comes to what it would come to
  with the types that they stand for, and those do not depend on the table. So two sessions that
  start over different tables keep one program between them, command by command.
-/

namespace ScalarLang

/-- What a command answers. -/
inductive Session.Answer where
  | compiled (result : Except Diagnostic (Option String))
  | executed (result : Except EngineError Value)
  | evaluated (result : Except Diagnostic (Option Value))
  | done

/-- What a session shows: the functions that are defined, the type of each routine's result and the
    listing of the code. -/
structure Session.View where
  functions : List String
  returnTypes : List ScalarType
  listing : String
deriving DecidableEq

def Session.view (s : Session) : Session.View :=
  ⟨s.definedFunctions, s.program.routines.map (·.returnType), s.dump⟩

namespace Ledger

def answer (l : Ledger) : Session.Command → Session.Answer
  | .compile source => .compiled (l.session.compile source).1
  | .execute entry => .executed (l.session.execute l.engine entry).1
  | .eval source => .evaluated (l.session.eval l.engine source).1
  | .reset => .done

/-- What commands answer, one after the other, each with what the session shows then. -/
def record (l : Ledger) : List Session.Command → List (Session.Answer × Session.View)
  | [] => []
  | c :: rest => (l.answer c, (l.step c).session.view) :: (l.step c).record rest

end Ledger

/-! ## One program over two tables -/

/-- The steps end in the same way and leave the same program. -/
def Alongside {ε α : Type} (out out' : Except ε α × Session) : Prop :=
  out'.1 = out.1 ∧ out'.2.program = out.2.program

variable {s s' : Session}

theorem define_alongside (h : s'.program = s.program) (ds : List Definition) :
    Alongside (s.define ds) (s'.define ds) := by
  induction ds generalizing s s' with
  | nil => exact ⟨rfl, h⟩
  | cons d rest ih =>
      have hsame := Routine.ofDefinition_types s.program s.types s'.types d
      rcases hd : Routine.ofDefinition s.program s.types d with ⟨r, types⟩
      rcases hd' : Routine.ofDefinition s.program s'.types d with ⟨r', types'⟩
      rw [hd, hd'] at hsame
      obtain rfl : r' = r := hsame
      cases r' with
      | error e =>
          simp only [Session.define, h, hd, hd']
          exact ⟨rfl, rfl⟩
      | ok r =>
          simp only [Session.define, h, hd, hd']
          exact ih rfl

theorem Session.addEntry_eq (s : Session) (nodes : List Node) :
    s.addEntry nodes =
      match Routine.lower s.program.nextEntryName.2 s.types s.program.nextEntryName.1 true nodes with
      | (.ok r, types) => (.ok s.program.nextEntryName.1, ⟨types, s.program.nextEntryName.2.commit r⟩)
      | (.error e, types) =>
        (.error e, ⟨types, s.program.nextEntryName.2.rollback s.program.checkpoint⟩) := rfl

theorem addEntry_alongside (h : s'.program = s.program) (nodes : List Node) :
    Alongside (s.addEntry nodes) (s'.addEntry nodes) := by
  have hsame := Routine.lower_types s.program.nextEntryName.2 s.types s'.types
    s.program.nextEntryName.1 true nodes
  rw [s.addEntry_eq, s'.addEntry_eq, h]
  rcases hl : Routine.lower s.program.nextEntryName.2 s.types s.program.nextEntryName.1 true nodes
    with ⟨r, types⟩
  rcases hl' : Routine.lower s.program.nextEntryName.2 s'.types s.program.nextEntryName.1 true nodes
    with ⟨r', types'⟩
  rw [hl, hl'] at hsame
  obtain rfl : r' = r := hsame
  cases r' <;> exact ⟨rfl, rfl⟩

theorem lowerFragment_alongside (h : s'.program = s.program) (f : Fragment) :
    Alongside (s.lowerFragment f) (s'.lowerFragment f) := by
  unfold Session.lowerFragment
  have hretired : ({ s' with program := s'.program.retireEntry } : Session).program =
      ({ s with program := s.program.retireEntry } : Session).program := by rw [h]
  have hdefine := define_alongside hretired f.definitions
  rcases hd : Session.define { s with program := s.program.retireEntry } f.definitions with ⟨r, t⟩
  rcases hd' : Session.define { s' with program := s'.program.retireEntry } f.definitions
    with ⟨r', t'⟩
  rw [hd, hd'] at hdefine
  obtain ⟨rfl, hprogram⟩ : r' = r ∧ t'.program = t.program := hdefine
  cases r' with
  | error e => simpa only [hd, hd'] using ⟨rfl, hprogram⟩
  | ok u =>
      simp only [hd, hd']
      split
      · exact ⟨rfl, hprogram⟩
      · have hentry := addEntry_alongside hprogram f.statements
        rcases ha : t.addEntry f.statements with ⟨r, t₁⟩
        rcases ha' : t'.addEntry f.statements with ⟨r', t₁'⟩
        rw [ha, ha'] at hentry
        obtain ⟨rfl, hprogram'⟩ : r' = r ∧ t₁'.program = t₁.program := hentry
        cases r' <;> exact ⟨rfl, hprogram'⟩

theorem compile_alongside (h : s'.program = s.program) (source : String) :
    Alongside (s.compile source) (s'.compile source) := by
  rcases hparse : Fragment.parse source with errors | f
  · simp only [Session.compile, hparse]
    exact ⟨rfl, h⟩
  · obtain ⟨hresult, hprogram⟩ := lowerFragment_alongside h f
    rw [Session.compile_eq hparse, Session.compile_eq hparse]
    exact ⟨by rw [hresult], hprogram⟩

theorem eval_alongside (h : s'.program = s.program) (engine : Engine) (source : String) :
    (s'.eval engine source).1 = (s.eval engine source).1 ∧
      (s'.eval engine source).2.1.program = (s.eval engine source).2.1.program := by
  obtain ⟨hresult, hprogram⟩ := compile_alongside h source
  rcases hc : s.compile source with ⟨r, t⟩
  rcases hc' : s'.compile source with ⟨r', t'⟩
  rw [hc, hc'] at hresult hprogram
  obtain rfl : r' = r := hresult
  rcases r' with d | _ | entry
  · simp only [Session.eval, hc, hc']
    exact ⟨trivial, hprogram⟩
  · simp only [Session.eval, hc, hc']
    exact ⟨trivial, hprogram⟩
  · obtain ⟨hvalue, hleft⟩ := Session.eval_entry hc engine
    obtain ⟨hvalue', hleft'⟩ := Session.eval_entry hc' engine
    have hprogram' : t'.program = t.program := hprogram
    rw [hvalue, hvalue', hleft, hleft', hprogram']
    exact ⟨rfl, rfl⟩

namespace Ledger

variable {l l' : Ledger}

/-- The ledgers have one program and one engine; their tables of types may differ. -/
structure Parallel (l l' : Ledger) : Prop where
  program : l'.session.program = l.session.program
  engine : l'.engine = l.engine

theorem step_engine (l : Ledger) (c : Session.Command) : (l.step c).engine = l.engine := by
  cases c with
  | compile source => rfl
  | execute entry => exact l.engine.execute_engine _ entry
  | eval source => exact l.session.eval_engine l.engine source
  | reset => rfl

theorem Parallel.answer (h : l.Parallel l') (c : Session.Command) : l'.answer c = l.answer c := by
  cases c with
  | compile source => exact congrArg _ (compile_alongside h.program source).1
  | execute entry =>
      simp only [Ledger.answer, Session.execute, h.program, h.engine]
  | eval source =>
      rw [Ledger.answer, Ledger.answer, h.engine, (eval_alongside h.program l.engine source).1]
  | reset => rfl

theorem Parallel.step (h : l.Parallel l') (c : Session.Command) :
    (l.step c).Parallel (l'.step c) := by
  refine ⟨?_, by rw [step_engine, step_engine, h.engine]⟩
  cases c with
  | compile source => exact (compile_alongside h.program source).2
  | execute entry =>
      show l'.session.program.retireEntry = l.session.program.retireEntry
      rw [h.program]
  | eval source =>
      show (l'.session.eval l'.engine source).2.1.program =
        (l.session.eval l.engine source).2.1.program
      rw [h.engine]
      exact (eval_alongside h.program l.engine source).2
  | reset => rfl

theorem Parallel.run (h : l.Parallel l') (commands : List Session.Command) :
    (l.run commands).Parallel (l'.run commands) := by
  induction commands generalizing l l' with
  | nil => exact h
  | cons c rest ih => exact ih (h.step c)

/-- No command tells them apart. -/
theorem Parallel.record (h : l.Parallel l') (commands : List Session.Command) :
    l'.record commands = l.record commands := by
  induction commands generalizing l l' with
  | nil => rfl
  | cons c rest ih =>
      have hview : (l'.step c).session.view = (l.step c).session.view := by
        simp only [Session.view, Session.definedFunctions, Session.dump, (h.step c).program]
      rw [Ledger.record, Ledger.record, h.answer c, hview, ih (h.step c)]

theorem run_engine (l : Ledger) (commands : List Session.Command) :
    (l.run commands).engine = l.engine := by
  induction commands generalizing l with
  | nil => rfl
  | cons c rest ih => exact (ih (l.step c)).trans (l.step_engine c)

end Ledger

/-! ## Every type has a number -/

/-- The table has the types of all results. -/
def Session.Noted (s : Session) : Prop := ∀ r ∈ s.program.routines, r.returnType ∈ s.types.types

theorem Session.Noted.commit (h : s.Noted) {types : TypeTable} {r : Routine} {p : Program}
    (hp : p.routines = s.program.routines) (hgrown : s.types.Grown types)
    (hr : r.returnType ∈ types.types) : Session.Noted ⟨types, p.commit r⟩ := by
  intro r' hr'
  rw [Program.commit, hp] at hr'
  rcases List.mem_append.mp hr' with hr' | hr'
  · exact hgrown.mem (h r' hr')
  · rw [List.mem_singleton.mp hr']
    exact hr

theorem Session.Noted.retireEntry (h : s.Noted) :
    Session.Noted { s with program := s.program.retireEntry } := by
  intro r hr
  have hkept : s.program.retireEntry.routines = s.program.routines.take _ :=
    s.program.retireEntry_routines
  exact h r (List.mem_of_mem_take (hkept ▸ hr))

theorem define_noted (h : s.Noted) (ds : List Definition) :
    (s.define ds).2.Noted ∧ s.types.Grown (s.define ds).2.types := by
  induction ds generalizing s with
  | nil => exact ⟨h, .refl _⟩
  | cons d rest ih =>
      obtain ⟨hgrown, hnoted⟩ := Routine.ofDefinition_notes s.program s.types d
      rcases hd : Routine.ofDefinition s.program s.types d with ⟨e | r, types⟩ <;>
        rw [hd] at hgrown hnoted <;> simp only [Session.define, hd]
      · exact ⟨fun r hr => hgrown.mem (h r hr), hgrown⟩
      · obtain ⟨hrest, hgrown'⟩ := ih (h.commit (p := s.program) rfl hgrown (hnoted r rfl))
        exact ⟨hrest, hgrown.trans hgrown'⟩

theorem addEntry_noted (h : s.Noted) (nodes : List Node) :
    (s.addEntry nodes).2.Noted ∧ s.types.Grown (s.addEntry nodes).2.types := by
  obtain ⟨hgrown, hnoted⟩ := Routine.lower_notes s.program.nextEntryName.2 s.types
    s.program.nextEntryName.1 true nodes
  rw [s.addEntry_eq]
  rcases hl : Routine.lower s.program.nextEntryName.2 s.types s.program.nextEntryName.1 true nodes
    with ⟨e | r, types⟩ <;> rw [hl] at hgrown hnoted
  · refine ⟨fun r hr => hgrown.mem (h r ?_), hgrown⟩
    exact List.mem_of_mem_take hr
  · exact ⟨h.commit (p := s.program.nextEntryName.2) rfl hgrown (hnoted r rfl), hgrown⟩

theorem lowerFragment_noted (h : s.Noted) (f : Fragment) :
    (s.lowerFragment f).2.Noted ∧ s.types.Grown (s.lowerFragment f).2.types := by
  obtain ⟨hdefined, hgrown⟩ := define_noted h.retireEntry f.definitions
  unfold Session.lowerFragment
  rcases hd : Session.define { s with program := s.program.retireEntry } f.definitions
    with ⟨e | _, t⟩ <;> rw [hd] at hdefined hgrown <;> simp only [hd]
  · exact ⟨hdefined, hgrown⟩
  · split
    · exact ⟨hdefined, hgrown⟩
    · obtain ⟨hentered, hgrown'⟩ := addEntry_noted hdefined f.statements
      rcases ha : t.addEntry f.statements with ⟨e | name, t'⟩ <;> rw [ha] at hentered hgrown' <;>
        exact ⟨hentered, hgrown.trans hgrown'⟩

theorem compile_noted (h : s.Noted) (source : String) :
    (s.compile source).2.Noted ∧ s.types.Grown (s.compile source).2.types := by
  rcases hparse : Fragment.parse source with errors | f
  · simp only [Session.compile, hparse]
    exact ⟨h, .refl _⟩
  · rw [Session.compile_eq hparse]
    exact lowerFragment_noted h f

theorem eval_noted (h : s.Noted) (engine : Engine) (source : String) :
    (s.eval engine source).2.1.Noted ∧ s.types.Grown (s.eval engine source).2.1.types := by
  obtain ⟨hnoted, hgrown⟩ := compile_noted h source
  rcases hc : s.compile source with ⟨d | _ | entry, t⟩ <;> rw [hc] at hnoted hgrown
  · simp only [Session.eval, hc]
    exact ⟨hnoted, hgrown⟩
  · simp only [Session.eval, hc]
    exact ⟨hnoted, hgrown⟩
  · rw [(Session.eval_entry hc engine).2]
    exact ⟨hnoted.retireEntry, hgrown⟩

theorem step_noted {l : Ledger} (h : l.session.Noted) (c : Session.Command) :
    (l.step c).session.Noted ∧ l.session.types.Grown (l.step c).session.types := by
  cases c with
  | compile source => exact compile_noted h source
  | execute entry => exact ⟨h.retireEntry, .refl _⟩
  | eval source => exact eval_noted h l.engine source
  | reset => exact ⟨fun r hr => (nomatch hr), .refl _⟩

theorem run_noted {l : Ledger} (h : l.session.Noted) (commands : List Session.Command) :
    (l.run commands).session.Noted ∧ l.session.types.Grown (l.run commands).session.types := by
  induction commands generalizing l with
  | nil => exact ⟨h, .refl _⟩
  | cons c rest ih =>
      obtain ⟨hnoted, hgrown⟩ := step_noted h c
      obtain ⟨hrest, hgrown'⟩ := ih hnoted
      exact ⟨hrest, hgrown.trans hgrown'⟩

/-- The numbers stand for one type in their tables. -/
def Corresponds (t t' : TypeTable) (n n' : Nat) : Prop :=
  ∃ ty, t.get? n = some ty ∧ t'.get? n' = some ty

theorem Corresponds.eq_iff {t t' : TypeTable} {m m' n n' : Nat} (ht : t.Reachable)
    (ht' : t'.Reachable) (hm : Corresponds t t' m m') (hn : Corresponds t t' n n') :
    m = n ↔ m' = n' := by
  obtain ⟨a, ha, ha'⟩ := hm
  obtain ⟨b, hb, hb'⟩ := hn
  rw [ht.number_eq_iff ha hb, ht'.number_eq_iff ha' hb']

/-- A table in which booleans and floats came first. -/
def usedTypes : TypeTable := ((TypeTable.empty.intern .boolean).2.intern .float64).2

/-- A definition and a use of it, a type error, an entry point that is not executed and a fault. -/
def typedCommands : List Session.Command :=
  [.eval "def f() \x7b 1 < 2 \x7d; f() + f()", .eval "f() + 1", .compile "1.5", .eval "1 / 0"]

end ScalarLang
