import Mathlib
import ScalarLang.Proofs.Lower.Function
import ScalarLang.Session

/-
  The history of a session.
  A ledger runs commands and keeps beside the session, for each routine of its program, where that
  routine comes from: the program as it was when the routine was lowered, and the statements. The
  invariant is that a routine was lowered when the program had exactly the routines that now stand
  before it. Entry points come and go at the end only, so it survives every command, whether it
  succeeds or not.
-/

namespace ScalarLang

/-- Where a routine comes from: the program it was lowered in, and its statements. -/
structure Origin where
  scope : Program
  body : List Node

namespace Session

/-- The origins of the routines that `define` adds. -/
def definedOrigins (s : Session) : List Definition → List Origin
  | [] => []
  | d :: rest =>
    match Routine.ofDefinition s.program s.types d with
    | (.ok r, types) => ⟨s.program, d.body⟩ :: definedOrigins ⟨types, s.program.commit r⟩ rest
    | (.error _, _) => []

/-- The origin of the entry point that `addEntry` adds, if it adds one. -/
def entryOrigins (s : Session) (nodes : List Node) : List Origin :=
  match s.addEntry nodes with
  | (.ok _, _) => [⟨s.program.nextEntryName.2, nodes⟩]
  | (.error _, _) => []

/-- The origins of a program's routines after `lowerFragment`, given those before. -/
def lowerOrigins (s : Session) (f : Fragment) (origins : List Origin) : List Origin :=
  let s := { s with program := s.program.retireEntry }
  let origins := origins.take s.program.size ++ s.definedOrigins f.definitions
  match s.define f.definitions with
  | (.error _, _) => origins
  | (.ok (), s) =>
    if f.statements.isEmpty then origins else origins ++ s.entryOrigins f.statements

def compileOrigins (s : Session) (source : String) (origins : List Origin) : List Origin :=
  match Fragment.parse source with
  | .error _ => origins
  | .ok f => s.lowerOrigins f origins

end Session

/-- What can be asked of a session. -/
inductive Session.Command where
  | compile (source : String)
  | execute (entry : String)
  | eval (source : String)
  | reset

/-- A session and the engine it runs on, with the origins of the routines it has. -/
structure Ledger where
  session : Session
  engine : Engine
  origins : List Origin

namespace Ledger

/-- A new session on some engine. -/
def new (types : TypeTable) (engine : Engine) : Ledger := ⟨.new types, engine, []⟩

/-- A command. What is dropped from the program is dropped from the ledger. -/
def step (l : Ledger) : Session.Command → Ledger
  | .compile source =>
    ⟨(l.session.compile source).2, l.engine, l.session.compileOrigins source l.origins⟩
  | .execute entry =>
    let (_, s, engine) := l.session.execute l.engine entry
    ⟨s, engine, l.origins.take s.program.size⟩
  | .eval source =>
    let (_, s, engine) := l.session.eval l.engine source
    ⟨s, engine, (l.session.compileOrigins source l.origins).take s.program.size⟩
  | .reset => ⟨l.session.reset, l.engine, []⟩

def run (l : Ledger) (commands : List Session.Command) : Ledger := commands.foldl step l

end Ledger

/-! ## The invariant -/

/-- Each routine was lowered when the program had the routines that stand before it. -/
structure Traced (p : Program) (origins : List Origin) : Prop where
  length : origins.length = p.size
  made : ∀ k g, p.routines[k]? = some g → ∃ o, origins[k]? = some o ∧
    o.scope.routines = p.routines.take k ∧
    ∃ types, (Routine.lower o.scope types g.name g.anonymous o.body).1 = .ok g

namespace Traced

variable {p q : Program} {origins : List Origin}

theorem empty : Traced .empty [] := ⟨rfl, by simp [Program.empty]⟩

/-- Routines may be dropped from the end. -/
theorem take (h : Traced p origins) (hq : q.routines = p.routines.take q.size) :
    Traced q (origins.take q.size) where
  length := by
    have hle : q.size ≤ p.size := by
      have hlen := congrArg List.length hq
      rw [List.length_take] at hlen
      simp only [Program.size] at hlen ⊢
      omega
    rw [List.length_take, h.length]
    exact Nat.min_eq_left hle
  made := by
    intro k g hg
    have hk : k < q.size := (List.getElem?_eq_some_iff.mp hg).1
    rw [hq, List.getElem?_take_of_lt hk] at hg
    obtain ⟨o, ho, hscope, hmade⟩ := h.made k g hg
    refine ⟨o, by rw [List.getElem?_take_of_lt hk, ho], ?_, hmade⟩
    rw [hscope, hq, List.take_take, Nat.min_eq_left (Nat.le_of_lt hk)]

/-- A routine may be added that was lowered now. -/
theorem commit (h : Traced p origins) {scope : Program} {types : TypeTable} {name : String}
    {anonymous : Bool} {body : List Node} {r : Routine} (hscope : scope.routines = p.routines)
    (hr : (Routine.lower scope types name anonymous body).1 = .ok r)
    (hq : q.routines = p.routines ++ [r]) : Traced q (origins ++ [⟨scope, body⟩]) where
  length := by
    have hp := h.length
    simp only [Program.size] at hp ⊢
    simp [hq, hp]
  made := by
    have hlen := h.length
    simp only [Program.size] at hlen
    intro k g hg
    rw [hq] at hg
    by_cases hk : k < p.routines.length
    · rw [List.getElem?_append_left hk] at hg
      obtain ⟨o, ho, hs, hmade⟩ := h.made k g hg
      refine ⟨o, by rw [List.getElem?_append_left (by omega), ho], ?_, hmade⟩
      rw [hs, hq, List.take_append_of_le_length (Nat.le_of_lt hk)]
    · have hke : k = p.routines.length := by
        have := (List.getElem?_eq_some_iff.mp hg).1
        simp at this
        omega
      subst hke
      rw [List.getElem?_concat_length] at hg
      obtain rfl : r = g := Option.some.inj hg
      obtain ⟨tv, E, -, rfl⟩ := Routine.lower_ok hr
      refine ⟨⟨scope, body⟩, by rw [← hlen, List.getElem?_concat_length], ?_, types, hr⟩
      rw [hscope, hq, List.take_left]

theorem congr (h : Traced p origins) (hq : q.routines = p.routines) : Traced q origins where
  length := by
    rw [h.length, Program.size, Program.size, hq]
  made := by
    rw [hq]
    exact h.made

end Traced

/-! ## Commands keep the invariant -/

theorem Routine.ofDefinition_ok {p : Program} {types : TypeTable} {d : Definition} {r : Routine}
    (h : (Routine.ofDefinition p types d).1 = .ok r) :
    p.contains d.name.text = false ∧
      (Routine.lower p types d.name.text false d.body).1 = .ok r := by
  unfold Routine.ofDefinition at h
  split at h
  · cases h
  · rename_i hc
    split at h
    · cases h
    · exact ⟨by simpa using hc, h⟩

theorem Program.retireEntry_routines (p : Program) :
    p.retireEntry.routines = p.routines.take p.retireEntry.size := by
  unfold Program.retireEntry Program.size
  split
  · simp [List.dropLast_eq_take]
  · simp

variable {s : Session} {origins : List Origin}

theorem define_traced (h : Traced s.program origins) (ds : List Definition) :
    Traced (s.define ds).2.program (origins ++ s.definedOrigins ds) := by
  induction ds generalizing s origins with
  | nil =>
      rw [Session.define, Session.definedOrigins, List.append_nil]
      exact h
  | cons d rest ih =>
      rcases hd : Routine.ofDefinition s.program s.types d with ⟨e | r, types⟩
      · simp only [Session.define, Session.definedOrigins, hd, List.append_nil]
        exact h
      · simp only [Session.define, Session.definedOrigins, hd]
        have hr : (Routine.ofDefinition s.program s.types d).1 = .ok r := by rw [hd]
        have hc := h.commit (q := s.program.commit r) rfl (Routine.ofDefinition_ok hr).2 rfl
        have := ih (s := ⟨types, s.program.commit r⟩) hc
        rwa [List.append_assoc] at this

theorem addEntry_traced (h : Traced s.program origins) (nodes : List Node) :
    Traced (s.addEntry nodes).2.program (origins ++ s.entryOrigins nodes) := by
  unfold Session.entryOrigins
  rcases hl : Routine.lower s.program.nextEntryName.2 s.types s.program.nextEntryName.1 true nodes
    with ⟨e | r, types⟩
  · have he : s.addEntry nodes = (.error e,
        ⟨types, s.program.nextEntryName.2.rollback s.program.checkpoint⟩) := by
      simp only [Session.addEntry, hl]
    rw [he, List.append_nil]
    refine h.congr ?_
    simp [Program.rollback, Program.checkpoint, Program.nextEntryName, Program.size]
  · have he : s.addEntry nodes = (.ok s.program.nextEntryName.1,
        ⟨types, s.program.nextEntryName.2.commit r⟩) := by
      simp only [Session.addEntry, hl]
    rw [he]
    exact h.commit rfl (by rw [hl]) rfl

theorem lowerFragment_traced (h : Traced s.program origins) (f : Fragment) :
    Traced (s.lowerFragment f).2.program (s.lowerOrigins f origins) := by
  have h₁ : Traced s.program.retireEntry (origins.take s.program.retireEntry.size) :=
    h.take s.program.retireEntry_routines
  have h₂ := define_traced (s := { s with program := s.program.retireEntry }) h₁ f.definitions
  unfold Session.lowerFragment Session.lowerOrigins
  rcases hd : Session.define { s with program := s.program.retireEntry } f.definitions
    with ⟨e | _, s'⟩
  · simp only [hd]
    rwa [hd] at h₂
  · rw [hd] at h₂
    simp only [hd]
    split
    · exact h₂
    · have h₃ := addEntry_traced h₂ f.statements
      rcases ha : s'.addEntry f.statements with ⟨e | name, s''⟩ <;> rwa [ha] at h₃

theorem compile_traced (h : Traced s.program origins) (source : String) :
    Traced (s.compile source).2.program (s.compileOrigins source origins) := by
  unfold Session.compile Session.compileOrigins
  rcases Fragment.parse source with _ | f
  · exact h
  · have hf := lowerFragment_traced h f
    rcases hl : s.lowerFragment f with ⟨e | entry, s'⟩ <;> simpa only [hl] using hf

/-- An evaluation leaves what compiling leaves, unless an entry point ran, which is retired. -/
theorem Session.eval_effect (s : Session) (engine : Engine) (source : String) :
    let q := (s.compile source).2.program
    let left := (s.eval engine source).2
    (left.1.program = q ∧ left.2 = engine) ∨
      ∃ entry, left.1.program = q.retireEntry ∧ left.2 = (engine.execute q entry).2 := by
  unfold Session.eval
  rcases s.compile source with ⟨e | _ | entry, s'⟩
  · exact Or.inl ⟨rfl, rfl⟩
  · exact Or.inl ⟨rfl, rfl⟩
  · have hx : (s'.execute engine entry).2 =
        ({ s' with program := s'.program.retireEntry }, (engine.execute s'.program entry).2) := rfl
    rcases hr : s'.execute engine entry with ⟨e | v, s'', engine'⟩
    all_goals
      rw [hr] at hx
      obtain ⟨rfl, rfl⟩ := Prod.mk.inj hx
      exact Or.inr ⟨entry, by simp only [hr], by simp only [hr]⟩

theorem Session.eval_routines (s : Session) (engine : Engine) (source : String) :
    (s.eval engine source).2.1.program.routines =
      (s.compile source).2.program.routines.take (s.eval engine source).2.1.program.size := by
  rcases s.eval_effect engine source with ⟨h, -⟩ | ⟨entry, h, -⟩
  · rw [h, Program.size, List.take_length]
  · rw [h]
    exact Program.retireEntry_routines _

theorem step_traced {l : Ledger} (h : Traced l.session.program l.origins) (c : Session.Command) :
    Traced (l.step c).session.program (l.step c).origins := by
  cases c with
  | compile source => exact compile_traced h source
  | execute entry => exact h.take l.session.program.retireEntry_routines
  | eval source => exact (compile_traced h source).take (l.session.eval_routines l.engine source)
  | reset => exact .empty

theorem run_traced (types : TypeTable) (engine : Engine) (commands : List Session.Command) :
    Traced ((Ledger.new types engine).run commands).session.program
      ((Ledger.new types engine).run commands).origins := by
  have hnew : Traced (Ledger.new types engine).session.program (Ledger.new types engine).origins :=
    .empty
  exact List.foldlRecOn (motive := fun l => Traced l.session.program l.origins) commands
    Ledger.step hnew fun _ h c _ => step_traced h c

end ScalarLang
