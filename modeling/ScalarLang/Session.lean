import ScalarLang.Diagnostic
import ScalarLang.Lower.Function
import ScalarLang.Parse.Fragment

/-
  Sessions: a program that grows command by command over a shared table of types.
  A command's definitions are added one by one and stay. Its statements become an entry point,
  which is given up if it cannot be lowered and retired after it has run.
-/

namespace ScalarLang

/-- The version of the language. -/
def version : String := "0.3.0"

structure Session where
  types : TypeTable
  program : Program

namespace Session

/-- A session without functions over a table of types. -/
def new (types : TypeTable) : Session := ⟨types, .empty⟩

/-- Forgets all functions; the types stay. -/
def reset (s : Session) : Session := new s.types

/-- Adds definitions up to the first that cannot be lowered. -/
def define (s : Session) : List Definition → Except LowerError Unit × Session
  | [] => (.ok (), s)
  | d :: rest =>
    match Routine.ofDefinition s.program s.types d with
    | (.ok r, types) => define ⟨types, s.program.commit r⟩ rest
    | (.error e, types) => (.error e, { s with types })

/-- Makes an entry point of statements and gives its name. -/
def addEntry (s : Session) (nodes : List Node) : Except LowerError String × Session :=
  let checkpoint := s.program.checkpoint
  let (name, program) := s.program.nextEntryName
  match Routine.lower program s.types name true nodes with
  | (.ok r, types) => (.ok name, ⟨types, program.commit r⟩)
  | (.error e, types) => (.error e, ⟨types, program.rollback checkpoint⟩)

/-- Adds a fragment; an entry point that never ran is retired first. Gives the name of the new
    entry point, if the fragment has statements. -/
def lowerFragment (s : Session) (f : Fragment) : Except LowerError (Option String) × Session :=
  let s := { s with program := s.program.retireEntry }
  match s.define f.definitions with
  | (.error e, s) => (.error e, s)
  | (.ok (), s) =>
    if f.statements.isEmpty then (.ok none, s)
    else match s.addEntry f.statements with
      | (.ok name, s) => (.ok (some name), s)
      | (.error e, s) => (.error e, s)

/-- Reads a source and adds it. -/
def compile (s : Session) (source : String) : Except Diagnostic (Option String) × Session :=
  match Fragment.parse source with
  | .error errors => (.error (.malformed errors), s)
  | .ok f =>
    match s.lowerFragment f with
    | (.ok entry, s) => (.ok entry, s)
    | (.error e, s) => (.error (.lowering e), s)

/-- Runs an entry point and retires it, whatever came of it. -/
def execute (s : Session) (engine : Engine) (entry : String) :
    Except EngineError Value × Session × Engine :=
  let (result, engine) := engine.execute s.program entry
  (result, { s with program := s.program.retireEntry }, engine)

/-- Adds a source and runs its statements, if it has any. -/
def eval (s : Session) (engine : Engine) (source : String) :
    Except Diagnostic (Option Value) × Session × Engine :=
  match s.compile source with
  | (.error d, s) => (.error d, s, engine)
  | (.ok none, s) => (.ok none, s, engine)
  | (.ok (some entry), s) =>
    match s.execute engine entry with
    | (.ok value, s, engine) => (.ok (some value), s, engine)
    | (.error e, s, engine) => (.error (.engine e), s, engine)

def dump (s : Session) : String := s.program.text

def definedFunctions (s : Session) : List String := s.program.definedNames

end Session

end ScalarLang
