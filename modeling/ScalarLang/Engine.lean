import ScalarLang.Ir.Check
import ScalarLang.Ir.Run
import ScalarLang.Program
import ScalarLang.Value

/-
  The engine that runs programs. It holds at most one loaded program, as it was when it was
  loaded. Loading checks the code, declares all names, which must not disagree, defines the code
  and keeps a table of names; a load that fails changes nothing. A call starts without fault, so
  its outcome depends on the loaded program and the entry point alone.
  Some programs that load have code without an outcome: functions with parameters, calls of
  functions that do not stand before the caller, ways that enter a block twice, and slots that are
  read before they are written. The answer to a call of such code stands for whatever the machine
  would do. No program of a session has such code.
-/

namespace ScalarLang

inductive EngineError where
  | verification (function report program : String)
  | backend (reason : String)
  | unsupportedHost (reason : String)
  | divisionByZero
  | missingEntryPoint (name : String)
  | alreadyLoaded
deriving DecidableEq

def EngineError.message : EngineError → String
  | verification function _ _ => "verification of '" ++ function ++ "' failed"
  | backend reason => "Cranelift compilation error: " ++ reason
  | unsupportedHost reason => "host machine is not supported: " ++ reason
  | divisionByZero => "runtime error: division by zero"
  | missingEntryPoint name => "entry point '" ++ name ++ "' is not loaded"
  | alreadyLoaded => "a module is already loaded"

/-- A signature in full, as complaints about declarations show it. -/
def Signature.description (s : Signature) : String :=
  let types := fun ts : List MachineType => ", ".intercalate (ts.map fun ty =>
    "AbiParam \x7b value_type: types::" ++ ty.text.toUpper ++
      ", purpose: Normal, extension: None \x7d")
  "Signature \x7b params: [" ++ types s.params ++ "], returns: [" ++ types s.results ++
    "], call_conv: SystemV \x7d"

/-- A name that code can be defined under, with its signature. The position of a declaration among
    all is the id of its function. -/
structure Declaration where
  name : String
  signature : Signature

/-- What the table of names says of a function: its id and how its result is read. -/
structure Entry where
  id : Nat
  representation : Representation
deriving DecidableEq

/-- A program in memory: its code, and the table of its names with later entries first. -/
structure Image where
  routines : List Routine
  entries : List (String × Entry)

structure Engine where
  resident : Option Image := none

namespace Declaration

/-- The declarations that come before those of any program. -/
def intrinsics : List Declaration := Intrinsic.all.map fun r => ⟨r.symbol, r.signature⟩

/-- Declares a routine and gives its id. A name that is known keeps its id and its signature. -/
def declare (known : List Declaration) (r : Routine) :
    Except EngineError (Nat × List Declaration) :=
  match known.zipIdx.find? (·.1.name == r.name) with
  | none => .ok (known.length, known ++ [⟨r.name, r.signature⟩])
  | some (d, id) =>
    if d.signature = r.signature then .ok (id, known)
    else .error (.backend ("Function " ++ r.name ++ " signature " ++ r.signature.description ++
      " is incompatible with previous declaration " ++ d.signature.description))

/-- Declares routines one after the other and gives their ids. -/
def declareAll : List Declaration → List Routine → Except EngineError (List Nat)
  | _, [] => .ok []
  | known, r :: rest => do
    let (id, known) ← declare known r
    return id :: (← declareAll known rest)

end Declaration

namespace Engine

def new : Engine := {}

def isLoaded (e : Engine) : Bool := e.resident.isSome

/-- Checks all code of a program. -/
def verify (p : Program) : Except EngineError Unit :=
  match p.routines.find? (!·.code.isValid) with
  | some r => .error (.verification r.name r.code.report p.text)
  | none => .ok ()

/-- Defines the code of routines under their ids, each id once, and enters their names into the
    table. -/
def define (defined : List Nat) (entries : List (String × Entry)) :
    List (Routine × Nat) → Except EngineError (List (String × Entry))
  | [] => .ok entries
  | (r, id) :: rest =>
    if defined.contains id then
      .error (.backend ("Duplicate definition of identifier: " ++ r.name))
    else define (id :: defined) ((r.name, ⟨id, r.returnType.representation⟩) :: entries) rest

/-- Declares and defines a program after the built-in routines and gives the table of its names. -/
def defineAll (p : Program) : Except EngineError (List (String × Entry)) := do
  let ids ← Declaration.declareAll Declaration.intrinsics p.routines
  define [] [] (p.routines.zip ids)

/-- A checked program in memory. -/
def image (p : Program) : Except EngineError Image := do
  verify p
  let entries ← defineAll p
  return ⟨p.routines, entries⟩

def load (e : Engine) (p : Program) : Except EngineError Unit × Engine :=
  if e.isLoaded then (.error .alreadyLoaded, e)
  else match image p with
    | .ok image => (.ok (), { e with resident := some image })
    | .error err => (.error err, e)

def unload (e : Engine) : Engine := { e with resident := none }

end Engine

/-- Runs the function of an entry and reads its result. -/
def Image.run? (image : Image) (e : Entry) : Option (Value × Bool) := do
  let out ← Ir.linkage (image.routines.map (·.code)) image.routines.length e.id []
  let [word] := out.results | none
  return (← Value.ofWord? e.representation word, out.faulted)

namespace Engine

/-- Calls an entry point of the loaded program. -/
def call (e : Engine) (entry : String) : Except EngineError Value :=
  match e.resident with
  | none => .error (.missingEntryPoint entry)
  | some image =>
    match image.entries.lookup entry with
    | none => .error (.missingEntryPoint entry)
    | some target =>
      match image.run? target with
      | some (value, false) => .ok value
      | some (_, true) => .error .divisionByZero
      | none => .error (.backend ("no outcome of " ++ entry))

/-- Loads a program, calls an entry point and unloads the program again. -/
def execute (e : Engine) (p : Program) (entry : String) : Except EngineError Value × Engine :=
  match e.load p with
  | (.ok (), loaded) => (loaded.call entry, loaded.unload)
  | (.error err, e) => (.error err, e)

end Engine

end ScalarLang
