import ScalarLang.Conformance

/-
  What commands show: results and listings on one channel, errors on the other.
-/

namespace ScalarLang

/-- Text for the two channels. -/
structure Output where
  out : String := ""
  err : String := ""
deriving DecidableEq, Repr

namespace Output

def append (a b : Output) : Output := ⟨a.out ++ b.out, a.err ++ b.err⟩

instance : Append Output := ⟨append⟩

/-- A line of results. -/
def line (s : String) : Output := { out := s ++ "\n" }

end Output

/-- Shows a value, or an error in `source`; a command without a value shows nothing. -/
def showOutcome (source : String) : Except Diagnostic (Option Value) → Output
  | .ok (some v) => .line v.text
  | .ok none => {}
  | .error d => { err := (d.render? source).getD d.text ++ "\n" }

namespace Session

/-- The listing of the entry point that a source would get. -/
def entryListing (s : Session) (source : String) : String :=
  match s.compile source with
  | (.ok (some name), s) =>
    match s.program.lookup name with
    | some (_, routine) => routine.code.text
    | none => ""
  | _ => ""

/-- Evaluates a source and shows what came of it, if wanted after the code that runs. -/
def evalShown (s : Session) (engine : Engine) (showIr : Bool) (source : String) :
    Output × Session × Engine :=
  let listing := if showIr then s.entryListing source else ""
  let (outcome, s, engine) := s.eval engine source
  ({ out := listing } ++ showOutcome source outcome, s, engine)

/-- Evaluates sources one after the other, each under a line that repeats it. -/
def evalEchoed (s : Session) (engine : Engine) : List String → Output × Session × Engine
  | [] => ({}, s, engine)
  | source :: rest =>
    let (shown, s, engine) := s.evalShown engine true source
    let (later, s, engine) := evalEchoed s engine rest
    (.line (">>> " ++ source) ++ shown ++ later, s, engine)

end Session

/-- Runs the demonstration in a session of its own. -/
def showDemo (engine : Engine) (types : TypeTable) : Output × Engine × TypeTable :=
  let (shown, s, engine) := (Session.new types).evalEchoed engine demoCommands
  (shown, engine, s.types)

end ScalarLang
