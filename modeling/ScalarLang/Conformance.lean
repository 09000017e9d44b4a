import ScalarLang.Session

/-
  The conformance suite: commands with the outcome each must have, and the report of a run. Every
  case has a session of its own; all cases share the engine and the table of types.
-/

namespace ScalarLang

/-- The commands that show the language off. -/
def demoCommands : List String := ["True", "2", "2+2", "2==2", "2==4", "if 32==2 0 else 1"]

/-- The outcome a case must have. -/
inductive Expectation where
  | value (value : Value)
  | error (category : ErrorCategory)

def Expectation.text : Expectation → String
  | value v => v.text ++ " (" ++ v.typeName ++ ")"
  | error c => c.label

structure Case where
  name : String
  source : String
  expect : Expectation
  /-- Commands that come first in the same session. -/
  setup : List String := []
  /-- Whether the session is reset after the setup. -/
  reset : Bool := false

/-- The name of a case that failed comes with the reason. -/
structure CaseResult where
  name : String
  failure : Option String

structure SuiteReport where
  results : List CaseResult

namespace SuiteReport

def passed (r : SuiteReport) : Nat := r.results.countP (·.failure.isNone)

def failed (r : SuiteReport) : List CaseResult := r.results.filter (·.failure.isSome)

def isSuccess (r : SuiteReport) : Bool := r.failed.isEmpty

def text (r : SuiteReport) : String :=
  String.join (r.results.map fun c =>
    match c.failure with
    | none => "ok    " ++ c.name ++ "\n"
    | some reason => "FAIL  " ++ c.name ++ ": " ++ reason ++ "\n") ++
  toString r.passed ++ " passed, " ++ toString (r.results.length - r.passed) ++ " failed"

end SuiteReport

namespace Case

/-- Why an outcome is not the expected one; `none` if it is. -/
def failure? (expect : Expectation) (outcome : Except Diagnostic (Option Value)) : Option String :=
  let shown := fun d : Diagnostic => d.category.label ++ ": " ++ d.message
  match expect, outcome with
  | .value v, .ok (some actual) =>
    if v.same actual then none else some ("expected " ++ v.text ++ ", got " ++ actual.text)
  | .value v, .ok none => some ("expected " ++ v.text ++ ", got no value")
  | .value v, .error d => some ("expected " ++ v.text ++ ", got " ++ shown d)
  | .error c, .error d =>
    if d.category = c then none else some ("expected " ++ c.label ++ ", got " ++ shown d)
  | .error c, .ok (some actual) => some ("expected " ++ c.label ++ ", got " ++ actual.text)
  | .error c, .ok none => some ("expected " ++ c.label ++ ", got no value")

/-- Runs commands for their effect on a session. -/
def prepare (s : Session) (engine : Engine) : List String → Session × Engine
  | [] => (s, engine)
  | source :: rest =>
    let (_, s, engine) := s.eval engine source
    prepare s engine rest

/-- Runs a case in a new session. -/
def run (engine : Engine) (types : TypeTable) (c : Case) : CaseResult × Engine × TypeTable :=
  let (s, engine) := prepare (.new types) engine c.setup
  let s := if c.reset then s.reset else s
  let (outcome, s, engine) := s.eval engine c.source
  (⟨c.name, failure? c.expect outcome⟩, engine, s.types)

/-- Runs cases one after the other. -/
def runAll (engine : Engine) (types : TypeTable) :
    List Case → List CaseResult × Engine × TypeTable
  | [] => ([], engine, types)
  | c :: rest =>
    let (result, engine, types) := c.run engine types
    let (results, engine, types) := runAll engine types rest
    (result :: results, engine, types)

/-! ## The cases -/

private def signed (name source : String) (n : Int) : Case :=
  { name, source, expect := .value (.signed (BitVec.ofInt 64 n)) }

private def boolean (name source : String) (b : Bool) : Case :=
  { name, source, expect := .value (.boolean b) }

private def double (name source : String) (x : Binary .double) : Case :=
  { name, source, expect := .value (.float64 x) }

private def failing (name source : String) (category : ErrorCategory) : Case :=
  { name, source, expect := .error category }

def literalCases : List Case :=
  [ signed "signed literal" "2" 2,
    double "float literal" "2.0" (Decimal.mk 2 0).toBinary,
    boolean "boolean literal" "True" true,
    { name := "unsigned literal", source := "9223372036854775808_U",
      expect := .value (.unsigned (BitVec.ofNat 64 (Nat.pow 2 63))) },
    { name := "float32 literal", source := "1.5_F",
      expect := .value (.float32 (Decimal.mk 15 (-1)).toBinary) },
    { name := "float16 literal", source := "0.1_H",
      expect := .value (.float16 (Decimal.mk 99975586 (-9)).toBinary) },
    double "infinity" "-inf" (.infinity true) ]

def comparisonCases : List Case :=
  [ boolean "NaN != NaN" "NaN != NaN" false,
    boolean "NaN != 1.0" "NaN != 1.0" false ]

def booleanCases : List Case :=
  [ signed "True+True" "True+True" 2,
    signed "True-True" "True-True" 0,
    signed "False+True" "False+True" 1,
    signed "False-True" "False-True" (-1) ]

def typeCases : List Case :=
  [ failing "int == bool" "2==True" .type,
    failing "int != bool" "2!=True" .type,
    failing "int > bool" "2>True" .type,
    failing "int < bool" "2<True" .type,
    failing "int >= bool" "2>=True" .type,
    failing "int <= bool" "2<=True" .type,
    failing "unsigned negation" "-2_U" .type ]

def conditionalCases : List Case :=
  [ signed "if" "if 2==2 1 else 0" 1,
    failing "if test mismatch" "if 2==True 1 else 0" .type,
    failing "if branch mismatch" "if 2==2 1 else False" .type,
    signed "when truthy" "when 32 1 else 0" 1,
    signed "when falsy" "when 0 1 else 0" 0,
    signed "float truthiness" "when 0.0 1 else 2" 2 ]

def arithmeticCases : List Case :=
  [ signed "chained add" "2+2+2" 6,
    signed "div then add" "4/2+2" 4,
    signed "parenthesized" "4/(2+2)" 1,
    signed "and" "2 & 3" 2,
    signed "or" "2 | 3" 3,
    signed "xor" "2 ^ 3" 1,
    signed "shl" "2 << 2" 8,
    signed "shr" "8 >> 3" 1,
    failing "division by zero" "1/0" .runtime,
    double "float division by zero" "1.0/0.0" (.infinity false),
    signed "wrapping division" "(-9223372036854775807 - 1) / -1" (-Nat.pow 2 63) ]

def sessionCases : List Case :=
  [ failing "undefined function" "nope()" .name,
    { signed "persistent function" "answer()" 42 with
      setup := ["def answer() \x7b 42 \x7d"] },
    { failing "arity" "answer(1)" .arity with
      setup := ["def answer() \x7b 42 \x7d"] },
    { failing "reset forgets functions" "answer()" .name with
      setup := ["def answer() \x7b 42 \x7d"], reset := true },
    { signed "rollback leaves no debris" "2+2" 4 with
      setup := ["when 1 2 else False"] } ]

def all : List Case :=
  literalCases ++ comparisonCases ++ booleanCases ++ typeCases ++ conditionalCases ++
    arithmeticCases ++ sessionCases

end Case

/-- Runs the whole suite. -/
def runSuite (engine : Engine) (types : TypeTable) : SuiteReport × Engine × TypeTable :=
  let (results, engine, types) := Case.runAll engine types Case.all
  (⟨results⟩, engine, types)

end ScalarLang
