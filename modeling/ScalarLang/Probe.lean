import ScalarLang.Session

/-
  Evaluating one source in a fresh session and asking for a certain kind of result. What is not of
  that kind is reported as a text.
-/

namespace ScalarLang

namespace Value

/-- A value with the name of its kind. -/
def description : Value → String
  | boolean b => "Boolean(" ++ (if b then "true" else "false") ++ ")"
  | signed x => "Signed(" ++ toString x.toInt ++ ")"
  | unsigned x => "Unsigned(" ++ toString x.toNat ++ ")"
  | float16 x => "Float16(" ++ x.text .result ++ ")"
  | float32 x => "Float32(" ++ x.text .result ++ ")"
  | float64 x => "Float64(" ++ x.text .result ++ ")"

def optionDescription : Option Value → String
  | none => "None"
  | some v => "Some(" ++ v.description ++ ")"

end Value

namespace Probe

/-- The outcome of a source in a fresh session. -/
def outcome (source : String) : Except Diagnostic (Option Value) :=
  ((Session.new .empty).eval .new source).1

/-- The result, or the error as it is shown. -/
def eval (source : String) : Except String (Option Value) :=
  match outcome source with
  | .ok v => .ok v
  | .error d => .error ((d.render? source).getD d.text)

def value (source : String) : Except String Value := do
  match ← eval source with
  | some v => return v
  | none => throw "Expected a value, got none"

/-- A result that a view is defined for. -/
def view {α : Type} (kind : String) (get? : Value → Option α) (source : String) :
    Except String α := do
  let v ← value source
  match get? v with
  | some a => return a
  | none => throw ("Expected " ++ kind ++ ", got " ++ v.typeName)

def signed : String → Except String (BitVec 64) := view "i64" Value.asSigned?
def unsigned : String → Except String (BitVec 64) := view "u64" Value.asUnsigned?
def bool : String → Except String Bool := view "bool" Value.asBool?
def double : String → Except String (Binary .double) := view "float" Value.asDouble?

def error (source : String) : Except String Diagnostic :=
  match outcome source with
  | .ok v => .error ("Expected an error, got " ++ Value.optionDescription v)
  | .error d => .ok d

def errorCategory (source : String) : Except String ErrorCategory :=
  (error source).map (·.category)

end Probe

end ScalarLang
