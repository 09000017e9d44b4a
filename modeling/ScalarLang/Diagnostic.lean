import ScalarLang.Engine
import ScalarLang.Lower.Error
import ScalarLang.Parse.Error
import ScalarLang.Source.Location
import ScalarLang.Source.Whitespace

/-
  Everything that can go wrong with a command, and how it is shown: the category, the place and
  the message, the line in question with a caret under the column, and a hint.
-/

namespace ScalarLang

inductive Diagnostic where
  | malformed (errors : List ParseError)
  | lowering (error : LowerError)
  | engine (error : EngineError)

namespace Diagnostic

def category : Diagnostic → ErrorCategory
  | malformed _ => .malformed
  | lowering e => e.category
  | engine (.verification _ _ _) => .verification
  | engine .divisionByZero => .runtime
  | engine _ => .internal

/-- The place of the first error, if it has one. -/
def span? : Diagnostic → Option Span
  | malformed errors => errors.head?.map (·.span)
  | lowering e => some e.span
  | engine _ => none

def message : Diagnostic → String
  | malformed [] => "invalid syntax"
  | malformed (e :: _) => e.message
  | lowering e => e.message
  | engine e => e.message

def hint? : Diagnostic → Option String
  | malformed errors => errors.head?.bind (·.hint)
  | lowering e => e.hint
  | engine _ => none

/-- The message with its place. -/
def text : Diagnostic → String
  | malformed [] => "invalid syntax"
  | malformed (e :: _) => e.text
  | lowering e => e.text
  | engine e => e.message

/-- The first lines: category, place and message, and the line with the caret. -/
def heading? (d : Diagnostic) (source : String) : Option String :=
  let label := d.category.label
  match d.span? with
  | none => some (label ++ ": " ++ d.message)
  | some span => do
    let location ← Location.ofOffset? source span.start
    return label ++ ": (" ++ location.text ++ ") " ++ d.message ++ "\n" ++
      lineText source location.line ++ "\n" ++
      String.ofList (List.replicate (location.column - 1) '-') ++ "^"

/-- What stands below the caret. -/
def details (d : Diagnostic) : String :=
  (match d.hint? with
    | some hint => "\nhint: " ++ hint
    | none => "") ++
  (match d with
    | engine (.verification _ report program) =>
      "\n" ++ trimEnd report ++ "\n" ++ trimEnd program
    | _ => "")

/-- The text shown for an error in `source`; `none` if the error does not start at a character. -/
def render? (d : Diagnostic) (source : String) : Option String :=
  (d.heading? source).map (· ++ d.details)

end Diagnostic

end ScalarLang
