import ScalarLang.Command.Output
import ScalarLang.Settings.Basic

/-
  The dialogue: lines are gathered into a command until no bracket is open. A command that starts
  with a point is a directive to the dialogue itself; any other is evaluated in the session.
  The count of open brackets has no bound; a command is taken to have fewer than 2 ^ 31 of them.
-/

namespace ScalarLang

inductive Directive where
  | reset
  | reload
  | quit
  | dump
  | help
  | test
  | demo
  | unknown (text : String)
deriving DecidableEq, Repr

/-- The directive that a command is, if it starts with a point. -/
def Directive.parse? (command : String) : Option Directive :=
  let text := trim command
  if text.toList.head? = some '.' then
    some (match text with
      | "." => reset
      | ".." => reload
      | ".q" | ".quit" | ".exit" => quit
      | ".d" | ".dump" => dump
      | ".h" | ".help" | ".?" => help
      | ".t" | ".test" => test
      | ".demo" => demo
      | _ => unknown text)
  else none

/-- How many brackets a text leaves open; negative if it closes too many. -/
def bracketDepth (text : String) : Int :=
  text.toList.foldl (fun depth c =>
    if c = '(' || c = '\x7b' then depth + 1
    else if c = ')' || c = '\x7d' then depth - 1
    else depth) 0

/-- Whether a command needs no further line. -/
def isComplete (command : String) : Bool := bracketDepth command ≤ 0

structure Dialogue where
  settings : Settings
  session : Session
  engine : Engine
  /-- The lines of a command that is not complete. -/
  pending : Option String := none
  finished : Bool := false

namespace Dialogue

def new (settings : Settings) : Dialogue :=
  { settings, session := .new .empty, engine := .new }

/-- What is shown at the start. -/
def greeting (d : Dialogue) : String :=
  if d.settings.banner then
    "Aki v" ++ version ++ "\nType .help for help, .quit to exit\n\n"
  else ""

/-- What is shown before a line is read. -/
def prompt (d : Dialogue) : String :=
  if d.pending.isNone then d.settings.prompt else d.settings.continuationPrompt

def helpText : String := "
Aki REPL Directives:
  .help, .h, .?    Show this help message
  .quit, .q        Exit the REPL
  .                Reset the session (forget all functions)
  ..               Reload config and rebuild the JIT engine
  .dump, .d        Print the IR of the current module
  .test, .t        Run the built-in conformance suite
  .demo            Run the demo commands

Tips:
  - Functions defined with def persist until the session is reset
  - Separate statements with ';' or newlines
  - Press Ctrl+C to cancel current input
  - Press Ctrl+D to exit

Examples:
  >>> def four() \x7b 2 + 2 \x7d
  >>> four() * 2
  8
  >>> when 0 1 else 2
  2
"

/-- Follows a directive; `current` are the settings as they now stand in their document. -/
def follow (d : Dialogue) (current : Settings) : Directive → Output × Dialogue
  | .quit => ({}, { d with finished := true })
  | .reset => (.line "Session reset", { d with session := d.session.reset })
  | .reload =>
    (.line "Reloaded", { d with settings := current, session := d.session.reset, engine := .new })
  | .dump => ({ out := d.session.dump }, d)
  | .help => (.line helpText, d)
  | .test =>
    let (report, engine, types) := runSuite d.engine d.session.types
    (.line report.text, { d with engine, session := { d.session with types } })
  | .demo =>
    let (shown, engine, types) := showDemo d.engine d.session.types
    (shown, { d with engine, session := { d.session with types } })
  | .unknown text =>
    (.line ("Unknown directive: " ++ text) ++ .line "Type .help for available directives", d)

/-- Carries out a complete command. -/
def perform (d : Dialogue) (current : Settings) (command : String) : Output × Dialogue :=
  match Directive.parse? command with
  | some directive => d.follow current directive
  | none =>
    let (shown, session, engine) := d.session.evalShown d.engine d.settings.showIr command
    (shown, { d with session, engine })

/-- The command so far with one more line; a blank line starts none. -/
def gather? (d : Dialogue) (line : String) : Option String :=
  match d.pending with
  | some command => some (command ++ "\n" ++ line)
  | none => if (trim line).isEmpty then none else some line

/-- Takes in a line. -/
def read (d : Dialogue) (current : Settings) (line : String) : Output × Dialogue :=
  match d.gather? line with
  | none => ({}, d)
  | some command =>
    if isComplete command then { d with pending := none }.perform current command
    else ({}, { d with pending := some command })

/-- The dialogue over some lines, with the prompt before each and before the end. -/
def converse (d : Dialogue) (current : Settings) : List String → Output
  | [] => { out := d.prompt }
  | line :: rest =>
    let (shown, next) := d.read current line
    { out := d.prompt } ++ shown ++ (if next.finished then {} else next.converse current rest)

end Dialogue

end ScalarLang
