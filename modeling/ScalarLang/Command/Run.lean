import ScalarLang.Command.Arguments
import ScalarLang.Command.Dialogue

/-
  Carrying out a command line, given the surroundings it looks at: the home folder, the files and
  the text that is typed. The result is what is shown, the exit code and the file written, if any.
-/

namespace ScalarLang

structure Surroundings where
  home : String
  /-- The text of the file at a path, or the reason why there is none. -/
  fileText : String → Except String String
  typed : String
  /-- Where the settings are kept if the command line does not say. -/
  settingsFolder : String := home ++ "/.config/aki"

structure Result where
  output : Output
  code : Nat := 0
  /-- The path and the text of a file that is to be written. -/
  written : Option (String × String) := none

namespace Surroundings

def settingsPath (w : Surroundings) : String := w.settingsFolder ++ "/repl.toml"

/-- The settings in force; a file that cannot be read leaves the defaults. -/
def settings (w : Surroundings) (options : Options) : Settings :=
  match w.fileText (options.config.getD w.settingsPath) with
  | .ok text => .ofText w.home text
  | .error _ => .default w.home

end Surroundings

namespace Command

/-- The code says whether something went wrong. -/
def exitCode (succeeded : Bool) : Nat := if succeeded then 0 else 1

/-- Evaluates a source in a new session. -/
def evaluate (source : String) : Result :=
  let (outcome, _, _) := (Session.new .empty).eval .new source
  { output := showOutcome source outcome, code := exitCode outcome.isOk }

/-- Lists the program that a source makes. -/
def list (source : String) : Result :=
  match (Session.new .empty).compile source with
  | (.ok _, s) => { output := { out := s.dump } }
  | (.error d, _) => { output := showOutcome source (.error d), code := exitCode false }

/-- Does something with the text of a file. -/
def withFile (w : Surroundings) (path : String) (use : String → Result) : Result :=
  match w.fileText path with
  | .ok source => use source
  | .error reason =>
    { output := { err := "Error: Failed to read file '" ++ path ++ "'\n\nCaused by:\n    " ++
        reason ++ "\n" }
      code := exitCode false }

/-- Carries out a command. -/
def perform (w : Surroundings) (settings : Settings) : Command → Result
  | repl =>
    let d := Dialogue.new settings
    { output := { out := d.greeting } ++ d.converse settings (inputLines w.typed) }
  | eval source => evaluate source
  | run path => withFile w path evaluate
  | dump path => withFile w path list
  | test =>
    let (report, _, _) := runSuite .new .empty
    { output := .line report.text, code := exitCode report.isSuccess }
  | demo => { output := (showDemo .new .empty).1 }
  | config write =>
    if write then
      { output := { out := settings.text } ++ .line ("# written to " ++ w.settingsPath)
        written := some (w.settingsPath, settings.text) }
    else { output := { out := settings.text } }

end Command

def usage : String :=
  "Usage: aki [--config <CONFIG>] [--log <LOG>] [COMMAND]\n\n" ++
  "Commands: repl, eval <SOURCE>, run <FILE>, dump <FILE>, test, demo, config [--write]\n"

/-- The files that a command line looks at. -/
def Request.paths (request : Request) (w : Surroundings) : List String :=
  match request with
  | run options command =>
    options.config.getD w.settingsPath :: (match command with
      | .run path | .dump path => [path]
      | _ => [])
  | _ => []

/-- Carries out a command line. -/
def Request.perform (w : Surroundings) : Request → Result
  | run options command => command.perform w (w.settings options)
  | version => { output := .line ("aki " ++ ScalarLang.version) }
  | help => { output := { out := usage } }
  | malformed => { output := { err := usage }, code := 2 }

end ScalarLang
