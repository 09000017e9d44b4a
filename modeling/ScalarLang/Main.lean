import ScalarLang.Command.Run

/-
  The program: looks at its surroundings, carries out its command line and shows the result. A
  dialogue is shown line by line as it is typed.
-/

namespace ScalarLang

/-- Reads a file, or says why it cannot be read. -/
def readText (path : String) : IO (Except String String) := do
  try
    return .ok (← IO.FS.readFile path)
  catch
    | .noFileOrDirectory .. => return .error "No such file or directory (os error 2)"
    | e => return .error (toString e)

/-- The surroundings with the files at some paths. -/
def lookAround (paths : Surroundings → List String) : IO Surroundings := do
  let home := (← IO.getEnv "HOME").getD ""
  let folder := ((← IO.getEnv "XDG_CONFIG_HOME").filter (·.startsWith "/")).getD (home ++ "/.config")
  let bare : Surroundings :=
    { home, typed := "", settingsFolder := folder ++ "/aki",
      fileText := fun _ => .error "No such file or directory (os error 2)" }
  let files ← (paths bare).mapM fun path => return (path, ← readText path)
  return { bare with fileText := fun path => (files.lookup path).getD (bare.fileText path) }

/-- Shows text on both channels. -/
def present (o : Output) : IO Unit := do
  IO.print o.out
  (← IO.getStdout).flush
  IO.eprint o.err

/-- Reads lines until the dialogue or the input ends. -/
partial def talk (options : Options) (d : Dialogue) : IO Unit := do
  present { out := d.prompt }
  let typed ← (← IO.getStdin).getLine
  match inputLines typed with
  | [] => return ()
  | line :: _ =>
    let w ← lookAround fun w => [options.config.getD w.settingsPath]
    let (shown, next) := d.read (w.settings options) line
    present shown
    unless next.finished do talk options next

/-- Carries out a command line and gives the exit code. -/
def runProgram (args : List String) : IO UInt32 := do
  let request := Request.parse {} args
  let w ← lookAround request.paths
  match request with
  | .run options .repl =>
    let d := Dialogue.new (w.settings options)
    present { out := d.greeting }
    talk options d
    return 0
  | _ =>
    let result := request.perform w
    present result.output
    if let some (path, text) := result.written then
      IO.FS.createDirAll w.settingsFolder
      IO.FS.writeFile path text
    return result.code.toUInt32

end ScalarLang

def main (args : List String) : IO UInt32 := ScalarLang.runProgram args
