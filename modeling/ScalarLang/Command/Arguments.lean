/-
  The words of a command line. Two options, each with a value, may stand before or after the name
  of the command; after it they count more. A word `--` makes all that follows an operand.
-/

namespace ScalarLang

/-- What the program can be asked to do. -/
inductive Command where
  | repl
  | eval (source : String)
  | run (path : String)
  | dump (path : String)
  | test
  | demo
  | config (write : Bool)
deriving DecidableEq, Repr

/-- The options of every command. -/
structure Options where
  config : Option String := none
  log : Option String := none
deriving DecidableEq, Repr

/-- A command line that was understood, wholly or as far as it matters. -/
inductive Request where
  | run (options : Options) (command : Command)
  | version
  | help
  | malformed
deriving DecidableEq, Repr

namespace Options

/-- The options given later count more. -/
def orElse (later earlier : Options) : Options :=
  ⟨later.config.or earlier.config, later.log.or earlier.log⟩

/-- Sets an option that has no value yet. A path is not empty. -/
def set? (o : Options) (name value : String) : Option Options :=
  match name with
  | "config" => if o.config.isSome || value.isEmpty then none else some { o with config := some value }
  | "log" => if o.log.isSome then none else some { o with log := some value }
  | _ => none

end Options

/-- A word of a command line by its form. -/
inductive Argument where
  | option (name : String) (value? : Option String)
  | short (name : String)
  | divider
  | operand (text : String)

/-- The form of a word, by its first characters. A single hyphen is an operand. -/
def Argument.ofString (s : String) : Argument :=
  match s.toList with
  | ['-', '-'] => .divider
  | '-' :: '-' :: cs =>
    let name := String.ofList (cs.takeWhile (· != '='))
    match cs.dropWhile (· != '=') with
    | [] => .option name none
    | _ :: value => .option name (some (String.ofList value))
  | '-' :: c :: cs => .short (String.ofList (c :: cs))
  | _ => .operand s

namespace Request

/-- What the words after the name of a command hold. -/
structure Operands where
  options : Options := {}
  write : Bool := false
  words : List String := []

/-- A value that stands in a word of its own. -/
def valueWord? (s : String) : Option String :=
  match Argument.ofString s with
  | .operand text => some text
  | _ => none

/-- Reads the words after the name of a command. -/
def operands (found : Operands) : List String → Except Request Operands
  | [] => .ok found
  | word :: rest =>
    match Argument.ofString word with
    | .divider => .ok { found with words := found.words ++ rest }
    | .operand text => operands { found with words := found.words ++ [text] } rest
    | .short "h" => .error .help
    | .short _ => .error .malformed
    | .option "help" none => .error .help
    | .option "write" none =>
      if found.write then .error .malformed else operands { found with write := true } rest
    | .option name (some value) =>
      match found.options.set? name value with
      | some options => operands { found with options } rest
      | none => .error .malformed
    | .option name none =>
      match rest with
      | [] => .error .malformed
      | value :: rest =>
        match (valueWord? value).bind (found.options.set? name ·) with
        | some options => operands { found with options } rest
        | none => .error .malformed

/-- The command of a name with its operands. -/
def command? (name : String) (found : Operands) : Option Command :=
  match name, found.words, found.write with
  | "repl", [], false => some .repl
  | "eval", [source], false => some (.eval source)
  | "run", [path], false => if path.isEmpty then none else some (.run path)
  | "dump", [path], false => if path.isEmpty then none else some (.dump path)
  | "test", [], false => some .test
  | "demo", [], false => some .demo
  | "config", [], write => some (.config write)
  | _, _, _ => none

def commandNames : List String := ["repl", "eval", "run", "dump", "test", "demo", "config"]

/-- Reads the words of a command line, with the options found so far. Without the name of a
    command a dialogue is asked for. -/
def parse (options : Options) : List String → Request
  | [] => .run options .repl
  | word :: rest =>
    match Argument.ofString word with
    | .divider => if rest.isEmpty then .run options .repl else .malformed
    | .operand "help" => .help
    | .operand name =>
      if commandNames.contains name then
        match operands {} rest with
        | .error request => request
        | .ok found =>
          match command? name found with
          | some command => .run (found.options.orElse options) command
          | none => .malformed
      else .malformed
    | .short "h" => .help
    | .short "V" => .version
    | .short _ => .malformed
    | .option "help" none => .help
    | .option "version" none => .version
    | .option name (some value) =>
      match options.set? name value with
      | some options => parse options rest
      | none => .malformed
    | .option name none =>
      match rest with
      | [] => .malformed
      | value :: rest =>
        match (valueWord? value).bind (options.set? name ·) with
        | some options => parse options rest
        | none => .malformed

end Request

end ScalarLang
