import ScalarLang.Settings.Toml

/-
  The settings of the program. They are read from a document in which every key is optional and
  unknown keys are skipped; a document that cannot be read leaves all settings at their defaults.
-/

namespace ScalarLang

structure Settings where
  prompt : String
  continuationPrompt : String
  /-- Where the commands of earlier dialogues are kept, if anywhere. -/
  historyFile : Option String
  /-- Whether the code of a command is shown before it runs. -/
  showIr : Bool
  logFilter : String
  banner : Bool
deriving DecidableEq, Repr

namespace Settings

/-- The settings of someone with a home folder and no document. -/
def default (home : String) : Settings where
  prompt := ">>> "
  continuationPrompt := "... "
  historyFile := some (home ++ "/.aki_history")
  showIr := false
  logFilter := "warn"
  banner := true

/-- The settings as a document. -/
def toDocument (s : Settings) : Toml.Document :=
  [("prompt", .string s.prompt), ("continuation_prompt", .string s.continuationPrompt)] ++
  (s.historyFile.map fun path => ("history_file", Toml.Value.string path)).toList ++
  [("show_ir", .boolean s.showIr), ("log_filter", .string s.logFilter), ("banner", .boolean s.banner)]

def keys : List String :=
  ["prompt", "continuation_prompt", "history_file", "show_ir", "log_filter", "banner"]

/-- Takes over one entry of a document; `none` if its value is of the wrong kind. -/
def set? (s : Settings) : String × Toml.Value → Option Settings
  | ("prompt", .string t) => some { s with prompt := t }
  | ("continuation_prompt", .string t) => some { s with continuationPrompt := t }
  | ("history_file", .string t) => some { s with historyFile := some t }
  | ("show_ir", .boolean b) => some { s with showIr := b }
  | ("log_filter", .string t) => some { s with logFilter := t }
  | ("banner", .boolean b) => some { s with banner := b }
  | (key, _) => if keys.contains key then none else some s

/-- Takes over a document. -/
def ofDocument? (home : String) (d : Toml.Document) : Option Settings :=
  d.foldlM set? (default home)

/-- The settings a text stands for; the defaults if it cannot be read. -/
def ofText (home text : String) : Settings :=
  ((Toml.read? text).bind (ofDocument? home)).getD (default home)

def text (s : Settings) : String := Toml.write s.toDocument

end Settings

end ScalarLang
