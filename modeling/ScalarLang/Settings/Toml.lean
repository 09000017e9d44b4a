import ScalarLang.Source.Lines

/-
  Flat documents in the TOML format: comments and lines `key = value`, where a value is a string
  on one line, an integer or a boolean. Keys may be quoted and must differ from each other.
  Strings are written in the plainest of the four forms of the format that can hold them.
-/

namespace ScalarLang

namespace Toml

inductive Value where
  | string (s : String)
  | integer (n : Int)
  | boolean (b : Bool)
deriving DecidableEq, Repr

/-- The keys and values of a document, in order. -/
abbrev Document := List (String × Value)

/-- Blanks stand between the parts of a line. -/
def isBlank (c : Char) : Bool := c == ' ' || c == '\t'

/-- Control characters, of which only the tab may stand in a line as itself. -/
def isControl (c : Char) : Bool := (c.toNat < 0x20 && c != '\t') || c.toNat == 0x7F

/-! ## Reading -/

/-- What a backslash and a letter stand for. -/
def unescape? : Char → Option Char
  | 'b' => some '\x08'
  | 't' => some '\t'
  | 'n' => some '\n'
  | 'f' => some '\x0c'
  | 'r' => some '\r'
  | '\x22' => some '\x22'
  | '\\' => some '\\'
  | _ => none

/-- The value of a digit in a base up to sixteen. -/
def digit? (base : Nat) (c : Char) : Option Nat :=
  let value? :=
    if '0' ≤ c && c ≤ '9' then some (c.toNat - '0'.toNat)
    else if 'a' ≤ c && c ≤ 'f' then some (c.toNat - 'a'.toNat + 10)
    else if 'A' ≤ c && c ≤ 'F' then some (c.toNat - 'A'.toNat + 10)
    else none
  value?.filter (· < base)

/-- The number a run of digits stands for. -/
def number? (base : Nat) (cs : List Char) : Option Nat :=
  cs.foldlM (fun n c => (digit? base c).map (n * base + ·)) 0

/-- The character with a hexadecimal code. -/
def coded? (digits : List Char) : Option Char := do
  let n ← number? 16 digits
  if n.isValidChar then some (Char.ofNat n) else none

/-- The rest of a string in double quotes, and what follows it. -/
def basic? : List Char → Option (List Char × List Char)
  | [] => none
  | '\x22' :: rest => some ([], rest)
  | '\\' :: 'u' :: a :: b :: c :: d :: rest => do
    let code ← coded? [a, b, c, d]
    let (body, rest) ← basic? rest
    return (code :: body, rest)
  | '\\' :: 'U' :: a :: b :: c :: d :: e :: f :: g :: h :: rest => do
    let code ← coded? [a, b, c, d, e, f, g, h]
    let (body, rest) ← basic? rest
    return (code :: body, rest)
  | '\\' :: c :: rest => do
    let c ← unescape? c
    let (body, rest) ← basic? rest
    return (c :: body, rest)
  | c :: rest =>
    if isControl c then none
    else do
      let (body, rest) ← basic? rest
      return (c :: body, rest)

/-- The rest of a string in single quotes, and what follows it. -/
def literal? : List Char → Option (List Char × List Char)
  | [] => none
  | '\x27' :: rest => some ([], rest)
  | c :: rest =>
    if isControl c then none
    else do
      let (body, rest) ← literal? rest
      return (c :: body, rest)

/-- A string, and what follows it. -/
def string? : List Char → Option (String × List Char)
  | '\x22' :: rest => (basic? rest).map fun (body, rest) => (String.ofList body, rest)
  | '\x27' :: rest => (literal? rest).map fun (body, rest) => (String.ofList body, rest)
  | _ => none

/-- Digits of a base in which every underscore stands between two digits. -/
def digits? (base : Nat) (cs : List Char) : Option Nat :=
  let separated := fun (a, b) => a == '_' && b == '_'
  if cs.isEmpty || cs.head? == some '_' || cs.getLast? == some '_' ||
    (cs.zip cs.tail).any separated then none
  else number? base (cs.filter (· != '_'))

/-- Decimal digits without a superfluous zero in front. -/
def decimal? : List Char → Option Nat
  | ['0'] => some 0
  | '0' :: _ => none
  | cs => digits? 10 cs

/-- An integer of 64 bits: decimal with an optional sign, or in the base that its first two
    characters name. -/
def integer? (cs : List Char) : Option Int :=
  let n? : Option Int := match cs with
    | '0' :: 'x' :: cs => (digits? 16 cs).map Int.ofNat
    | '0' :: 'o' :: cs => (digits? 8 cs).map Int.ofNat
    | '0' :: 'b' :: cs => (digits? 2 cs).map Int.ofNat
    | '+' :: cs => (decimal? cs).map Int.ofNat
    | '-' :: cs => (decimal? cs).map fun n => -(n : Int)
    | cs => (decimal? cs).map Int.ofNat
  n?.filter fun n => -0x8000000000000000 ≤ n && n < 0x8000000000000000

/-- The characters of names, numbers and truth values. -/
def isWordChar (c : Char) : Bool := c.isAlphanum || c == '_' || c == '-' || c == '+'

/-- A value, and what follows it. -/
def value? (cs : List Char) : Option (Value × List Char) :=
  match string? cs with
  | some (s, rest) => some (.string s, rest)
  | none =>
    let word := cs.takeWhile isWordChar
    let v? : Option Value := match String.ofList word with
      | "true" => some (.boolean true)
      | "false" => some (.boolean false)
      | _ => (integer? word).map .integer
    v?.map fun v => (v, cs.dropWhile isWordChar)

/-- A key, bare or quoted, and what follows it. -/
def key? (cs : List Char) : Option (String × List Char) :=
  match string? cs with
  | some found => some found
  | none =>
    let isKeyChar := fun c : Char => c.isAlphanum || c == '_' || c == '-'
    let name := cs.takeWhile isKeyChar
    if name.isEmpty then none else some (String.ofList name, cs.dropWhile isKeyChar)

/-- Whether a line holds nothing more, a comment apart. -/
def isEnd : List Char → Bool
  | [] => true
  | c :: rest => c == '#' && rest.all (!isControl ·)

/-- A line: nothing, or a key and a value. -/
def line? (line : String) : Option (Option (String × Value)) :=
  let cs := line.toList.dropWhile isBlank
  if isEnd cs then some none
  else do
    let (key, cs) ← key? cs
    match cs.dropWhile isBlank with
    | '=' :: cs =>
      let (value, cs) ← value? (cs.dropWhile isBlank)
      if isEnd (cs.dropWhile isBlank) then some (some (key, value)) else none
    | _ => none

/-- Reads a document; `none` if a line is malformed or a key is repeated. -/
def read? (text : String) : Option Document := do
  let entries := (← (inputLines text).mapM line?).filterMap id
  let keys := entries.map (·.1)
  if keys.all (keys.count · == 1) then some entries else none

/-! ## Writing -/

/-- The forms of a string: on one line or as a block of lines, with or without escapes. -/
inductive Quoting where
  | basic
  | literal
  | blockBasic
  | blockLiteral
deriving DecidableEq, Repr

/-- The length of the longest run of a character, after `run` of them. -/
def longestRun (q : Char) (run : Nat) : List Char → Nat
  | [] => run
  | c :: cs => if c = q then longestRun q (run + 1) cs else max run (longestRun q 0 cs)

namespace Quoting

/-- The plainest form that holds a string: the first that needs no escape, and if all need some,
    a block only if there are several lines. -/
def choose (cs : List Char) : Quoting :=
  let codes := cs.any fun c => isControl c && c != '\n'
  let backslash := cs.contains '\\'
  let newline := cs.contains '\n'
  let doubles := longestRun '\x22' 0 cs
  let singles := longestRun '\x27' 0 cs
  if !codes && !backslash && !newline && doubles == 0 then basic
  else if !codes && !newline && singles == 0 then literal
  else if !codes && !backslash && doubles ≤ 2 then blockBasic
  else if !codes && singles ≤ 2 then blockLiteral
  else if newline then blockBasic
  else basic

/-- What stands on either side of a string. -/
def mark : Quoting → String
  | basic => "\x22"
  | literal => "\x27"
  | blockBasic => "\x22\x22\x22"
  | blockLiteral => "\x27\x27\x27"

end Quoting

/-- A character in double quotes. -/
def escape (c : Char) : String :=
  match c with
  | '\x08' => "\\b"
  | '\t' => "\\t"
  | '\n' => "\\n"
  | '\x0c' => "\\f"
  | '\r' => "\\r"
  | '\x22' => "\\\x22"
  | '\\' => "\\\\"
  | c =>
    if isControl c then
      let digits := Nat.toDigits 16 c.toNat
      "\\u" ++ String.ofList (List.replicate (4 - digits.length) '0' ++ digits.map Char.toUpper)
    else c.toString

/-- The characters of a block in double quotes after `run` quotes in a row: newlines stand as
    themselves, and so do two quotes in a row. -/
def blockBody (run : Nat) : List Char → String
  | [] => ""
  | c :: cs =>
    if c = '\n' then "\n" ++ blockBody 0 cs
    else if c = '\x22' && run < 2 then "\x22" ++ blockBody (run + 1) cs
    else escape c ++ blockBody 0 cs

/-- A string in quotes. A block of several lines starts on a line of its own. -/
def quote (s : String) : String :=
  let cs := s.toList
  let form := Quoting.choose cs
  let body := match form with
    | .basic => String.join (cs.map escape)
    | .blockBasic => blockBody 0 cs
    | .literal | .blockLiteral => s
  form.mark ++ (if cs.contains '\n' then "\n" else "") ++ body ++ form.mark

def Value.text : Value → String
  | string s => quote s
  | integer n => toString n
  | boolean b => if b then "true" else "false"

/-- A document whose keys need no quotes, a line for each key. -/
def write (d : Document) : String :=
  String.join (d.map fun (key, value) => key ++ " = " ++ value.text ++ "\n")

end Toml

end ScalarLang
