import ScalarLang.Source.Span

/-
  Lines and columns of a source text, both counted from 1, columns in characters.
  The byte offsets at which lines start stand in a table, and the line of an offset is found there
  by bisection. A byte offset inside a character has no location; one past the end has that of
  the end. Like offsets, lines and columns have no bound.
-/

namespace ScalarLang

structure Location where
  line : Nat
  column : Nat
deriving DecidableEq, Repr

namespace Location

def text (l : Location) : String :=
  "line " ++ toString l.line ++ ", col " ++ toString l.column

end Location

/-- The offsets behind the newlines of `cs`, which starts at byte `pos`. -/
def newlineEnds (pos : Nat) : List Char → List Nat
  | [] => []
  | c :: cs =>
    let next := pos + c.utf8Size
    if c = '\n' then next :: newlineEnds next cs else newlineEnds next cs

/-- The byte offsets at which the lines of a source start. -/
def lineStarts (source : String) : Array Nat := (0 :: newlineEnds 0 source.toList).toArray

/-- The first place from `low` up to `high` where `holds` fails, for a `holds` that fails from
    there on. -/
def partitionPoint (holds : Nat → Bool) (low high : Nat) : Nat :=
  if low < high then
    let middle := low + (high - low) / 2
    if holds middle then partitionPoint holds (middle + 1) high
    else partitionPoint holds low middle
  else low
termination_by high - low

/-- The number, from 0, of the line that an offset is on: of the last that starts no later. -/
def lineOf (starts : Array Nat) (offset : Nat) : Nat :=
  partitionPoint (fun k => starts[k]?.any (· ≤ offset)) 0 starts.size - 1

/-- Divides a text after `count` bytes; `none` if it ends before, or there inside a character. -/
def splitBytes? : List Char → Nat → Option (List Char × List Char)
  | cs, 0 => some ([], cs)
  | [], _ + 1 => none
  | c :: cs, count + 1 =>
    if count + 1 < c.utf8Size then none
    else (splitBytes? cs (count + 1 - c.utf8Size)).map fun (before, after) => (c :: before, after)

/-- The location of a byte offset. -/
def Location.ofOffset? (source : String) (offset : Nat) : Option Location := do
  let offset := min offset (byteLength source.toList)
  let starts := lineStarts source
  let line := lineOf starts offset
  let start ← starts[line]?
  let (before, _) ← splitBytes? source.toList offset
  let (_, left) ← splitBytes? before start
  return ⟨line + 1, left.length + 1⟩

/-- A line without the carriage returns at its end. -/
def dropReturns (cs : List Char) : List Char :=
  (cs.reverse.dropWhile (· == '\r')).reverse

def lineCount (source : String) : Nat := (lineStarts source).size

/-- The text of a line; line 0 is the first line, and lines past the last are empty. -/
def lineText (source : String) (line : Nat) : String :=
  let text? := do
    let start ← (lineStarts source)[line - 1]?
    let (_, rest) ← splitBytes? source.toList start
    return dropReturns (rest.takeWhile (· != '\n'))
  String.ofList (text?.getD [])

end ScalarLang
