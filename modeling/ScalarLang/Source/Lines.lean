/-
  The lines of a text that is read line by line: each ends with a newline, or with a carriage
  return and a newline, and an unfinished last line counts unless it is empty.
-/

namespace ScalarLang

/-- The pieces of a text between its newlines; there is always at least one. -/
def splitLines : List Char → List (List Char)
  | [] => [[]]
  | c :: cs =>
    if c = '\n' then [] :: splitLines cs
    else match splitLines cs with
      | [] => [[c]]
      | line :: rest => (c :: line) :: rest

/-- A line without one carriage return at its end. -/
def dropReturn (cs : List Char) : List Char :=
  if cs.getLast? = some '\r' then cs.dropLast else cs

/-- The lines among the pieces between newlines. Only the last piece is not ended by one. -/
def finishedLines : List (List Char) → List (List Char)
  | [] => []
  | [last] => if last.isEmpty then [] else [last]
  | piece :: rest => dropReturn piece :: finishedLines rest

/-- The lines of a text. -/
def inputLines (text : String) : List String :=
  (finishedLines (splitLines text.toList)).map String.ofList

end ScalarLang
