import ScalarLang.Token.Basic

/-
  Scanning a source into tokens by maximal munch.
  `munch c cs` gives the kind of the token that starts with `c` and how many characters of `cs`
  belong to it, so that the token is never empty and the scan ends with the source. Blanks are
  skipped, a newline is a token, and a character that starts no token is a token of its own, of
  kind `unknown`.
-/

namespace ScalarLang

/-- Characters between tokens that mean nothing. -/
def isBlank (c : Char) : Bool := c == ' ' || c == '\t' || c == '\r'

def isWordStart (c : Char) : Bool := c.isAlpha || c == '_'
def isWordChar (c : Char) : Bool := c.isAlphanum || c == '_'

/-- Digits may be grouped by underscores after the first. -/
def isDigitChar (c : Char) : Bool := c.isDigit || c == '_'

/-- The letters that choose a floating-point type. -/
def isFloatSuffix (c : Char) : Bool :=
  c == 'f' || c == 'F' || c == 'h' || c == 'H' || c == 'd' || c == 'D'

namespace Token

/-- The words that are no identifiers. -/
def reserved : List (List Char × TokenKind) :=
  [("def".toList, .defWord), ("if".toList, .ifWord), ("when".toList, .whenWord),
   ("else".toList, .elseWord), ("True".toList, .trueWord), ("False".toList, .falseWord),
   ("NaN".toList, .nanWord), ("inf".toList, .infinityWord), ("Infinity".toList, .infinityWord)]

def wordKind (word : List Char) : TokenKind := (reserved.lookup word).getD .ident

/-- How many digit characters stand at the start. -/
def digitRun (cs : List Char) : Nat := (cs.takeWhile isDigitChar).length

/-- The length of a digit followed by digit characters, 0 if no digit comes first. -/
def digitsLength : List Char → Nat
  | d :: cs => if d.isDigit then 1 + digitRun cs else 0
  | [] => 0

/-- The length of an exponent part, `e` or `E`, an optional sign and digits; 0 if there is none. -/
def exponentLength : List Char → Nat
  | e :: cs =>
    if e == 'e' || e == 'E' then
      match cs with
      | s :: ds =>
        if s == '+' || s == '-' then
          if digitsLength ds = 0 then 0 else 2 + digitsLength ds
        else if digitsLength cs = 0 then 0 else 1 + digitsLength cs
      | [] => 0
    else 0
  | [] => 0

/-- The length of a float suffix. -/
def suffixLength : List Char → Nat
  | c :: _ => if isFloatSuffix c then 1 else 0
  | [] => 0

/-- The kind and length of what follows the first run of digits of a number. -/
def numberTail : List Char → TokenKind × Nat
  | [] => (.int, 0)
  | c :: cs =>
    if c == '.' then
      let fraction := digitsLength cs
      if fraction = 0 then (.int, 0)
      else
        let rest := cs.drop fraction
        let exponent := exponentLength rest
        (.float, 1 + fraction + exponent + suffixLength (rest.drop exponent))
    else if c == 'u' || c == 'U' then (.unsigned, 1)
    else
      let exponent := exponentLength (c :: cs)
      if exponent = 0 then
        if isFloatSuffix c then (.float, 1) else (.int, 0)
      else (.float, exponent + suffixLength ((c :: cs).drop exponent))

/-- A number token, after its first digit. -/
def munchNumber (cs : List Char) : TokenKind × Nat :=
  let run := digitRun cs
  let tail := numberTail (cs.drop run)
  (tail.1, run + tail.2)

/-- A word token that starts with `c`. -/
def munchWord (c : Char) (cs : List Char) : TokenKind × Nat :=
  let rest := cs.takeWhile isWordChar
  (wordKind (c :: rest), rest.length)

/-- One character or, if `next` follows it, two. -/
def oneOrTwo (next : Char) (two one : TokenKind) : List Char → TokenKind × Nat
  | c :: _ => if c == next then (two, 1) else (one, 0)
  | [] => (one, 0)

/-- A token that starts neither as a number nor as a word. -/
def munchSymbol (c : Char) (cs : List Char) : TokenKind × Nat :=
  match c with
  | '+' => (.plus, 0)
  | '-' => (.minus, 0)
  | '*' => (.star, 0)
  | '/' => if cs.head? == some '/' then (.comment, (cs.takeWhile (· != '\n')).length) else (.slash, 0)
  | '=' => oneOrTwo '=' .eqEq .unknown cs
  | '!' => oneOrTwo '=' .notEq .unknown cs
  | '<' => if cs.head? == some '<' then (.shl, 1) else oneOrTwo '=' .ltEq .lt cs
  | '>' => if cs.head? == some '>' then (.shr, 1) else oneOrTwo '=' .gtEq .gt cs
  | '&' => (.ampersand, 0)
  | '|' => (.pipe, 0)
  | '^' => (.caret, 0)
  | '(' => (.lParen, 0)
  | ')' => (.rParen, 0)
  | '\x7b' => (.lBrace, 0)
  | '\x7d' => (.rBrace, 0)
  | ',' => (.comma, 0)
  | ';' => (.semicolon, 0)
  | '\n' => (.newline, 0)
  | _ => (.unknown, 0)

/-- The kind of the token that starts with `c`, and how many characters of `cs` belong to it. -/
def munch (c : Char) (cs : List Char) : TokenKind × Nat :=
  if c.isDigit then munchNumber cs
  else if isWordStart c then munchWord c cs
  else munchSymbol c cs

/-- The tokens of `cs`, which starts at byte `pos` of the source. -/
def scanFrom (pos : Nat) : List Char → List Token
  | [] => []
  | c :: cs =>
    if isBlank c then scanFrom (pos + c.utf8Size) cs
    else
      let (kind, more) := munch c cs
      let lexeme := c :: cs.take more
      let stop := pos + byteLength lexeme
      ⟨kind, ⟨pos, stop⟩, String.ofList lexeme⟩ :: scanFrom stop (cs.drop more)
termination_by cs => cs.length
decreasing_by
  · simp
  · simp only [List.length_drop, List.length_cons]; omega

/-- The tokens of a source without the end marker. -/
def scan (source : String) : List Token := scanFrom 0 source.toList

/-- All tokens of a source, comments and unknown characters included, then the end marker. -/
def tokenize (source : String) : List Token :=
  scan source ++ [eof (byteLength source.toList)]

end Token

/-- A character that starts no token. -/
structure LexError where
  char : Char
  span : Span
deriving DecidableEq

namespace LexError

def message (e : LexError) : String := "unexpected character '" ++ String.singleton e.char ++ "'"

def text (e : LexError) : String := e.message ++ " at " ++ e.span.text

/-- The complaint about a token of unknown kind. -/
def ofToken? (t : Token) : Option LexError :=
  if t.kind = .unknown then some ⟨t.lexeme.toList.headD '\x00', t.span⟩ else none

end LexError

/-- The characters of a source that start no token, in order. -/
def Token.lexErrors (source : String) : List LexError :=
  (scan source).filterMap LexError.ofToken?

end ScalarLang
