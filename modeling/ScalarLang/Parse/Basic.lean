import ScalarLang.Parse.Error
import ScalarLang.Tree

/-
  Parsers: steps over the tokens that are left. A parser that fails leaves the tokens where it
  stopped, so that parsing can go on after the error.
-/

namespace ScalarLang

/-- The tokens that are left of a source of `size` bytes, without its end marker. -/
structure Stream where
  tokens : List Token
  size : Nat

namespace Stream

/-- The next token; at the end of the source, the end marker. -/
def current (s : Stream) : Token := s.tokens.headD (.eof s.size)

def advance (s : Stream) : Stream := { s with tokens := s.tokens.tail }

/-- Drops the separators that come next. -/
def skipSeparators (s : Stream) : Stream :=
  { s with tokens := s.tokens.dropWhile (·.kind.isSeparator) }

/-- Drops everything up to the next separator. -/
def skipStatement (s : Stream) : Stream :=
  { s with tokens := s.tokens.dropWhile (!·.kind.isSeparator) }

/-- The tokens of a source that a parser sees. -/
def ofSource (source : String) : Stream :=
  { tokens := (Token.scan source).filter (!·.kind.isTrivia)
    size := byteLength source.toList }

end Stream

abbrev Parser := ExceptT ParseError (StateM Stream)

namespace Parser

def current : Parser Token := return (← get).current

def advance : Parser Unit := modify Stream.advance

def skipSeparators : Parser Unit := modify Stream.skipSeparators

/-- Fails at a span. -/
def fail {α : Type} (kind : ParseErrorKind) (span : Span) (hint : Option String := none) : Parser α :=
  throw { kind, span, hint }

/-- Fails at the current token, which is not the expected one. -/
def unexpected {α : Type} (expected : Expected) (hint : Option String := none) : Parser α := do
  let token ← current
  fail (.unexpectedToken token.kind expected) token.span hint

/-- Takes a token of the given kind. -/
def expect (kind : TokenKind) : Parser Token := do
  let token ← current
  if token.kind = kind then
    advance
    return token
  else unexpected (.token kind)

def expectIdent : Parser Ident := do
  let token ← current
  if token.kind = .ident then
    advance
    return ⟨token.lexeme, token.span⟩
  else fail .expectedIdentifier token.span

/-- A statement ends before a separator or before what closes the list it stands in. -/
def endOfStatement (closer : TokenKind) : Parser Unit := do
  let token ← current
  if token.kind.isSeparator || token.kind = closer then return ()
  else unexpected .endOfStatement

end Parser

end ScalarLang
