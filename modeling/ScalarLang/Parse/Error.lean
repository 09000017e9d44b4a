import ScalarLang.Token.Scan

/-
  What can be wrong with the form of a source.
-/

namespace ScalarLang

/-- What the parser would have accepted. -/
inductive Expected where
  | token (kind : TokenKind)
  | endOfStatement
deriving DecidableEq

def Expected.text : Expected → String
  | token kind => "'" ++ kind.text ++ "'"
  | endOfStatement => "';' or newline"

/-- Why a number is no literal. -/
inductive NumberError where
  | signedRange (lexeme : String)
  | unsignedRange (lexeme : String)
  | other (reason : String)
deriving DecidableEq

def NumberError.message : NumberError → String
  | signedRange lexeme => lexeme ++ " does not fit in a signed 64-bit integer"
  | unsignedRange lexeme => lexeme ++ " does not fit in an unsigned 64-bit integer"
  | other reason => reason

inductive ParseErrorKind where
  | unknownChar (char : Char)
  | unexpectedToken (found : TokenKind) (expected : Expected)
  | expectedExpression
  | expectedIdentifier
  | invalidNumber (error : NumberError)
  | parametersUnsupported
  | emptyFunctionBody
  | nestedFunction
deriving DecidableEq

def ParseErrorKind.message : ParseErrorKind → String
  | unknownChar c => "unexpected character '" ++ String.singleton c ++ "'"
  | unexpectedToken found expected =>
    "unexpected token: found " ++ found.text ++ ", expected " ++ expected.text
  | expectedExpression => "expected expression"
  | expectedIdentifier => "expected identifier"
  | invalidNumber e => "invalid number literal: " ++ e.message
  | parametersUnsupported => "function parameters are not supported"
  | emptyFunctionBody => "function body is empty"
  | nestedFunction => "function definitions are only allowed at the top level"

structure ParseError where
  kind : ParseErrorKind
  span : Span
  hint : Option String := none
deriving DecidableEq

namespace ParseError

def ofLexError (e : LexError) : ParseError := { kind := .unknownChar e.char, span := e.span }

def message (e : ParseError) : String := e.kind.message

/-- The message with its place and hint. -/
def text (e : ParseError) : String :=
  e.message ++ " at " ++ e.span.text ++
    match e.hint with
    | some hint => " (hint: " ++ hint ++ ")"
    | none => ""

end ParseError

end ScalarLang
