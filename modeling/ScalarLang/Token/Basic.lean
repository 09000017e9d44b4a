import ScalarLang.Source.Span

/-
  Tokens: their kinds, the name a message gives each kind, and the classes the parser asks for.
-/

namespace ScalarLang

inductive TokenKind where
  | defWord | ifWord | whenWord | elseWord
  | int | unsigned | float
  | trueWord | falseWord | nanWord | infinityWord
  | ident
  | plus | minus | star | slash
  | eqEq | notEq | lt | gt | ltEq | gtEq
  | ampersand | pipe | caret | shl | shr
  | lParen | rParen | lBrace | rBrace | comma | semicolon
  | comment | newline
  | eof
  | unknown
deriving DecidableEq, Repr

namespace TokenKind

/-- What a message calls a token of this kind. -/
def text : TokenKind → String
  | defWord => "def"
  | ifWord => "if"
  | whenWord => "when"
  | elseWord => "else"
  | int => "integer"
  | unsigned => "unsigned integer"
  | float => "float"
  | trueWord => "True"
  | falseWord => "False"
  | nanWord => "NaN"
  | infinityWord => "inf"
  | ident => "identifier"
  | plus => "+"
  | minus => "-"
  | star => "*"
  | slash => "/"
  | eqEq => "=="
  | notEq => "!="
  | lt => "<"
  | gt => ">"
  | ltEq => "<="
  | gtEq => ">="
  | ampersand => "&"
  | pipe => "|"
  | caret => "^"
  | shl => "<<"
  | shr => ">>"
  | lParen => "("
  | rParen => ")"
  | lBrace => "\x7b"
  | rBrace => "\x7d"
  | comma => ","
  | semicolon => ";"
  | comment => "// comment"
  | newline => "newline"
  | eof => "end of input"
  | unknown => "error"

/-- Tokens that are an expression by themselves, names apart. -/
def isLiteral : TokenKind → Bool
  | int | unsigned | float | trueWord | falseWord | nanWord | infinityWord => true
  | _ => false

/-- Tokens that end a statement. -/
def isSeparator : TokenKind → Bool
  | newline | semicolon => true
  | _ => false

/-- Tokens the parser never sees. -/
def isTrivia : TokenKind → Bool
  | comment => true
  | _ => false

end TokenKind

structure Token where
  kind : TokenKind
  span : Span
  lexeme : String
deriving DecidableEq

/-- The token that marks the end of a source of `size` bytes. -/
def Token.eof (size : Nat) : Token := ⟨.eof, ⟨size, size⟩, ""⟩

end ScalarLang
