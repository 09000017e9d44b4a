import ScalarLang.Parse.Expression

/-
  Fragments: definitions and expressions separated by newlines or semicolons.
  After an error the parser drops tokens up to the next separator and goes on, so all errors of a
  fragment are reported. Unknown characters are reported alone.
-/

namespace ScalarLang

namespace Parser

/-- The statements of a function body up to its closing brace. -/
def body (expr : Parser Node) : Nat → Parser (List Node)
  | 0 => return []
  | count + 1 => do
    let token ← current
    if token.kind = .rBrace || token.kind = .eof then return []
    if token.kind = .defWord then fail .nestedFunction token.span
    let node ← expr
    endOfStatement .rBrace
    skipSeparators
    return node :: (← body expr count)

/-- A definition, from the word `def` to the closing brace of a body that is not empty. -/
def functionDef (expr : Parser Node) (count : Nat) : Parser Node := do
  let start ← expect .defWord
  let name ← expectIdent
  let _ ← expect .lParen
  let next ← current
  if next.kind ≠ .rParen then
    fail .parametersUnsupported next.span
      (some "functions take no arguments: def name() \x7b ... \x7d")
  let _ ← expect .rParen
  let _ ← expect .lBrace
  skipSeparators
  let nodes ← body expr count
  let close ← expect .rBrace
  let span := start.span.hull close.span
  if nodes.isEmpty then
    fail .emptyFunctionBody span (some "the last statement of a function is its return value")
  return .function span name [] nodes

/-- A definition or an expression. -/
def statement (fuel : Nat) : Parser Node := do
  let token ← current
  if token.kind = .defWord then functionDef (expression fuel 0) fuel else expression fuel 0

/-- A statement of a fragment, which ends before a separator or at the end of the source. -/
def topLevel (fuel : Nat) : Parser Node := do
  let node ← statement fuel
  endOfStatement .eof
  return node

/-- The statements of a fragment and the errors among them. Each turn takes a token, so as many
    turns as there are tokens suffice. -/
def collect (fuel : Nat) : Nat → Stream → List Node × List ParseError
  | 0, _ => ([], [])
  | turns + 1, s =>
    if s.tokens.isEmpty then ([], [])
    else
      match topLevel fuel s with
      | (.ok node, s) =>
        let (nodes, errors) := collect fuel turns s.skipSeparators
        (node :: nodes, errors)
      | (.error e, s) =>
        let (nodes, errors) := collect fuel turns s.skipStatement.skipSeparators
        (nodes, e :: errors)

end Parser

namespace Fragment

/-- The fragment a source stands for, or all that is wrong with it, in order. -/
def parse (source : String) : Except (List ParseError) Fragment :=
  match Token.lexErrors source with
  | [] =>
    let s := Stream.ofSource source
    let count := s.tokens.length
    match Parser.collect (count + 1) count s.skipSeparators with
    | (nodes, []) => .ok ⟨nodes⟩
    | (_, errors) => .error errors
  | errors => .error (errors.map .ofLexError)

end Fragment

namespace Node

/-- The expression a source stands for; separators may follow it. -/
def parse (source : String) : Except (List ParseError) Node :=
  match Token.lexErrors source with
  | [] =>
    let s := Stream.ofSource source
    let whole : Parser Node := do
      let node ← Parser.expression (s.tokens.length + 1) 0
      Parser.skipSeparators
      let _ ← Parser.expect .eof
      return node
    match whole s with
    | (.ok node, _) => .ok node
    | (.error e, _) => .error [e]
  | errors => .error (errors.map .ofLexError)

end Node

end ScalarLang
