import ScalarLang.Parse.Basic
import ScalarLang.Parse.Number

/-
  Expressions, by precedence climbing.
  `expression fuel level` reads an expression whose operators outside parentheses bind at least
  as tightly as `level`. Every nested expression starts at least one token later, so a fuel
  greater than the number of tokens left never runs out; the counts of the loops are bounded by
  the same number. The steps take the parser of nested expressions as an argument.
-/

namespace ScalarLang

/-- The binary operator a token stands for. -/
def TokenKind.binaryOp? : TokenKind → Option BinaryOp
  | plus => some .add
  | minus => some .sub
  | star => some .mul
  | slash => some .div
  | ampersand => some .bitAnd
  | pipe => some .bitOr
  | caret => some .bitXor
  | shl => some .shl
  | shr => some .shr
  | eqEq => some .eq
  | notEq => some .ne
  | gt => some .gt
  | lt => some .lt
  | gtEq => some .ge
  | ltEq => some .le
  | _ => none

namespace Parser

/-- The arguments of a call up to the closing parenthesis; a comma may follow the last one. -/
def arguments (expr : Parser Node) : Nat → Parser (List Node)
  | 0 => return []
  | count + 1 => do
    let token ← current
    if token.kind = .rParen || token.kind = .eof then return []
    let arg ← expr
    let next ← current
    if next.kind = .comma then
      advance
      return arg :: (← arguments expr count)
    else return [arg]

/-- A name, or a call if a parenthesis follows. -/
def nameOrCall (args : Parser (List Node)) : Parser Node := do
  let callee ← expectIdent
  let next ← current
  if next.kind = .lParen then
    advance
    let args ← args
    let close ← expect .rParen
    return .call (callee.span.hull close.span) callee args
  else return .name callee.span callee.text

def parenthesized (expr : Parser Node) : Parser Node := do
  advance
  let inner ← expr
  let _ ← expect .rParen
  return inner

/-- A test, an arm, the word `else` and another arm, after the word for the form. -/
def conditional (expr : Parser Node) (form : ConditionalForm) : Parser Node := do
  let start ← current
  advance
  let test ← expr
  let thenArm ← expr
  let next ← current
  if next.kind = .elseWord then
    advance
    let elseArm ← expr
    return .conditional (start.span.hull elseArm.span) form test thenArm elseArm
  else unexpected (.token .elseWord) (some (form.keyword ++ " <test> <then> else <else>"))

/-- An expression without operators in front or behind. -/
def primary (expr : Parser Node) (count : Nat) : Parser Node := do
  let token ← current
  match token.literal? with
  | some (.ok value) =>
    advance
    return .literal token.span value
  | some (.error e) =>
    advance
    fail (.invalidNumber e) token.span
  | none =>
    match token.kind with
    | .ident => nameOrCall (arguments expr count)
    | .lParen => parenthesized expr
    | .ifWord => conditional expr .ifForm
    | .whenWord => conditional expr .whenForm
    | .defWord => fail .nestedFunction token.span
    | _ => fail .expectedExpression token.span

/-- Any number of minus signs before a primary. A minus directly before `2 ^ 63` makes one
    literal of the two. -/
def operand (expr : Parser Node) : Nat → Parser Node
  | 0 => do fail .expectedExpression (← current).span
  | count + 1 => do
    let token ← current
    if token.kind = .minus then
      advance
      let next ← current
      if next.kind = .int && NumberToken.isMinMagnitude next.lexeme then
        advance
        return .literal (token.span.hull next.span) (.signed (BitVec.intMin 64))
      else
        let inner ← operand expr count
        return .negate (token.span.hull inner.span) inner
    else primary expr (count + 1)

/-- Extends `lhs` by the operators that follow and bind at least as tightly as `level`. -/
def climb (expr : Nat → Parser Node) (level : Nat) : Nat → Node → Parser Node
  | 0, lhs => return lhs
  | count + 1, lhs => do
    let token ← current
    match token.kind.binaryOp? with
    | none => return lhs
    | some op =>
      if op.precedence < level then return lhs
      else
        advance
        let rhs ← expr (op.precedence + 1)
        climb expr level count (.binary (lhs.span.hull rhs.span) op lhs rhs)

def expression : Nat → Nat → Parser Node
  | 0, _ => do fail .expectedExpression (← current).span
  | fuel + 1, level => do
    let lhs ← operand (expression fuel 0) (fuel + 1)
    climb (expression fuel) level (fuel + 1) lhs

end Parser

end ScalarLang
