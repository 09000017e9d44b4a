import ScalarLang.Scalar.Basic
import ScalarLang.Tree

/-
  Why a tree cannot be lowered.
-/

namespace ScalarLang

/-- The kinds of errors a user sees. -/
inductive ErrorCategory where
  | malformed | type | name | arity | verification | runtime | internal
deriving DecidableEq, Repr

def ErrorCategory.label : ErrorCategory → String
  | malformed => "SyntaxError"
  | type => "TypeError"
  | name => "NameError"
  | arity => "ArityError"
  | verification => "VerificationError"
  | runtime => "RuntimeError"
  | internal => "InternalError"

inductive LowerErrorKind where
  | incompatibleOperands (op : BinaryOp) (lhs rhs : ScalarType)
  | branchMismatch (thenType elseType : ScalarType)
  | typeError (error : TypeError)
  | undefinedFunction (name : String)
  | undefinedName (name : String)
  | duplicateFunction (name : String)
  | arityMismatch (name : String) (expected found : Nat)
  | parametersUnsupported
  | misplacedFunction
  /-- A call of a function that returns nothing. This is not reported: lowering is abandoned at
      the call. No function that lowering makes is such a function. -/
  | missingResult
deriving DecidableEq

namespace LowerErrorKind

def message : LowerErrorKind → String
  | incompatibleOperands op lhs rhs =>
    "incompatible types for op '" ++ op.symbol ++ "': " ++ lhs.text ++ " and " ++ rhs.text
  | branchMismatch thenType elseType =>
    "then/else expressions must yield same type (found " ++ thenType.text ++ " and " ++
      elseType.text ++ ")"
  | typeError e => e.message
  | undefinedFunction name => "function '" ++ name ++ "' is not defined"
  | undefinedName name => "name '" ++ name ++ "' is not defined"
  | duplicateFunction name => "function '" ++ name ++ "' is already defined"
  | arityMismatch name expected found =>
    "function '" ++ name ++ "' takes " ++ toString expected ++ " argument(s) but " ++
      toString found ++ " were given"
  | parametersUnsupported => "function parameters are not supported"
  | misplacedFunction => "function definitions are only allowed at the top level"
  | missingResult =>
    "internal error: entered unreachable code: every lowered function returns a value"

def category : LowerErrorKind → ErrorCategory
  | incompatibleOperands _ _ _ | branchMismatch _ _ | typeError _ => .type
  | undefinedFunction _ | undefinedName _ | duplicateFunction _ => .name
  | arityMismatch _ _ _ => .arity
  | parametersUnsupported | misplacedFunction => .malformed
  | missingResult => .internal

end LowerErrorKind

structure LowerError where
  kind : LowerErrorKind
  span : Span
  hint : Option String := none
deriving DecidableEq

namespace LowerError

def message (e : LowerError) : String := e.kind.message

def category (e : LowerError) : ErrorCategory := e.kind.category

/-- The message with its place. -/
def text (e : LowerError) : String := e.message ++ " at " ++ e.span.text

end LowerError

end ScalarLang
