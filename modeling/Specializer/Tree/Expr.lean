import Specializer.Literal
import Specializer.Source.Span

/-!
# Expressions

Typed expressions of a module tree. Sub-expressions are handles, so one expression may occur in
several places.
-/

set_option autoImplicit false

namespace Specializer

inductive BinaryOperator where
  | add | sub | mul | div | rem
  | and | or
  | equal | notEqual | less | lessEqual | greater | greaterEqual
  deriving DecidableEq

inductive UnaryOperator where
  | not | negate
  deriving DecidableEq

def BinaryOperator.text : BinaryOperator → String
  | .add => "+"
  | .sub => "-"
  | .mul => "*"
  | .div => "/"
  | .rem => "%"
  | .and => "and"
  | .or => "or"
  | .equal => "=="
  | .notEqual => "!="
  | .less => "<"
  | .lessEqual => "<="
  | .greater => ">"
  | .greaterEqual => ">="

def UnaryOperator.text : UnaryOperator → String
  | .not => "not"
  | .negate => "-"

inductive Argument where
  | type (type : TypeId)
  | value (value : Literal)
  deriving DecidableEq

structure LambdaParam where
  name : SymbolId
  type : TypeId
  deriving DecidableEq

inductive ExprKind where
  | literal (value : Literal)
  /-- a name bound by a lambda or a `let` -/
  | localName (name : SymbolId)
  /-- binding `index` of the module around the expression, or of one around that -/
  | field (owner : ModuleId) (index : Nat)
  /-- a field of the instance of a module for these arguments: an instantiation site -/
  | site (target : ModuleId) (arguments : List Argument) (field : SymbolId)
  /-- the argument given for value parameter `index` of a module around the expression -/
  | templateValue (owner : ModuleId) (index : Nat)
  | lambda (params : List LambdaParam) (body : ExprId)
  | call (callee : ExprId) (arguments : List ExprId)
  | tuple (items : List ExprId)
  | letIn (name : SymbolId) (value body : ExprId)
  | ifThenElse (condition thenBranch elseBranch : ExprId)
  | unary (operator : UnaryOperator) (operand : ExprId)
  | binary (operator : BinaryOperator) (left right : ExprId)
  deriving DecidableEq

/-- Direct sub-expressions in the order of evaluation. -/
def ExprKind.children : ExprKind → List ExprId
  | .literal _ => []
  | .localName _ => []
  | .field _ _ => []
  | .site _ _ _ => []
  | .templateValue _ _ => []
  | .lambda _ body => [body]
  | .call callee arguments => callee :: arguments
  | .tuple items => items
  | .letIn _ value body => [value, body]
  | .ifThenElse condition thenBranch elseBranch => [condition, thenBranch, elseBranch]
  | .unary _ operand => [operand]
  | .binary _ left right => [left, right]

def ExprKind.isLambda : ExprKind → Bool
  | .lambda _ _ => true
  | _ => false

/-- The spelling of the operator of a unary or binary expression. -/
def ExprKind.operator? : ExprKind → Option String
  | .unary operator _ => some operator.text
  | .binary operator _ _ => some operator.text
  | _ => none

structure Expr where
  kind : ExprKind
  span : Span
  type : TypeId
  deriving DecidableEq

end Specializer
