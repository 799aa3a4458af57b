/-
# Syntax trees

A program as it is written: functions without parameters, statements and
expressions, with names not yet resolved. Every node knows the place it was
read at.

Statements that may stand in the head of a `for` loop are a type of their own,
`Simple`, and counting goes by one. Trees that cannot be read, with other
statements in a head or other amounts, are left out. The short-circuit operators have no node: `a && b` is read as
`a ? b : false` and `a || b` as `a ? true : b`.

Key definitions: `Expr`, `Simple`, `Stmt`, `Func`, `Program`.
-/
import Chordal.Operator
import Chordal.Source.Span

namespace Chordal.Syntax

/-- Expressions. -/
inductive Expr where
  | int (span : Span) (value : Word)
  | bool (span : Span) (value : Bool)
  | var (span : Span) (name : String)
  | unary (span : Span) (op : UnaryOp) (operand : Expr)
  | binary (span : Span) (op : BinaryOp) (left right : Expr)
  | ternary (span : Span) (condition ifTrue ifFalse : Expr)
deriving DecidableEq, Repr

/-- The place an expression was read at. -/
def Expr.span : Expr → Span
  | .int p _ => p
  | .bool p _ => p
  | .var p _ => p
  | .unary p _ _ => p
  | .binary p _ _ _ => p
  | .ternary p _ _ _ => p

/-- The direction a variable is counted in by `++` and `--`. -/
inductive Count where
  | up
  | down
deriving DecidableEq, Repr

/-- Statements without control flow. An assignment with an operator reads the
variable first. -/
inductive Simple where
  | declare (span : Span) (ty : Ty) (name : String) (init : Option Expr)
  | assign (span : Span) (name : String) (op : Option BinaryOp) (value : Expr)
  | count (span : Span) (name : String) (direction : Count)
  | expr (span : Span) (value : Expr)
deriving DecidableEq, Repr

/-- The place a simple statement was read at. -/
def Simple.span : Simple → Span
  | .declare p _ _ _ => p
  | .assign p _ _ _ => p
  | .count p _ _ => p
  | .expr p _ => p

/-- Whether a simple statement declares a variable. -/
def Simple.isDeclaration : Simple → Bool
  | .declare .. => true
  | _ => false

/-- Statements. -/
inductive Stmt where
  | simple (body : Simple)
  | block (span : Span) (body : List Stmt)
  | ifElse (span : Span) (condition : Expr) (ifTrue : Stmt) (ifFalse : Option Stmt)
  | while_ (span : Span) (condition : Expr) (body : Stmt)
  | for_ (span : Span) (init : Option Simple) (condition : Expr) (step : Option Simple)
      (body : Stmt)
  | break_ (span : Span)
  | continue_ (span : Span)
  | return_ (span : Span) (value : Expr)
deriving Repr

/-- A function: it takes nothing and gives a value of type `returns`. -/
structure Func where
  span : Span
  returns : Ty
  name : String
  body : List Stmt
deriving Repr

/-- A program is its functions, in the order they are written. -/
structure Program where
  functions : List Func
deriving Repr

end Chordal.Syntax
