/-
# Typed trees

A program whose names are resolved. A variable is a symbol with a number that
is unique in its function. `for` loops, compound assignments and counting are
gone: a loop has an optional step that runs before its condition is tested
again, also after a `continue`, and every assignment stores a plain expression.

The type of an expression follows from its parts, so it is a function, not a
field. A tree need not be well typed for it to be defined: a binary operator
that is no comparison has the type of its left operand, and a conditional that
of its first arm.

Key definitions: `Symbol`, `Expr`, `Expr.ty`, `Stmt`, `Func`, `Program`.
-/
import Chordal.Operator

namespace Chordal.Typed

/-- A declared variable. -/
structure Symbol where
  id : Nat
  name : String
  ty : Ty
deriving DecidableEq, Repr, Inhabited

/-- Expressions with resolved names. -/
inductive Expr where
  | int (value : Word)
  | bool (value : Bool)
  | var (symbol : Symbol)
  | unary (op : UnaryOp) (operand : Expr)
  | binary (op : BinaryOp) (left right : Expr)
  | ternary (condition ifTrue ifFalse : Expr)
deriving DecidableEq, Repr, Inhabited

/-- The type of an expression. -/
def Expr.ty : Expr → Ty
  | .int _ => .int
  | .bool _ => .bool
  | .var symbol => symbol.ty
  | .unary _ operand => operand.ty
  | .binary op left _ => if op.isComparison then .bool else left.ty
  | .ternary _ ifTrue _ => ifTrue.ty

/-- Whether an expression is just the variable with number `id`. -/
def Expr.isVariable (id : Nat) : Expr → Bool
  | .var symbol => symbol.id == id
  | _ => false

/-- Statements with resolved names. -/
inductive Stmt where
  | declare (symbol : Symbol) (init : Option Expr)
  | assign (symbol : Symbol) (value : Expr)
  | ifElse (condition : Expr) (ifTrue : List Stmt) (ifFalse : Option (List Stmt))
  | while_ (condition : Expr) (body : List Stmt) (step : Option (List Stmt))
  | break_
  | continue_
  | return_ (value : Expr)
  | block (body : List Stmt)
  | expr (value : Expr)
deriving Repr

/-- A function with resolved names. The entry function is the one a program
starts with. -/
structure Func where
  name : String
  returns : Ty
  body : List Stmt
  isEntry : Bool
deriving Repr

/-- A program with resolved names. -/
structure Program where
  functions : List Func
deriving Repr

end Chordal.Typed
