/-
# Operators on words

The three unary and sixteen binary operators of the source language, how they
are written, and what they compute. Arithmetic wraps at 32 bits, a shift uses
the low five bits of its count and keeps the sign when it goes right, and a
comparison yields the word of its truth value. Division goes toward zero; it
has no result when the divisor is zero or the quotient does not fit.

Key definitions: `UnaryOp.apply`, `BinaryOp.apply`.
-/
import Chordal.Word

namespace Chordal

/-- Types of the source language. -/
inductive Ty where
  | int
  | bool
deriving DecidableEq, Repr, Inhabited

/-- How a type is written. -/
def Ty.text : Ty → String
  | .int => "int"
  | .bool => "bool"

/-- Operators with one operand. -/
inductive UnaryOp where
  | neg
  | bitNot
  | logicalNot
deriving DecidableEq, Repr, Inhabited

/-- Operators with two operands. -/
inductive BinaryOp where
  | add
  | sub
  | mul
  | div
  | mod
  | shl
  | shr
  | lt
  | le
  | gt
  | ge
  | eq
  | ne
  | and
  | or
  | xor
deriving DecidableEq, Repr, Inhabited

/-- Why a division has no result. -/
inductive DivisionFault where
  | byZero
  | overflow
deriving DecidableEq, Repr, Inhabited

namespace UnaryOp

/-- All unary operators. -/
def all : List UnaryOp := [.neg, .bitNot, .logicalNot]

/-- How the operator is written. -/
def symbol : UnaryOp → String
  | .neg => "-"
  | .bitNot => "~"
  | .logicalNot => "!"

/-- The type the operator takes and gives. -/
def operandTy : UnaryOp → Ty
  | .neg => .int
  | .bitNot => .int
  | .logicalNot => .bool

/-- What the operator computes. Logical negation flips the lowest bit, which
negates the word of a truth value. -/
def apply (op : UnaryOp) (w : Word) : Word :=
  match op with
  | .neg => -w
  | .bitNot => ~~~w
  | .logicalNot => w ^^^ 1

end UnaryOp

namespace BinaryOp

/-- All binary operators. -/
def all : List BinaryOp :=
  [.add, .sub, .mul, .div, .mod, .shl, .shr, .lt, .le, .gt, .ge, .eq, .ne, .and, .or, .xor]

/-- How the operator is written. -/
def symbol : BinaryOp → String
  | .add => "+"
  | .sub => "-"
  | .mul => "*"
  | .div => "/"
  | .mod => "%"
  | .shl => "<<"
  | .shr => ">>"
  | .lt => "<"
  | .le => "<="
  | .gt => ">"
  | .ge => ">="
  | .eq => "=="
  | .ne => "!="
  | .and => "&"
  | .or => "|"
  | .xor => "^"

/-- Comparisons give a truth value, whatever the type of their operands. -/
def isComparison : BinaryOp → Bool
  | .lt | .le | .gt | .ge | .eq | .ne => true
  | _ => false

/-- Operators whose operands may be exchanged. -/
def isCommutative : BinaryOp → Bool
  | .add | .mul | .and | .or | .xor | .eq | .ne => true
  | _ => false

/-- Equality and inequality are the operators that also take truth values. -/
def isEquality : BinaryOp → Bool
  | .eq | .ne => true
  | _ => false

/-- `f l r`, provided that the signed quotient of `l` by `r` exists and fits. -/
def dividing (f : Word → Word → Word) (l r : Word) : Except DivisionFault Word :=
  if r = 0 then .error .byZero
  else if l = BitVec.intMin 32 ∧ r = -1 then .error .overflow
  else .ok (f l r)

/-- What the operator computes. -/
def apply (op : BinaryOp) (l r : Word) : Except DivisionFault Word :=
  match op with
  | .add => .ok (l + r)
  | .sub => .ok (l - r)
  | .mul => .ok (l * r)
  | .div => dividing BitVec.sdiv l r
  | .mod => dividing BitVec.srem l r
  | .shl => .ok (l <<< (r.toNat % 32))
  | .shr => .ok (l.sshiftRight (r.toNat % 32))
  | .lt => .ok (Word.ofBool (l.slt r))
  | .le => .ok (Word.ofBool (l.sle r))
  | .gt => .ok (Word.ofBool (r.slt l))
  | .ge => .ok (Word.ofBool (r.sle l))
  | .eq => .ok (Word.ofBool (l == r))
  | .ne => .ok (Word.ofBool (l != r))
  | .and => .ok (l &&& r)
  | .or => .ok (l ||| r)
  | .xor => .ok (l ^^^ r)

end BinaryOp
end Chordal
