/-
# Written typed trees

Typed trees as text, in parentheses. Every expression is followed by its type,
a symbol by its number and type; an absent part is an underscore.

Key definitions: `Expr.text`, `Stmt.text`, `Func.text`.
-/
import Chordal.Text
import Chordal.Typed

namespace Chordal.Typed

/-- The text of a symbol. -/
def Symbol.text (s : Symbol) : String := s.name ++ "#" ++ toString s.id ++ ":" ++ s.ty.text

/-- The text of an expression without its type. -/
def Expr.bare : Expr → String
  | .int value => "(int " ++ Word.text value ++ ")"
  | .bool value => "(bool " ++ Text.ofBool value ++ ")"
  | .var symbol => "(var " ++ symbol.text ++ ")"
  | .unary op operand => "(un " ++ op.symbol ++ " " ++ operand.bare ++ ":" ++ operand.ty.text ++ ")"
  | .binary op left right =>
    "(bin " ++ op.symbol ++ " " ++ left.bare ++ ":" ++ left.ty.text ++ " " ++ right.bare ++ ":"
      ++ right.ty.text ++ ")"
  | .ternary condition ifTrue ifFalse =>
    "(tern " ++ condition.bare ++ ":" ++ condition.ty.text ++ " " ++ ifTrue.bare ++ ":"
      ++ ifTrue.ty.text ++ " " ++ ifFalse.bare ++ ":" ++ ifFalse.ty.text ++ ")"

/-- The text of an expression. -/
def Expr.text (e : Expr) : String := e.bare ++ ":" ++ e.ty.text

mutual

/-- The text of a statement. -/
def Stmt.text : Stmt → String
  | .declare symbol none => "(decl " ++ symbol.text ++ " _)"
  | .declare symbol (some init) => "(decl " ++ symbol.text ++ " " ++ init.text ++ ")"
  | .assign symbol value => "(assign " ++ symbol.text ++ " " ++ value.text ++ ")"
  | .ifElse condition ifTrue none =>
    "(if " ++ condition.text ++ " " ++ Text.bracketed (Stmt.texts ifTrue) ++ " _)"
  | .ifElse condition ifTrue (some ifFalse) =>
    "(if " ++ condition.text ++ " " ++ Text.bracketed (Stmt.texts ifTrue) ++ " "
      ++ Text.bracketed (Stmt.texts ifFalse) ++ ")"
  | .while_ condition body none =>
    "(while " ++ condition.text ++ " " ++ Text.bracketed (Stmt.texts body) ++ " _)"
  | .while_ condition body (some step) =>
    "(while " ++ condition.text ++ " " ++ Text.bracketed (Stmt.texts body) ++ " "
      ++ Text.bracketed (Stmt.texts step) ++ ")"
  | .break_ => "(break)"
  | .continue_ => "(continue)"
  | .return_ value => "(return " ++ value.text ++ ")"
  | .block body => "(block " ++ Text.bracketed (Stmt.texts body) ++ ")"
  | .expr value => "(expr " ++ value.text ++ ")"

/-- The texts of statements. -/
def Stmt.texts : List Stmt → List String
  | [] => []
  | s :: rest => s.text :: Stmt.texts rest

end

/-- The text of a function. -/
def Func.text (f : Func) : String :=
  "(fn " ++ f.returns.text ++ " " ++ f.name ++ (if f.isEntry then " entry " else " ")
    ++ Text.bracketed (Stmt.texts f.body) ++ ")"

end Chordal.Typed
