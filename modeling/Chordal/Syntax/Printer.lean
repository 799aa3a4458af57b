/-
# Written syntax trees

Syntax trees as text, in parentheses. Every node is followed by `@` and its
place; an absent part is an underscore.

Key definitions: `Expr.text`, `Stmt.text`, `Func.text`.
-/
import Chordal.Syntax
import Chordal.Text

namespace Chordal.Syntax

/-- A node's text with its place. -/
def placed (text : String) (p : Span) : String := text ++ "@" ++ p.text

/-- The text of an expression. -/
def Expr.text : Expr → String
  | .int p value => placed ("(int " ++ Word.text value ++ ")") p
  | .bool p value => placed ("(bool " ++ Text.ofBool value ++ ")") p
  | .var p name => placed ("(var " ++ name ++ ")") p
  | .unary p op operand => placed ("(un " ++ op.symbol ++ " " ++ operand.text ++ ")") p
  | .binary p op left right =>
    placed ("(bin " ++ op.symbol ++ " " ++ left.text ++ " " ++ right.text ++ ")") p
  | .ternary p condition ifTrue ifFalse =>
    placed ("(tern " ++ condition.text ++ " " ++ ifTrue.text ++ " " ++ ifFalse.text ++ ")") p

/-- The text of an optional part. -/
def optionText {α : Type} (text : α → String) (part : Option α) : String :=
  (part.map text).getD "_"

/-- The text of a simple statement. -/
def Simple.text : Simple → String
  | .declare p ty name init =>
    placed ("(decl " ++ ty.text ++ " " ++ name ++ " " ++ optionText Expr.text init ++ ")") p
  | .assign p name op value =>
    placed ("(assign " ++ name ++ " " ++ ((op.map BinaryOp.symbol).getD "") ++ "= " ++ value.text
      ++ ")") p
  | .count p name .up => placed ("(incr " ++ name ++ " 1)") p
  | .count p name .down => placed ("(incr " ++ name ++ " -1)") p
  | .expr p value => placed ("(expr " ++ value.text ++ ")") p

mutual

/-- The text of a statement. -/
def Stmt.text : Stmt → String
  | .simple s => s.text
  | .block p body => placed ("(block " ++ Text.bracketed (Stmt.texts body) ++ ")") p
  | .ifElse p condition ifTrue none =>
    placed ("(if " ++ condition.text ++ " " ++ ifTrue.text ++ " _)") p
  | .ifElse p condition ifTrue (some ifFalse) =>
    placed ("(if " ++ condition.text ++ " " ++ ifTrue.text ++ " " ++ ifFalse.text ++ ")") p
  | .while_ p condition body => placed ("(while " ++ condition.text ++ " " ++ body.text ++ ")") p
  | .for_ p init condition step body =>
    placed ("(for " ++ optionText Simple.text init ++ " " ++ condition.text ++ " "
      ++ optionText Simple.text step ++ " " ++ body.text ++ ")") p
  | .break_ p => placed "(break)" p
  | .continue_ p => placed "(continue)" p
  | .return_ p value => placed ("(return " ++ value.text ++ ")") p

/-- The texts of statements. -/
def Stmt.texts : List Stmt → List String
  | [] => []
  | s :: rest => s.text :: Stmt.texts rest

end

/-- The text of a function. -/
def Func.text (f : Func) : String :=
  let body := Text.bracketed (Stmt.texts f.body)
  placed ("(fn " ++ f.returns.text ++ " " ++ f.name ++ " " ++ body ++ ")") f.span

end Chordal.Syntax
