/-
# Diagnostics

What can be wrong with a source text, by the stage that finds it: a text that
is no sequence of tokens, tokens that form no program, and a program whose
names, types or control flow are wrong. A diagnostic is such a cause and the
place it concerns; the wording of every cause is in one function.

Key definitions: `Diagnostic`, `Diagnostic.message`, `Diagnostic.exitCode`.
-/
import Chordal.Operator
import Chordal.Token

namespace Chordal

/-- Why a text is no sequence of tokens. -/
inductive LexicalCause where
  | unterminatedComment
  | trailingCharacter (c : Char)
  | hexWithoutDigits
  | hexOutOfRange (digits : String)
  | leadingZero (digits : String)
  | decimalOutOfRange (digits : String)
  | unexpectedCharacter (c : Char)
deriving DecidableEq, Repr

/-- Why a sequence of tokens is no program. -/
inductive ParseCause where
  | expectedToken (wanted found : Token.Kind)
  | expectedName (found : Token.Kind)
  | expectedReturnType (found : Token.Kind)
  | expectedExpression (found : Token.Kind)
  | endInsideBlock
  | declarationAsStep
  /-- The last token opens a level inside itself, and after it there is only
  that token again: reading on never ends. -/
  | endlessNesting
deriving DecidableEq, Repr

/-- Why a program has no meaning. -/
inductive SemanticCause where
  | duplicateFunction (name : String)
  | noMain
  | mainNotInt
  | mayNotReturn (name : String)
  | undeclared (name : String)
  | redeclared (name : String)
  | unassigned (name : String)
  | breakOutsideLoop
  | continueOutsideLoop
  | compoundOperands (name : String)
  | typeMismatch (wanted found : Ty)
  | operatorOperands (op : BinaryOp) (left right : Ty)
deriving DecidableEq, Repr

namespace LexicalCause

/-- The wording of a lexical cause. -/
def message : LexicalCause → String
  | .unterminatedComment => "unterminated block comment"
  | .trailingCharacter c => "invalid character '" ++ c.toString ++ "' in numeric literal"
  | .hexWithoutDigits => "hex literal without digits"
  | .hexOutOfRange digits => "hex literal 0x" ++ digits ++ " out of range"
  | .leadingZero digits => "decimal literal " ++ digits ++ " has a leading zero"
  | .decimalOutOfRange digits => "decimal literal " ++ digits ++ " out of range"
  | .unexpectedCharacter c => "unexpected character '" ++ c.toString ++ "'"

end LexicalCause

namespace ParseCause

/-- The wording of a parse cause. -/
def message : ParseCause → String
  | .expectedToken wanted found => "expected " ++ wanted.text ++ " but found " ++ found.text
  | .expectedName found => "expected identifier but found " ++ found.text
  | .expectedReturnType found => "expected return type but found " ++ found.text
  | .expectedExpression found => "expected expression but found " ++ found.text
  | .endInsideBlock => "unexpected end of input inside block"
  | .declarationAsStep => "declaration not allowed as for-loop step"
  | .endlessNesting => "endless nesting at end of input"

end ParseCause

namespace SemanticCause

/-- The wording of a semantic cause. -/
def message : SemanticCause → String
  | .duplicateFunction name => "function `" ++ name ++ "` is defined more than once"
  | .noMain => "program has no `main` function"
  | .mainNotInt => "`main` must return int"
  | .mayNotReturn name => "function `" ++ name ++ "` may finish without returning"
  | .undeclared name => "undeclared variable `" ++ name ++ "`"
  | .redeclared name => "variable `" ++ name ++ "` is already declared"
  | .unassigned name => "variable `" ++ name ++ "` may be used before it is assigned"
  | .breakOutsideLoop => "`break` outside of a loop"
  | .continueOutsideLoop => "`continue` outside of a loop"
  | .compoundOperands name => "compound assignment to `" ++ name ++ "` requires int operands"
  | .typeMismatch wanted found =>
    "expected " ++ wanted.text ++ " expression but found " ++ found.text
  | .operatorOperands op left right =>
    "operator `" ++ op.symbol ++ "` cannot be applied to " ++ left.text ++ " and " ++ right.text

end SemanticCause

/-- What is wrong with a source text, and where. -/
inductive Diagnostic where
  | lexical (span : Span) (cause : LexicalCause)
  | parse (span : Span) (cause : ParseCause)
  | semantic (span : Span) (cause : SemanticCause)
deriving DecidableEq, Repr

namespace Diagnostic

/-- The place a diagnostic concerns. -/
def span : Diagnostic → Span
  | .lexical p _ => p
  | .parse p _ => p
  | .semantic p _ => p

/-- The text shown for a diagnostic. -/
def message : Diagnostic → String
  | .lexical p cause => p.text ++ ": lexical error: " ++ cause.message
  | .parse p cause => p.text ++ ": parse error: " ++ cause.message
  | .semantic p cause => p.text ++ ": semantic error: " ++ cause.message

/-- The status a run ends with when it stops at a diagnostic. -/
def exitCode : Diagnostic → Nat
  | .lexical .. => 42
  | .parse .. => 42
  | .semantic .. => 7

end Diagnostic
end Chordal
