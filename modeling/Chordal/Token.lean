/-
# Tokens

A token is a kind and the place where it begins. Keywords and operators are
kinds of their own; a name carries its spelling and a number its word.

Key definitions: `Token.Kind`, `Token`, `Token.Kind.text`.
-/
import Chordal.Word
import Chordal.Source.Span

namespace Chordal
namespace Token

/-- What a token is. -/
inductive Kind where
  | int
  | bool
  | if_
  | else_
  | while_
  | for_
  | break_
  | continue_
  | return_
  | true_
  | false_
  | ident (name : String)
  | number (value : Word)
  | lParen
  | rParen
  | lBrace
  | rBrace
  | semi
  | question
  | colon
  | plus
  | minus
  | star
  | slash
  | percent
  | shl
  | shr
  | lt
  | le
  | gt
  | ge
  | eqEq
  | ne
  | amp
  | pipe
  | caret
  | ampAmp
  | pipePipe
  | bang
  | tilde
  | assign
  | plusAssign
  | minusAssign
  | starAssign
  | slashAssign
  | percentAssign
  | shlAssign
  | shrAssign
  | ampAssign
  | pipeAssign
  | caretAssign
  | plusPlus
  | minusMinus
  | eof
deriving DecidableEq, Repr, Inhabited

/-- The name of a kind in messages and listings. -/
def Kind.text : Kind → String
  | .int => "Int"
  | .bool => "Bool"
  | .if_ => "If"
  | .else_ => "Else"
  | .while_ => "While"
  | .for_ => "For"
  | .break_ => "Break"
  | .continue_ => "Continue"
  | .return_ => "Return"
  | .true_ => "True"
  | .false_ => "False"
  | .ident name => "Ident(\"" ++ name ++ "\")"
  | .number value => "Number(" ++ Word.text value ++ ")"
  | .lParen => "LParen"
  | .rParen => "RParen"
  | .lBrace => "LBrace"
  | .rBrace => "RBrace"
  | .semi => "Semi"
  | .question => "Question"
  | .colon => "Colon"
  | .plus => "Plus"
  | .minus => "Minus"
  | .star => "Star"
  | .slash => "Slash"
  | .percent => "Percent"
  | .shl => "Shl"
  | .shr => "Shr"
  | .lt => "Lt"
  | .le => "Le"
  | .gt => "Gt"
  | .ge => "Ge"
  | .eqEq => "EqEq"
  | .ne => "Ne"
  | .amp => "Amp"
  | .pipe => "Pipe"
  | .caret => "Caret"
  | .ampAmp => "AmpAmp"
  | .pipePipe => "PipePipe"
  | .bang => "Bang"
  | .tilde => "Tilde"
  | .assign => "Assign"
  | .plusAssign => "PlusAssign"
  | .minusAssign => "MinusAssign"
  | .starAssign => "StarAssign"
  | .slashAssign => "SlashAssign"
  | .percentAssign => "PercentAssign"
  | .shlAssign => "ShlAssign"
  | .shrAssign => "ShrAssign"
  | .ampAssign => "AmpAssign"
  | .pipeAssign => "PipeAssign"
  | .caretAssign => "CaretAssign"
  | .plusPlus => "PlusPlus"
  | .minusMinus => "MinusMinus"
  | .eof => "Eof"

/-- The kind of a word that is reserved. -/
def keyword? : String → Option Kind
  | "int" => some .int
  | "bool" => some .bool
  | "if" => some .if_
  | "else" => some .else_
  | "while" => some .while_
  | "for" => some .for_
  | "break" => some .break_
  | "continue" => some .continue_
  | "return" => some .return_
  | "true" => some .true_
  | "false" => some .false_
  | _ => none

/-- The kind of a word: a keyword if it is reserved, otherwise a name. -/
def Kind.ofWord (word : String) : Kind := (keyword? word).getD (.ident word)

/-- Spellings of the operators and punctuation marks. A spelling stands before
its own beginnings, so the first that fits a text is the longest. -/
def operators : List (List Char × Kind) :=
  [(['<', '<', '='], .shlAssign), (['>', '>', '='], .shrAssign), (['<', '<'], .shl),
    (['>', '>'], .shr), (['<', '='], .le), (['>', '='], .ge), (['=', '='], .eqEq),
    (['!', '='], .ne), (['&', '&'], .ampAmp), (['|', '|'], .pipePipe), (['+', '='], .plusAssign),
    (['-', '='], .minusAssign), (['*', '='], .starAssign), (['/', '='], .slashAssign),
    (['%', '='], .percentAssign), (['&', '='], .ampAssign), (['|', '='], .pipeAssign),
    (['^', '='], .caretAssign), (['+', '+'], .plusPlus), (['-', '-'], .minusMinus),
    (['('], .lParen), ([')'], .rParen), (['\x7b'], .lBrace), (['\x7d'], .rBrace), ([';'], .semi),
    (['?'], .question), ([':'], .colon), (['+'], .plus), (['-'], .minus), (['*'], .star),
    (['/'], .slash), (['%'], .percent), (['<'], .lt), (['>'], .gt), (['&'], .amp), (['|'], .pipe),
    (['^'], .caret), (['!'], .bang), (['~'], .tilde), (['='], .assign)]

end Token

/-- A token: what it is and where it begins. -/
structure Token where
  kind : Token.Kind
  span : Span
deriving DecidableEq, Repr, Inhabited

/-- The place and the kind of a token. -/
def Token.text (t : Token) : String := t.span.text ++ " " ++ t.kind.text

end Chordal
