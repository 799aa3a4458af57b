/-
# Reading tokens

A source text is gaps and lexemes in turn. A gap is a run of blank characters,
line comments and block comments; a lexeme is the longest word, number or
operator at its place. Reading stops at the first text that is neither.

Key definitions: `skipGap`, `readLexeme`, `tokenize`.
-/
import Chordal.Diagnostic
import Chordal.Source.Blank

namespace Chordal.Token

/-- What reading a gap is in the middle of. A block comment remembers where it
was opened. -/
inductive Gap where
  | between
  | lineComment
  | blockComment (opened : Span)
deriving DecidableEq, Repr

/-- The place after a gap and the text that follows it. A line comment may end
with the text, a block comment may not. -/
def skipGap : Gap → Span → List Char → Except Diagnostic (Span × List Char)
  | .between, p, '/' :: '/' :: cs => skipGap .lineComment (p.advance ['/', '/']) cs
  | .between, p, '/' :: '*' :: cs => skipGap (.blockComment p) (p.advance ['/', '*']) cs
  | .between, p, c :: cs =>
    if Source.isBlank c then skipGap .between (p.next c) cs else .ok (p, c :: cs)
  | .lineComment, p, c :: cs =>
    if c = '\n' then skipGap .between (p.next c) cs else skipGap .lineComment (p.next c) cs
  | .blockComment _, p, '*' :: '/' :: cs => skipGap .between (p.advance ['*', '/']) cs
  | .blockComment opened, p, c :: cs => skipGap (.blockComment opened) (p.next c) cs
  | .between, p, [] => .ok (p, [])
  | .lineComment, p, [] => .ok (p, [])
  | .blockComment opened, _, [] => .error (.lexical opened .unterminatedComment)

/-- The characters a word or a number may go on with: ASCII letters, ASCII
digits and the underscore. -/
def isWordChar (c : Char) : Bool := c.isAlphanum || c == '_'

/-- The characters a word begins with. -/
def isWordStart (c : Char) : Bool := c.isAlpha || c == '_'

/-- The value of a digit in bases up to sixteen, if the character is one. -/
def digitValue? (c : Char) : Option Nat :=
  if '0' ≤ c && c ≤ '9' then some (c.toNat - '0'.toNat)
  else if 'a' ≤ c && c ≤ 'f' then some (c.toNat - 'a'.toNat + 10)
  else if 'A' ≤ c && c ≤ 'F' then some (c.toNat - 'A'.toNat + 10)
  else none

/-- The characters a hexadecimal literal is written with. -/
def isHexDigit (c : Char) : Bool := (digitValue? c).isSome

/-- The number that the digits `ds` write in base `base`. -/
def digitsValue (base : Nat) (ds : List Char) : Nat :=
  ds.foldl (fun n d => n * base + (digitValue? d).getD 0) 0

/-- A number must not run into a word: the first character after it is no word
character. -/
def endOfNumber (p : Span) : List Char → Except Diagnostic Unit
  | c :: _ => if isWordChar c then .error (.lexical p (.trailingCharacter c)) else .ok ()
  | [] => .ok ()

/-- The word of the hexadecimal digits `ds`, which have to be there and fit 32 bits. -/
def hexNumber (p : Span) (ds : List Char) : Except Diagnostic Kind :=
  if ds.isEmpty then .error (.lexical p .hexWithoutDigits)
  else if digitsValue 16 ds < 0x100000000 then .ok (.number (BitVec.ofNat 32 (digitsValue 16 ds)))
  else .error (.lexical p (.hexOutOfRange (String.ofList ds)))

/-- The word of the decimal digits `ds`, written without a superfluous zero. The
largest is `2 ^ 31`, so that the least word can be written with a sign before it. -/
def decimalNumber (p : Span) (ds : List Char) : Except Diagnostic Kind :=
  if 1 < ds.length && ds.head? == some '0' then
    .error (.lexical p (.leadingZero (String.ofList ds)))
  else if digitsValue 10 ds ≤ 0x80000000 then .ok (.number (BitVec.ofNat 32 (digitsValue 10 ds)))
  else .error (.lexical p (.decimalOutOfRange (String.ofList ds)))

/-- Whether a text begins with the mark of a hexadecimal literal. -/
def startsHex : List Char → Bool
  | '0' :: x :: _ => x == 'x' || x == 'X'
  | _ => false

/-- The lexeme at the beginning of a text, as its characters and what it is: a
word, a number or the longest operator. The text is not empty and begins at `p`. -/
def readLexeme (p : Span) (c : Char) (cs : List Char) : Except Diagnostic (List Char × Kind) :=
  let text := c :: cs
  if isWordStart c then
    let word := text.takeWhile isWordChar
    .ok (word, .ofWord (String.ofList word))
  else if c.isDigit then
    if startsHex text then do
      let digits := (text.drop 2).takeWhile isHexDigit
      endOfNumber p ((text.drop 2).dropWhile isHexDigit)
      return (text.take 2 ++ digits, ← hexNumber p digits)
    else do
      let digits := text.takeWhile Char.isDigit
      endOfNumber p (text.dropWhile Char.isDigit)
      return (digits, ← decimalNumber p digits)
  else
    match operators.find? fun o => o.1.isPrefixOf text with
    | some o => .ok o
    | none => .error (.lexical p (.unexpectedCharacter c))

/-- The tokens of a text that begins at `p`, with `rounds` to read them in. A
round reads a gap and a lexeme, so a round for each character and one for the
end are enough. -/
def tokensFrom : (rounds : Nat) → Span → List Char → Except Diagnostic (List Token)
  | 0, _, _ => .ok []
  | rounds + 1, p, cs => do
    match ← skipGap .between p cs with
    | (p, []) => return [⟨.eof, p⟩]
    | (p, c :: cs) =>
      let (lexeme, kind) ← readLexeme p c cs
      let rest ← tokensFrom rounds (p.advance lexeme) ((c :: cs).drop lexeme.length)
      return ⟨kind, p⟩ :: rest

/-- The tokens of a source text, the last of which marks its end. -/
def tokenize (source : String) : Except Diagnostic (List Token) :=
  tokensFrom (source.toList.length + 1) Span.start source.toList

end Chordal.Token
