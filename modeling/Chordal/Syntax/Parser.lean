/-
# Reading syntax trees

A recursive-descent reader with one token of lookahead, two where a statement
begins with a name. Binary operators are read by climbing ten levels of
precedence.

Behind the last token the reader sees that token again and again. For a list
that ends in the end mark this changes nothing. For other lists it may meet a
token that opens a level inside itself (a brace, a parenthesis, a unary
operator), and reading would never end; a bound on the depth turns that case
into the cause `endlessNesting`. The bound is so wide that no other list
reaches it: a token read opens at most four levels of calls.

Key definitions: `Cursor`, `Cursor.expr`, `Cursor.stmt`, `parse`.
-/
import Chordal.Diagnostic
import Chordal.Syntax

namespace Chordal.Syntax

/-- The tokens not read yet, and the token that is seen behind all of them. -/
structure Cursor where
  rest : List Token
  last : Token
deriving DecidableEq, Repr

/-- What a binary operator token stands for. -/
inductive Infix where
  | logicalOr
  | logicalAnd
  | plain (op : BinaryOp)
deriving DecidableEq, Repr

/-- A binary operator and its precedence; a higher one binds tighter. -/
def infix? : Token.Kind → Option (Infix × Nat)
  | .pipePipe => some (.logicalOr, 1)
  | .ampAmp => some (.logicalAnd, 2)
  | .pipe => some (.plain .or, 3)
  | .caret => some (.plain .xor, 4)
  | .amp => some (.plain .and, 5)
  | .eqEq => some (.plain .eq, 6)
  | .ne => some (.plain .ne, 6)
  | .lt => some (.plain .lt, 7)
  | .le => some (.plain .le, 7)
  | .gt => some (.plain .gt, 7)
  | .ge => some (.plain .ge, 7)
  | .shl => some (.plain .shl, 8)
  | .shr => some (.plain .shr, 8)
  | .plus => some (.plain .add, 9)
  | .minus => some (.plain .sub, 9)
  | .star => some (.plain .mul, 10)
  | .slash => some (.plain .div, 10)
  | .percent => some (.plain .mod, 10)
  | _ => none

/-- The unary operator a token stands for before an operand. -/
def unary? : Token.Kind → Option UnaryOp
  | .minus => some .neg
  | .tilde => some .bitNot
  | .bang => some .logicalNot
  | _ => none

/-- The expression a single token stands for: a literal or a variable. -/
def atom? (p : Span) : Token.Kind → Option Expr
  | .number value => some (.int p value)
  | .true_ => some (.bool p true)
  | .false_ => some (.bool p false)
  | .ident name => some (.var p name)
  | _ => none

/-- What an assignment token does: it stores the right-hand side, or applies an
operator to the variable and the right-hand side first. -/
def assignment? : Token.Kind → Option (Option BinaryOp)
  | .assign => some none
  | .plusAssign => some (some .add)
  | .minusAssign => some (some .sub)
  | .starAssign => some (some .mul)
  | .slashAssign => some (some .div)
  | .percentAssign => some (some .mod)
  | .shlAssign => some (some .shl)
  | .shrAssign => some (some .shr)
  | .ampAssign => some (some .and)
  | .pipeAssign => some (some .or)
  | .caretAssign => some (some .xor)
  | _ => none

/-- The counting token behind a variable. -/
def count? : Token.Kind → Option Count
  | .plusPlus => some .up
  | .minusMinus => some .down
  | _ => none

/-- The type a token names. -/
def type? : Token.Kind → Option Ty
  | .int => some .int
  | .bool => some .bool
  | _ => none

/-- The expression an operator makes of its operands. -/
def Infix.apply (op : Infix) (p : Span) (left right : Expr) : Expr :=
  match op with
  | .logicalAnd => .ternary p left right (.bool p false)
  | .logicalOr => .ternary p left (.bool p true) right
  | .plain op => .binary p op left right

namespace Cursor

/-- The cursor before the first of `tokens`. -/
def ofTokens (tokens : List Token) : Cursor :=
  ⟨tokens, tokens.getLast?.getD ⟨.eof, ⟨0, 0⟩⟩⟩

/-- The next token. -/
def current (c : Cursor) : Token := c.rest.headD c.last

/-- The kind of the next token. -/
def peek (c : Cursor) : Token.Kind := c.current.kind

/-- The kind of the token behind the next. -/
def peekSecond (c : Cursor) : Token.Kind := (c.rest.tail.headD c.last).kind

/-- The place of the next token. -/
def span (c : Cursor) : Span := c.current.span

/-- The cursor behind the next token. -/
def advance (c : Cursor) : Cursor := { c with rest := c.rest.tail }

/-- Stops at the next token. -/
def fail {α : Type} (c : Cursor) (cause : ParseCause) : Except Diagnostic α :=
  .error (.parse c.span cause)

/-- The cursor behind a token that has to be of kind `kind`. -/
def expect (c : Cursor) (kind : Token.Kind) : Except Diagnostic Cursor :=
  if c.peek = kind then .ok c.advance else c.fail (.expectedToken kind c.peek)

/-- A name that has to come next. -/
def expectName (c : Cursor) : Except Diagnostic (String × Cursor) :=
  match c.peek with
  | .ident name => .ok (name, c.advance)
  | found => c.fail (.expectedName found)

mutual

/-- An expression: a conditional, or a chain of binary operators. -/
def expr : (depth : Nat) → Cursor → Except Diagnostic (Expr × Cursor)
  | 0, c => c.fail .endlessNesting
  | depth + 1, c => do
    let p := c.span
    let (condition, c) ← c.binary depth 1
    if c.peek = .question then
      let (ifTrue, c) ← c.advance.expr depth
      let c ← c.expect .colon
      let (ifFalse, c) ← c.expr depth
      return (.ternary p condition ifTrue ifFalse, c)
    else
      return (condition, c)

/-- A chain of binary operators of precedence `least` or higher. -/
def binary : (depth : Nat) → (least : Nat) → Cursor → Except Diagnostic (Expr × Cursor)
  | 0, _, c => c.fail .endlessNesting
  | depth + 1, least, c => do
    let (left, c) ← c.unary depth
    c.binaryTail depth least left

/-- The rest of a chain whose left part is `left`. The operators of one
precedence group to the left. -/
def binaryTail :
    (depth : Nat) → (least : Nat) → (left : Expr) → Cursor → Except Diagnostic (Expr × Cursor)
  | 0, _, _, c => c.fail .endlessNesting
  | depth + 1, least, left, c =>
    match infix? c.peek with
    | none => .ok (left, c)
    | some (op, precedence) =>
      if precedence < least then .ok (left, c)
      else do
        let p := c.span
        let (right, c) ← c.advance.binary depth (precedence + 1)
        c.binaryTail depth least (op.apply p left right)

/-- An operand with its unary operators. -/
def unary : (depth : Nat) → Cursor → Except Diagnostic (Expr × Cursor)
  | 0, c => c.fail .endlessNesting
  | depth + 1, c =>
    match unary? c.peek with
    | some op => do
      let (operand, next) ← c.advance.unary depth
      return (.unary c.span op operand, next)
    | none => c.primary depth

/-- A literal, a variable or an expression in parentheses. -/
def primary : (depth : Nat) → Cursor → Except Diagnostic (Expr × Cursor)
  | 0, c => c.fail .endlessNesting
  | depth + 1, c =>
    match atom? c.span c.peek with
    | some e => .ok (e, c.advance)
    | none =>
      if c.peek = .lParen then do
        let (inner, c) ← c.advance.expr depth
        let c ← c.expect .rParen
        return (inner, c)
      else c.fail (.expectedExpression c.peek)

end

/-- An expression in parentheses, as conditions are written. -/
def condition (depth : Nat) (c : Cursor) : Except Diagnostic (Expr × Cursor) := do
  let c ← c.expect .lParen
  let (value, c) ← c.expr depth
  let c ← c.expect .rParen
  return (value, c)

/-- A declaration, behind its type. -/
def declaration (depth : Nat) (p : Span) (ty : Ty) (c : Cursor) :
    Except Diagnostic (Simple × Cursor) := do
  let (name, c) ← c.expectName
  if c.peek = .assign then
    let (value, c) ← c.advance.expr depth
    return (.declare p ty name (some value), c)
  else
    return (.declare p ty name none, c)

/-- An expression as a statement. -/
def exprStmt (depth : Nat) (c : Cursor) : Except Diagnostic (Simple × Cursor) := do
  let (value, next) ← c.expr depth
  return (.expr c.span value, next)

/-- A declaration, an assignment, a count or an expression. -/
def simple (depth : Nat) (c : Cursor) : Except Diagnostic (Simple × Cursor) :=
  match type? c.peek with
  | some ty => c.advance.declaration depth c.span ty
  | none =>
    match c.peek with
    | .ident name =>
      match assignment? c.peekSecond with
      | some op => do
        let (value, next) ← c.advance.advance.expr depth
        return (.assign c.span name op value, next)
      | none =>
        match count? c.peekSecond with
        | some direction => .ok (.count c.span name direction, c.advance.advance)
        | none => c.exprStmt depth
    | _ => c.exprStmt depth

/-- A simple statement, unless `stop` comes next. -/
def simpleBefore (depth : Nat) (stop : Token.Kind) (c : Cursor) :
    Except Diagnostic (Option Simple × Cursor) :=
  if c.peek = stop then .ok (none, c)
  else do
    let (s, c) ← c.simple depth
    return (some s, c)

/-- The step of a `for` loop, which may not declare anything. -/
def forStep (depth : Nat) (c : Cursor) : Except Diagnostic (Option Simple × Cursor) := do
  match ← c.simpleBefore depth .rParen with
  | (some s, c) =>
    if s.isDeclaration then .error (.parse s.span .declarationAsStep) else return (some s, c)
  | (none, c) => return (none, c)

mutual

/-- The statements of a block, braces included. -/
def block : (depth : Nat) → Cursor → Except Diagnostic (List Stmt × Cursor)
  | 0, c => c.fail .endlessNesting
  | depth + 1, c => do
    let c ← c.expect .lBrace
    c.stmts depth

/-- The statements up to the brace that closes their block. -/
def stmts : (depth : Nat) → Cursor → Except Diagnostic (List Stmt × Cursor)
  | 0, c => c.fail .endlessNesting
  | depth + 1, c =>
    if c.peek = .rBrace then .ok ([], c.advance)
    else if c.peek = .eof then c.fail .endInsideBlock
    else do
      let (first, c) ← c.stmt depth
      let (others, c) ← c.stmts depth
      return (first :: others, c)

/-- A statement. An `else` belongs to the nearest `if` that has none. -/
def stmt : (depth : Nat) → Cursor → Except Diagnostic (Stmt × Cursor)
  | 0, c => c.fail .endlessNesting
  | depth + 1, c =>
    let p := c.span
    match c.peek with
    | .lBrace => do
      let (body, c) ← c.block depth
      return (.block p body, c)
    | .if_ => do
      let (condition, c) ← c.advance.condition depth
      let (ifTrue, c) ← c.stmt depth
      if c.peek = .else_ then
        let (ifFalse, c) ← c.advance.stmt depth
        return (.ifElse p condition ifTrue (some ifFalse), c)
      else
        return (.ifElse p condition ifTrue none, c)
    | .while_ => do
      let (condition, c) ← c.advance.condition depth
      let (body, c) ← c.stmt depth
      return (.while_ p condition body, c)
    | .for_ => do
      let c ← c.advance.expect .lParen
      let (init, c) ← c.simpleBefore depth .semi
      let c ← c.expect .semi
      let (condition, c) ← c.expr depth
      let c ← c.expect .semi
      let (step, c) ← c.forStep depth
      let c ← c.expect .rParen
      let (body, c) ← c.stmt depth
      return (.for_ p init condition step body, c)
    | .break_ => do
      let c ← c.advance.expect .semi
      return (.break_ p, c)
    | .continue_ => do
      let c ← c.advance.expect .semi
      return (.continue_ p, c)
    | .return_ => do
      let (value, c) ← c.advance.expr depth
      let c ← c.expect .semi
      return (.return_ p value, c)
    | _ => do
      let (s, c) ← c.simple depth
      let c ← c.expect .semi
      return (.simple s, c)

end

/-- A function. -/
def func (depth : Nat) (c : Cursor) : Except Diagnostic (Func × Cursor) :=
  match type? c.peek with
  | none => c.fail (.expectedReturnType c.peek)
  | some returns => do
    let p := c.span
    let (name, c) ← c.advance.expectName
    let c ← c.expect .lParen
    let c ← c.expect .rParen
    let (body, c) ← c.block depth
    return (⟨p, returns, name, body⟩, c)

/-- The functions up to the end mark. -/
def funcs : (depth : Nat) → Cursor → Except Diagnostic (List Func × Cursor)
  | 0, c => c.fail .endlessNesting
  | depth + 1, c =>
    if c.peek = .eof then .ok ([], c)
    else do
      let (first, c) ← c.func depth
      let (others, c) ← c.funcs depth
      return (first :: others, c)

end Cursor

/-- The depth of calls that is allowed for a list of tokens. -/
def depthFor (tokens : List Token) : Nat := 8 * (tokens.length + 2)

/-- The program that a list of tokens spells. -/
def parse (tokens : List Token) : Except Diagnostic Program := do
  let (functions, _) ← (Cursor.ofTokens tokens).funcs (depthFor tokens)
  return ⟨functions⟩

end Chordal.Syntax
