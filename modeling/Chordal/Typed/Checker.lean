/-
# From syntax trees to typed trees

The checker resolves names, checks types, follows which variables are assigned,
and turns a syntax tree into a typed tree. It makes one pass. A loop needs no
iteration: what is assigned before a loop stays assigned in it, and what its
body assigns is unknown behind it.

A name may not be declared again while it is visible, so the visible symbols
are one list, and a scope ends by restoring the list it began with.

Key definitions: `Context`, `checkExpr`, `checkStmt`, `checkFunc`, `check`.
-/
import Chordal.Diagnostic
import Chordal.Syntax
import Chordal.Typed
import Chordal.Typed.Flow

namespace Chordal.Typed

/-- What the checker knows in the middle of a function. -/
structure Context where
  /-- Declared symbols, the latest first. -/
  visible : List Symbol
  /-- The number of the next symbol. -/
  nextSymbol : Nat
  /-- Flow states at the `continue` statements of the innermost loop, in order;
  nothing outside of loops. -/
  continues : Option (List Flow)
  /-- What is known at this point. -/
  flow : Flow
deriving DecidableEq, Repr

namespace Context

/-- Where a function begins. -/
def start : Context := ⟨[], 0, none, .start⟩

/-- The visible symbol of a name. -/
def lookup (ctx : Context) (p : Span) (name : String) : Except Diagnostic Symbol :=
  match ctx.visible.find? fun s => s.name == name with
  | some s => .ok s
  | none => .error (.semantic p (.undeclared name))

/-- A new symbol for a name that is not visible yet. -/
def declare (ctx : Context) (p : Span) (name : String) (ty : Ty) :
    Except Diagnostic (Symbol × Context) :=
  if ctx.visible.any fun s => s.name == name then .error (.semantic p (.redeclared name))
  else
    let s : Symbol := ⟨ctx.nextSymbol, name, ty⟩
    .ok (s, { ctx with visible := s :: ctx.visible, nextSymbol := ctx.nextSymbol + 1 })

/-- The symbol is assigned here. -/
def assign (ctx : Context) (s : Symbol) : Context := { ctx with flow := ctx.flow.assign s.id }

/-- Control does not go on from here. -/
def leave (ctx : Context) : Context := { ctx with flow := .dead }

end Context

/-- A symbol that is read has to be assigned. -/
def readable (ctx : Context) (p : Span) (s : Symbol) : Except Diagnostic Unit :=
  if ctx.flow.isAssigned s.id then .ok () else .error (.semantic p (.unassigned s.name))

/-- An expression that has to be of type `wanted`. -/
def expectTy (p : Span) (wanted : Ty) (e : Expr) : Except Diagnostic Expr :=
  if e.ty = wanted then .ok e else .error (.semantic p (.typeMismatch wanted e.ty))

/-- Whether an operator takes operands of these types. -/
def operandsFit (op : BinaryOp) (left right : Ty) : Bool :=
  if op.isEquality then left == right else left == .int && right == .int

/-- Resolves and checks an expression. -/
def checkExpr (ctx : Context) : Syntax.Expr → Except Diagnostic Expr
  | .int _ value => .ok (.int value)
  | .bool _ value => .ok (.bool value)
  | .var p name => do
    let s ← ctx.lookup p name
    readable ctx p s
    return .var s
  | .unary _ op operand => do
    let e ← expectTy operand.span op.operandTy (← checkExpr ctx operand)
    return .unary op e
  | .binary p op left right => do
    let l ← checkExpr ctx left
    let r ← checkExpr ctx right
    if operandsFit op l.ty r.ty then return .binary op l r
    else .error (.semantic p (.operatorOperands op l.ty r.ty))
  | .ternary _ condition ifTrue ifFalse => do
    let c ← expectTy condition.span .bool (← checkExpr ctx condition)
    let t ← checkExpr ctx ifTrue
    let e ← expectTy ifFalse.span t.ty (← checkExpr ctx ifFalse)
    return .ternary c t e

/-- Resolves an expression that has to be of type `wanted`. -/
def checkTyped (ctx : Context) (wanted : Ty) (e : Syntax.Expr) : Except Diagnostic Expr := do
  expectTy e.span wanted (← checkExpr ctx e)

/-- The value a compound assignment stores: the variable and the right-hand side
under the operator, all of them integers. -/
def compound (ctx : Context) (p : Span) (s : Symbol) (op : BinaryOp) (rhs : Expr) :
    Except Diagnostic Expr :=
  if s.ty = .int ∧ rhs.ty = .int then do
    readable ctx p s
    return .binary op (.var s) rhs
  else .error (.semantic p (.compoundOperands s.name))

/-- The operator a count applies to its variable and one. -/
def countOp : Syntax.Count → BinaryOp
  | .up => .add
  | .down => .sub

/-- Checks a simple statement. The initial value of a declaration is checked
before its name is visible. -/
def checkSimple (ctx : Context) : Syntax.Simple → Except Diagnostic (Stmt × Context)
  | .declare p ty name none => do
    let (s, ctx) ← ctx.declare p name ty
    return (.declare s none, ctx)
  | .declare p ty name (some init) => do
    let e ← checkTyped ctx ty init
    let (s, ctx) ← ctx.declare p name ty
    return (.declare s (some e), ctx.assign s)
  | .assign p name none value => do
    let s ← ctx.lookup p name
    let e ← checkTyped ctx s.ty value
    return (.assign s e, ctx.assign s)
  | .assign p name (some op) value => do
    let s ← ctx.lookup p name
    let rhs ← checkExpr ctx value
    let e ← compound ctx p s op rhs
    return (.assign s e, ctx.assign s)
  | .count p name direction => do
    let s ← ctx.lookup p name
    let e ← compound ctx p s (countOp direction) (.int 1)
    return (.assign s e, ctx.assign s)
  | .expr _ value => do
    let e ← checkExpr ctx value
    return (.expr e, ctx)

/-- The statements of a nested statement: a block gives its own, any other
statement stands alone. -/
def bodyOf : Syntax.Stmt → Stmt → List Stmt
  | .block .., .block body => body
  | _, s => [s]

/-- The flow that reaches the end of a loop's body: its fall-through joined with
every `continue`. -/
def Context.endOfBody (ctx : Context) : Flow := (ctx.continues.getD []).foldl Flow.join ctx.flow

mutual

/-- Checks a statement of a function that returns `returns`. -/
def checkStmt (returns : Ty) : Syntax.Stmt → Context → Except Diagnostic (Stmt × Context)
  | .simple s, ctx => checkSimple ctx s
  | .block _ body, ctx => do
    let (stmts, inner) ← checkStmts returns body ctx
    return (.block stmts, { inner with visible := ctx.visible })
  | .ifElse _ condition ifTrue none, ctx => do
    let c ← checkTyped ctx .bool condition
    let (t, inner) ← checkStmt returns ifTrue ctx
    return (.ifElse c (bodyOf ifTrue t) none,
      { inner with visible := ctx.visible, flow := inner.flow.join ctx.flow })
  | .ifElse _ condition ifTrue (some ifFalse), ctx => do
    let c ← checkTyped ctx .bool condition
    let (t, inner) ← checkStmt returns ifTrue ctx
    let (e, outer) ← checkStmt returns ifFalse
      { inner with visible := ctx.visible, flow := ctx.flow }
    return (.ifElse c (bodyOf ifTrue t) (some (bodyOf ifFalse e)),
      { outer with visible := ctx.visible, flow := inner.flow.join outer.flow })
  | .while_ _ condition body, ctx => do
    let c ← checkTyped ctx .bool condition
    let (b, inner) ← checkStmt returns body { ctx with continues := some [] }
    return (.while_ c (bodyOf body b) none, { ctx with nextSymbol := inner.nextSymbol })
  | .for_ _ init condition step body, ctx => do
    let (i, head) ← match init with
      | none => pure ([], ctx)
      | some s => do
        let (t, head) ← checkSimple ctx s
        pure ([t], head)
    let c ← checkTyped head .bool condition
    let (b, inner) ← checkStmt returns body { head with continues := some [] }
    let tail := { head with nextSymbol := inner.nextSymbol, flow := inner.endOfBody }
    let (st, tail) ← match step with
      | none => pure (none, tail)
      | some s => do
        let (t, tail) ← checkSimple tail s
        pure (some [t], tail)
    return (.block (i ++ [.while_ c (bodyOf body b) st]),
      { head with visible := ctx.visible, nextSymbol := tail.nextSymbol })
  | .break_ p, ctx =>
    match ctx.continues with
    | none => .error (.semantic p .breakOutsideLoop)
    | some _ => .ok (.break_, ctx.leave)
  | .continue_ p, ctx =>
    match ctx.continues with
    | none => .error (.semantic p .continueOutsideLoop)
    | some flows => .ok (.continue_, { ctx.leave with continues := some (flows ++ [ctx.flow]) })
  | .return_ _ value, ctx => do
    let e ← checkTyped ctx returns value
    return (.return_ e, ctx.leave)

/-- Checks statements one after another. -/
def checkStmts (returns : Ty) : List Syntax.Stmt → Context → Except Diagnostic (List Stmt × Context)
  | [], ctx => .ok ([], ctx)
  | s :: rest, ctx => do
    let (t, ctx) ← checkStmt returns s ctx
    let (ts, ctx) ← checkStmts returns rest ctx
    return (t :: ts, ctx)

end

/-- The name of the function a program starts with. -/
def entryName : String := "main"

/-- Checks a function: control must not reach the end of its body. -/
def checkFunc (f : Syntax.Func) : Except Diagnostic Func := do
  let (body, ctx) ← checkStmts f.returns f.body .start
  if ctx.flow.live then .error (.semantic f.span (.mayNotReturn f.name))
  else return ⟨f.name, f.returns, body, f.name == entryName⟩

/-- Functions have different names: reports the first whose name is in `seen` or
was used before. -/
def checkNames : (seen : List String) → List Syntax.Func → Except Diagnostic Unit
  | _, [] => .ok ()
  | seen, f :: rest =>
    if seen.contains f.name then .error (.semantic f.span (.duplicateFunction f.name))
    else checkNames (f.name :: seen) rest

/-- There is an entry function, and it gives an integer. -/
def checkEntry (functions : List Syntax.Func) : Except Diagnostic Unit :=
  match functions.find? fun f => f.name == entryName with
  | none => .error (.semantic Span.start .noMain)
  | some f => if f.returns = .int then .ok () else .error (.semantic f.span .mainNotInt)

/-- The typed tree of a program that is in order. -/
def check (program : Syntax.Program) : Except Diagnostic Program := do
  checkNames [] program.functions
  checkEntry program.functions
  let functions ← program.functions.mapM checkFunc
  return ⟨functions⟩

end Chordal.Typed
