/-
# From typed trees to flow graphs

One walk over a typed function builds its flow graph. The builder keeps the
block it writes to, if control can be there at all, and for every variable the
value that holds it. An edge to a block that is not begun yet carries the
bindings at its source. Where a block begins, the bindings of its edges are
merged: a variable held by one value on all edges keeps it, a variable held by
different values gets a phi, and a variable that some edge does not bind is
dropped.

A loop is tested before it is entered and again at its end. Its body begins
with a phi for every variable that was bound before and that the body or the
step may assign; the second entry of each is added when the end of the loop is
reached. A conditional expression gets one phi for its result.

Key definitions: `Builder`, `Builder.enter`, `Builder.lowerExpr`,
`Builder.lowerStmt`, `assigned`, `build`.
-/
import Chordal.IdMap
import Chordal.IdSet
import Chordal.Ssa.Func
import Chordal.Typed

namespace Chordal.Ssa

/-- For each variable, by the number of its symbol, the value that holds it. -/
abbrev Bindings := IdMap Value

/-- An edge to a block that is not begun yet, with the bindings at its source. -/
structure Edge where
  source : BlockId
  target : BlockId
  bindings : Bindings
deriving DecidableEq, Repr

/-- Where `continue` and `break` go in a loop. -/
structure LoopTargets where
  onContinue : BlockId
  onBreak : BlockId
deriving DecidableEq, Repr

/-- A flow graph in the making. -/
structure Builder where
  func : Func
  /-- The block that code goes to; none where control cannot be. -/
  current : Option BlockId
  bindings : Bindings
  /-- Edges to blocks that are not begun yet, in the order they were made. -/
  pending : List Edge
  /-- The loops around this place, the innermost first. -/
  loops : List LoopTargets
deriving DecidableEq, Repr

/-- Merges the bindings of `edges`, of which those given are the first's. Gives
the phis that are needed, the merged bindings and the next unused number. -/
def mergeBindings (edges : List Edge) : (fresh : Nat) → Bindings → List Instr × Bindings × Nat
  | fresh, [] => ([], [], fresh)
  | fresh, (symbol, first) :: rest =>
    match edges.mapM fun e => (e.bindings.get? symbol).map fun v => (v, e.source) with
    | none => mergeBindings edges fresh rest
    | some entries =>
      if entries.all fun e => e.1 == first then
        let (phis, merged, fresh) := mergeBindings edges fresh rest
        (phis, (symbol, first) :: merged, fresh)
      else
        let target : Value := ⟨fresh, first.ty⟩
        let (phis, merged, fresh) := mergeBindings edges (fresh + 1) rest
        (.phi target entries :: phis, (symbol, target) :: merged, fresh)

/-- Adds the entry `(value, pred)` to the phi that defines `target`. -/
def addPhiEntry (target value : Value) (pred : BlockId) : List Instr → List Instr
  | [] => []
  | .phi t entries :: rest =>
    if t = target then .phi t (entries ++ [(value, pred)]) :: rest
    else .phi t entries :: addPhiEntry target value pred rest
  | i :: rest => i :: addPhiEntry target value pred rest

mutual

/-- The symbols that a statement assigns, nested statements included. -/
def assignedBy : Typed.Stmt → IdSet
  | .declare symbol (some _) => [symbol.id]
  | .declare _ none => []
  | .assign symbol _ => [symbol.id]
  | .ifElse _ ifTrue none => assigned ifTrue
  | .ifElse _ ifTrue (some ifFalse) => IdSet.union (assigned ifTrue) (assigned ifFalse)
  | .while_ _ body none => assigned body
  | .while_ _ body (some step) => IdSet.union (assigned body) (assigned step)
  | .block body => assigned body
  | .break_ => []
  | .continue_ => []
  | .return_ _ => []
  | .expr _ => []

/-- The symbols that statements assign, nested statements included. -/
def assigned : List Typed.Stmt → IdSet
  | [] => []
  | s :: rest => IdSet.union (assignedBy s) (assigned rest)

end

namespace Builder

/-- The builder at the beginning of a function. -/
def start (f : Typed.Func) : Builder :=
  let (entry, func) := (Func.empty f.name f.returns f.isEntry).addBlock "entry"
  ⟨{ func with start := entry }, some entry, [], [], []⟩

/-- Appends an instruction where control is. -/
def emit (s : Builder) (i : Instr) : Builder :=
  match s.current with
  | some b => { s with func := s.func.push b i }
  | none => s

/-- Appends an instruction that defines a new value. -/
def define (s : Builder) (ty : Ty) (make : Value → Instr) : Value × Builder :=
  let (target, func) := s.func.newValue ty
  (target, { s with func }.emit (make target))

/-- Appends a block that is not begun yet. -/
def addBlock (s : Builder) (kind : String) : BlockId × Builder :=
  let (b, func) := s.func.addBlock kind
  (b, { s with func })

/-- Holds a variable in a value. -/
def bind (s : Builder) (symbol : Nat) (v : Value) : Builder :=
  { s with bindings := s.bindings.insert symbol v }

/-- The label of the block that code goes to. -/
def currentLabel (s : Builder) : String := (s.current.map s.func.label).getD "<unreachable>"

/-- Makes an edge that carries the bindings at this place. -/
def recordEdge (s : Builder) (a b : BlockId) : Builder :=
  { s with func := s.func.addEdge a b, pending := s.pending ++ [⟨a, b, s.bindings⟩] }

/-- Ends the block with a jump. -/
def jump (s : Builder) (target : BlockId) : Builder :=
  match s.current with
  | none => s
  | some a => { (s.emit (.jump target)).recordEdge a target with current := none }

/-- Ends the block with a branch. -/
def branch (s : Builder) (condition : Value) (ifTrue ifFalse : BlockId) : Builder :=
  match s.current with
  | none => s
  | some a =>
    { ((s.emit (.branch condition ifTrue ifFalse)).recordEdge a ifTrue).recordEdge a ifFalse with
      current := none }

/-- Begins the block `b` with the bindings that its edges bring. Control cannot
be in a block without edges. -/
def enter (s : Builder) (b : BlockId) : Builder :=
  let edges := s.pending.filter fun e => e.target == b
  let s := { s with pending := s.pending.filter fun e => e.target != b }
  match edges with
  | [] => { s with current := none, bindings := [] }
  | [e] => { s with current := some b, bindings := e.bindings }
  | e :: _ =>
    let (phis, merged, valueCount) := mergeBindings edges s.func.valueCount e.bindings
    let func := { s.func with valueCount }.modifyBlock b fun blk =>
      { blk with code := phis ++ blk.code }
    { s with func, current := some b, bindings := merged }

/-- Puts the phi of a conditional expression behind the phis at the head of `b`. -/
def insertPhi (s : Builder) (b : BlockId) (ty : Ty) (entries : List (Value × BlockId)) :
    Value × Builder :=
  let (target, func) := s.func.newValue ty
  let func := func.modifyBlock b fun blk =>
    { blk with code := blk.phis ++ .phi target entries :: blk.body }
  (target, { s with func })

/-- The entry of a conditional's phi for an arm that ends here. -/
def armEntry (s : Builder) (v : Value) : List (Value × BlockId) :=
  s.current.toList.map fun b => (v, b)

/-- Computes an expression and gives the value that holds it. -/
def lowerExpr : Typed.Expr → Builder → Except Failure (Value × Builder)
  | .int value, s => .ok (s.define .int fun target => .const target value)
  | .bool value, s => .ok (s.define .bool fun target => .bool target value)
  | .var symbol, s =>
    match s.bindings.get? symbol.id with
    | some v => .ok (v, s)
    | none => .error (.unboundVariable symbol.name s.currentLabel)
  | .unary op operand, s => do
    let (v, s) ← lowerExpr operand s
    return s.define operand.ty fun target => .unary target op v
  | .binary op left right, s => do
    let (l, s) ← lowerExpr left s
    let (r, s) ← lowerExpr right s
    return s.define (Typed.Expr.binary op left right).ty fun target => .binary target op l r
  | .ternary condition ifTrue ifFalse, s => do
    let (c, s) ← lowerExpr condition s
    let (onTrue, s) := s.addBlock "tern_true"
    let (onFalse, s) := s.addBlock "tern_false"
    let (merge, s) := s.addBlock "tern_merge"
    let s := s.branch c onTrue onFalse
    let (t, s) ← lowerExpr ifTrue (s.enter onTrue)
    let first := s.armEntry t
    let s := s.jump merge
    let (e, s) ← lowerExpr ifFalse (s.enter onFalse)
    let second := s.armEntry e
    let s := s.jump merge
    return (s.enter merge).insertPhi merge ifTrue.ty (first ++ second)

/-- Computes an expression and holds a variable in a copy of it. -/
def assign (s : Builder) (symbol : Nat) (value : Typed.Expr) : Except Failure Builder := do
  let (source, s) ← lowerExpr value s
  let (target, s) := s.define source.ty fun target => .move target source
  return s.bind symbol target

/-- The variables among `symbols` that are bound, with their values. -/
def carried (s : Builder) (symbols : IdSet) : List (Nat × Value) :=
  symbols.filterMap fun symbol => (s.bindings.get? symbol).map fun v => (symbol, v)

/-- Begins a loop's body with a phi for each carried variable, and gives the
variables with their phis. -/
def header (pre : BlockId) : List (Nat × Value) → Builder → List (Nat × Value) × Builder
  | [], s => ([], s)
  | (symbol, v) :: rest, s =>
    let (target, s) := s.define v.ty fun target => .phi target [(v, pre)]
    let (others, s) := header pre rest (s.bind symbol target)
    ((symbol, target) :: others, s)

/-- Adds the entries that the end of a loop, the block `latch`, brings to the
phis of its body. -/
def closeHeader (body latch : BlockId) : List (Nat × Value) → Builder → Except Failure Builder
  | [], s => .ok s
  | (symbol, phi) :: rest, s =>
    match s.bindings.get? symbol with
    | none => .error (.unboundVariable ("#" ++ toString symbol) s.currentLabel)
    | some v =>
      let func := s.func.modifyBlock body fun blk =>
        { blk with code := addPhiEntry phi v latch blk.code }
      closeHeader body latch rest { s with func }

/-- The blocks of a loop. The step, if there is one, has a block of its own. -/
structure LoopBlocks where
  body : BlockId
  post : Option BlockId
  cond : BlockId
  exit : BlockId
deriving DecidableEq, Repr

/-- Where `continue` goes: to the step, or else to the test. -/
def LoopBlocks.next (l : LoopBlocks) : BlockId := l.post.getD l.cond

/-- Appends the blocks of a loop. -/
def addLoopBlocks (s : Builder) (hasStep : Bool) : LoopBlocks × Builder :=
  let (body, s) := s.addBlock "body"
  let (post, s) :=
    if hasStep then
      let (b, s) := s.addBlock "post"
      (some b, s)
    else (none, s)
  let (cond, s) := s.addBlock "cond"
  let (exit, s) := s.addBlock "exit"
  (⟨body, post, cond, exit⟩, s)

/-- Leaves the block `a` for a loop's body or its exit. The edge to the body
carries no bindings: the body's phis stand for them. -/
def branchLoop (s : Builder) (l : LoopBlocks) (a : BlockId) (condition : Value) : Builder :=
  let s := s.emit (.branch condition l.body l.exit)
  ({ s with func := s.func.addEdge a l.body }).recordEdge a l.exit

/-- Tests the condition in the block `pre`, enters the body of a loop, and gives
the carried variables with their phis. -/
def openLoop (s : Builder) (l : LoopBlocks) (pre : BlockId) (guard : Value) (symbols : IdSet) :
    List (Nat × Value) × Builder :=
  let carried := s.carried symbols
  let s := s.branchLoop l pre guard
  let (phis, s) := header pre carried { s with current := some l.body }
  (phis, { s with loops := ⟨l.next, l.exit⟩ :: s.loops })

/-- Tests the condition at the end of a loop, if control gets there, and goes on
behind it. -/
def closeLoop (s : Builder) (l : LoopBlocks) (phis : List (Nat × Value)) (condition : Typed.Expr) :
    Except Failure Builder := do
  let s := s.enter l.cond
  match s.current with
  | none => return s.enter l.exit
  | some _ =>
    let (c, s) ← lowerExpr condition s
    match s.current with
    | none => return s
    | some latch =>
      let s ← closeHeader l.body latch phis s
      let s := s.branchLoop l latch c
      return { s with current := none }.enter l.exit

mutual

/-- Builds the code of a statement. -/
def lowerStmt : Typed.Stmt → Builder → Except Failure Builder
  | .declare _ none, s => .ok s
  | .declare symbol (some init), s => s.assign symbol.id init
  | .assign symbol value, s => s.assign symbol.id value
  | .ifElse condition ifTrue none, s => do
    let (c, s) ← lowerExpr condition s
    let (onTrue, s) := s.addBlock "then"
    let (merge, s) := s.addBlock "merge"
    let s := s.branch c onTrue merge
    let s ← lowerStmts ifTrue (s.enter onTrue)
    return (s.jump merge).enter merge
  | .ifElse condition ifTrue (some ifFalse), s => do
    let (c, s) ← lowerExpr condition s
    let (onTrue, s) := s.addBlock "then"
    let (onFalse, s) := s.addBlock "else"
    let (merge, s) := s.addBlock "merge"
    let s := s.branch c onTrue onFalse
    let s ← lowerStmts ifTrue (s.enter onTrue)
    let s ← lowerStmts ifFalse ((s.jump merge).enter onFalse)
    return (s.jump merge).enter merge
  | .while_ condition body none, s => do
    let (guard, s) ← lowerExpr condition s
    match s.current with
    | none => return s
    | some pre =>
      let (l, s) := s.addLoopBlocks false
      let (phis, s) := s.openLoop l pre guard (assigned body)
      let s ← lowerStmts body s
      ({ s with loops := s.loops.tail }.jump l.next).closeLoop l phis condition
  | .while_ condition body (some step), s => do
    let (guard, s) ← lowerExpr condition s
    match s.current with
    | none => return s
    | some pre =>
      let (l, s) := s.addLoopBlocks true
      let (phis, s) := s.openLoop l pre guard (IdSet.union (assigned body) (assigned step))
      let s ← lowerStmts body s
      let s ← lowerStmts step (({ s with loops := s.loops.tail }.jump l.next).enter l.next)
      (s.jump l.cond).closeLoop l phis condition
  | .break_, s =>
    match s.loops with
    | [] => .error .breakOutsideLoop
    | l :: _ => .ok (s.jump l.onBreak)
  | .continue_, s =>
    match s.loops with
    | [] => .error .continueOutsideLoop
    | l :: _ => .ok (s.jump l.onContinue)
  | .return_ value, s => do
    let (v, s) ← lowerExpr value s
    return { s.emit (.ret v) with current := none }
  | .block body, s => lowerStmts body s
  | .expr value, s => do
    let (_, s) ← lowerExpr value s
    return s

/-- Builds the code of statements, up to the first that control cannot reach. -/
def lowerStmts : List Typed.Stmt → Builder → Except Failure Builder
  | [], s => .ok s
  | stmt :: rest, s =>
    match s.current with
    | none => .ok s
    | some _ => do
      let s ← lowerStmt stmt s
      lowerStmts rest s

end

end Builder

/-- The flow graph of a typed function. Control must not reach the end of its
body. -/
def build (f : Typed.Func) : Except Failure Func := do
  let s ← Builder.lowerStmts f.body (Builder.start f)
  match s.current with
  | some _ => .error (.missingReturn f.name)
  | none => return s.func

/-- The flow graphs of a program. -/
def buildAll (program : Typed.Program) : Except Failure (List Func) := program.functions.mapM build

end Chordal.Ssa
