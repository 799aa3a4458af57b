/-
# Flow graphs

A function as a graph of blocks. A block is a list of instructions; its last
instruction says where control goes. Instructions name values: a value has a
number and a type. In the form that is built first every value has one
definition, and where paths meet a `phi` chooses by the block that control came
from.

The variable a value was made for has no part in what the value is, and is left
out.

A block also lists its predecessors and successors. Only `addEdge` and
`splitEdge` write these lists, and both ends of an edge are written together.

Nothing in these types forces a graph to make sense: a block may lack a
terminator or bear another number than that of its place, a jump may name a block
that does not exist. What the operations do with such graphs is part of their
definition.

Key definitions: `Value`, `Instr`, `Block`, `Func`, `Func.addEdge`, `Func.splitEdge`.
-/
import Chordal.Failure
import Chordal.Operator

namespace Chordal.Ssa

/-- A value: its number and its type. -/
structure Value where
  id : Nat
  ty : Ty
deriving DecidableEq, Repr, Inhabited

/-- The number of a block: its place in the function's array of blocks. -/
abbrev BlockId := Nat

/-- Instructions. A phi has one entry for each edge into its block: a value and
the block the edge comes from. -/
inductive Instr where
  | const (target : Value) (value : Word)
  | bool (target : Value) (value : Bool)
  | move (target source : Value)
  | unary (target : Value) (op : UnaryOp) (operand : Value)
  | binary (target : Value) (op : BinaryOp) (left right : Value)
  | phi (target : Value) (entries : List (Value × BlockId))
  | jump (target : BlockId)
  | branch (condition : Value) (ifTrue ifFalse : BlockId)
  | ret (value : Value)
deriving DecidableEq, Repr

namespace Instr

/-- The value an instruction defines. -/
def target? : Instr → Option Value
  | .const target _ => some target
  | .bool target _ => some target
  | .move target _ => some target
  | .unary target _ _ => some target
  | .binary target _ _ _ => some target
  | .phi target _ => some target
  | .jump _ => none
  | .branch _ _ _ => none
  | .ret _ => none

/-- The values an instruction reads, from left to right. -/
def operands : Instr → List Value
  | .const _ _ => []
  | .bool _ _ => []
  | .move _ source => [source]
  | .unary _ _ operand => [operand]
  | .binary _ _ left right => [left, right]
  | .phi _ entries => entries.map (·.1)
  | .jump _ => []
  | .branch condition _ _ => [condition]
  | .ret value => [value]

/-- The blocks an instruction may send control to; the true edge comes first. -/
def successors : Instr → List BlockId
  | .jump target => [target]
  | .branch _ ifTrue ifFalse => [ifTrue, ifFalse]
  | _ => []

/-- Whether control leaves the block here. -/
def isTerminator : Instr → Bool
  | .jump _ => true
  | .branch _ _ _ => true
  | .ret _ => true
  | _ => false

/-- Whether the instruction is a phi. -/
def isPhi : Instr → Bool
  | .phi _ _ => true
  | _ => false

/-- The instruction with every edge to `old` going to `new` instead. -/
def retarget (old new : BlockId) : Instr → Instr
  | .jump target => .jump (if target = old then new else target)
  | .branch condition ifTrue ifFalse =>
    .branch condition (if ifTrue = old then new else ifTrue)
      (if ifFalse = old then new else ifFalse)
  | i => i

end Instr

/-- A block, with the number under which it was added. -/
structure Block where
  id : BlockId
  kind : String
  code : List Instr
  preds : List BlockId
  succs : List BlockId
deriving DecidableEq, Repr, Inhabited

namespace Block

/-- A block without code and edges. -/
def empty (id : BlockId) (kind : String) : Block := ⟨id, kind, [], [], []⟩

/-- The label of a block: its kind and its number. -/
def label (b : Block) : String := b.kind ++ "_" ++ toString b.id

/-- The last instruction, if it is a terminator. -/
def terminator? (b : Block) : Option Instr := b.code.getLast?.filter Instr.isTerminator

/-- Where the terminator sends control. -/
def targets (b : Block) : List BlockId := (b.terminator?.map Instr.successors).getD []

/-- The phis at the head of the block. -/
def phis (b : Block) : List Instr := b.code.takeWhile Instr.isPhi

/-- What follows the phis at the head of the block. -/
def body (b : Block) : List Instr := b.code.dropWhile Instr.isPhi

end Block

/-- A function as a flow graph. Numbers of values below `valueCount` are in use. -/
structure Func where
  name : String
  returns : Ty
  isEntry : Bool
  start : BlockId
  blocks : Array Block
  valueCount : Nat
deriving DecidableEq, Repr, Inhabited

namespace Func

/-- A function without blocks. -/
def empty (name : String) (returns : Ty) (isEntry : Bool) : Func :=
  ⟨name, returns, isEntry, 0, #[], 0⟩

/-- A block by its number. -/
def block? (f : Func) (b : BlockId) : Option Block := f.blocks[b]?

/-- The label of a block by its number. -/
def label (f : Func) (b : BlockId) : String := ((f.block? b).map Block.label).getD ""

/-- Changes one block; there is no change if it does not exist. -/
def modifyBlock (f : Func) (b : BlockId) (g : Block → Block) : Func :=
  { f with blocks := f.blocks.modify b g }

/-- Appends a block and gives its number. -/
def addBlock (f : Func) (kind : String) : BlockId × Func :=
  (f.blocks.size, { f with blocks := f.blocks.push (.empty f.blocks.size kind) })

/-- A value that was not in use. -/
def newValue (f : Func) (ty : Ty) : Value × Func :=
  (⟨f.valueCount, ty⟩, { f with valueCount := f.valueCount + 1 })

/-- Appends an instruction to a block. -/
def push (f : Func) (b : BlockId) (i : Instr) : Func :=
  f.modifyBlock b fun blk => { blk with code := blk.code ++ [i] }

/-- Appends `a` to a list that does not hold it yet. -/
def pushNew (l : List BlockId) (a : BlockId) : List BlockId := if l.contains a then l else l ++ [a]

/-- Records the edge from `a` to `b` at both ends, once. Without a block `a`
nothing is recorded, and without a block `b` only the end at `a`. -/
def addEdge (f : Func) (a b : BlockId) : Func :=
  if a < f.blocks.size then
    (f.modifyBlock a fun blk => { blk with succs := pushNew blk.succs b }).modifyBlock b
      fun blk => { blk with preds := pushNew blk.preds a }
  else f

/-- The list with `new` for every `old`. -/
def replaceAll (old new : BlockId) (l : List BlockId) : List BlockId :=
  l.map fun a => if a = old then new else a

/-- The code with the edges of its last instruction to `old` going to `new`. -/
def retargetLast (old new : BlockId) (code : List Instr) : List Instr :=
  match code.getLast? with
  | some i => code.dropLast ++ [i.retarget old new]
  | none => code

/-- Puts a new block on the edge from `a` to `b` and gives its number. The new
block takes the place of `a` among the predecessors of `b` and ends in a jump to
`b`. The change stops at an end that does not exist; the new block may be an end. -/
def splitEdge (f : Func) (a b : BlockId) : BlockId × Func :=
  let (s, f) := f.addBlock "split"
  if a ≤ s then
    let f := f.modifyBlock a fun blk =>
      { blk with code := retargetLast b s blk.code, succs := replaceAll b s blk.succs }
    if b ≤ s then
      let f := f.modifyBlock b fun blk => { blk with preds := replaceAll a s blk.preds }
      let f := f.modifyBlock s fun blk =>
        { blk with code := blk.code ++ [.jump b], preds := blk.preds ++ [a],
                   succs := blk.succs ++ [b] }
      (s, f)
    else (s, f)
  else (s, f)

/-- The number of instructions in all blocks. -/
def instrCount (f : Func) : Nat := (f.blocks.toList.flatMap Block.code).length

/-- Whether there is a phi anywhere. -/
def hasPhis (f : Func) : Bool := f.blocks.any fun b => b.code.any Instr.isPhi

end Func
end Chordal.Ssa
