/-
# Functions in a line

The instructions of a function in one line, the blocks in the order of their
layout. Every instruction has a position in the line, and each block takes up a
stretch of positions.

Key definitions: `Linear`, `Func.linear`, `Linear.points`, `Linear.range`.
-/
import Chordal.Ssa.Layout

namespace Chordal.Ssa

/-- An instruction at its position: its block and its place in it. -/
structure Point where
  position : Nat
  block : BlockId
  index : Nat
  instr : Instr
deriving DecidableEq, Repr

/-- A function with the order of its blocks. -/
structure Linear where
  func : Func
  order : List BlockId
deriving DecidableEq, Repr

/-- The function in a line. -/
def Func.linear (f : Func) : Except Failure Linear := do
  let order ← f.layout
  return ⟨f, order⟩

namespace Linear

/-- The instructions of a block. -/
def code (l : Linear) (b : BlockId) : List Instr := ((l.func.block? b).map Block.code).getD []

/-- The blocks that may follow a block. -/
def succs (l : Linear) (b : BlockId) : List BlockId := ((l.func.block? b).map Block.succs).getD []

/-- All instructions in the order of the line. -/
def instrs (l : Linear) : List Instr := l.order.flatMap l.code

/-- The points of the given blocks, the first of them at `position`. -/
def pointsFrom (l : Linear) : (position : Nat) → List BlockId → List Point
  | _, [] => []
  | position, b :: rest =>
    (l.code b).mapIdx (fun index instr => ⟨position + index, b, index, instr⟩)
      ++ l.pointsFrom (position + (l.code b).length) rest

/-- All points in the order of the line. -/
def points (l : Linear) : List Point := l.pointsFrom 0 l.order

/-- The positions of a block: the first, and the one behind the last. A block
outside the line has none. -/
def range (l : Linear) (b : BlockId) : Nat × Nat :=
  if l.order.contains b then
    let before := ((l.order.takeWhile (· != b)).flatMap l.code).length
    (before, before + (l.code b).length)
  else (0, 0)

end Linear
end Chordal.Ssa
