/-
# Taking phis out

Every phi becomes copies on the edges into its block. The copies of an edge go
to the end of its source, if the edge is the only one that leaves it; otherwise
a new block is put on the edge to hold them.

Blocks are treated in their order, by the numbers they bear. When an entry is missing the
work stops, and the failure carries the function as it stands then.

Key definitions: `Func.edgeCopies`, `Func.copyOnEdge`, `Func.removePhis`.
-/
import Chordal.Ssa.Copies

namespace Chordal.Ssa

/-- The work stopped: why, and what the function has become by then. -/
structure Stuck where
  cause : Failure
  func : Func
deriving DecidableEq, Repr

namespace Func

/-- The copies that the edge from `p` to `b` needs for `phis`. A copy of a value
to itself is left out. -/
def edgeCopies (f : Func) (b p : BlockId) : List Instr → Except Failure (List Copy)
  | .phi target entries :: rest =>
    match entries.find? fun e => e.2 == p with
    | none => .error (.missingPhiEntry target.id (f.label b) (f.label p))
    | some e => do
      let others ← f.edgeCopies b p rest
      return if e.1.id = target.id then others else ⟨target, e.1⟩ :: others
  | _ => .ok []

/-- The code with `copies` before its last instruction. -/
def beforeLast (copies : List Copy) (code : List Instr) : List Instr :=
  let moves := copies.map fun c => Instr.move c.target c.source
  code.dropLast ++ moves ++ code.getLast?.toList

/-- Makes `copies`, at least one, on the edge from `p` to `b`. -/
def copyOnEdge (f : Func) (b p : BlockId) (copies : List Copy) : Func :=
  let critical := ((f.block? p).map fun blk => decide (1 < blk.succs.length)).getD false
  let (into, f) := if critical then f.splitEdge p b else (p, f)
  let (ordered, valueCount) := Copies.sequenceFresh f.valueCount copies
  { f with valueCount }.modifyBlock into fun blk => { blk with code := beforeLast ordered blk.code }

/-- Replaces `phis`, which stood at the head of `b`, on the edges from `preds`. -/
def removeFrom (b : BlockId) (phis : List Instr) : List BlockId → Func → Except Stuck Func
  | [], f => .ok f
  | p :: preds, f =>
    match f.edgeCopies b p phis with
    | .error cause => .error ⟨cause, f⟩
    | .ok [] => removeFrom b phis preds f
    | .ok copies => removeFrom b phis preds (f.copyOnEdge b p copies)

/-- Takes the phis at the head of the block `b` out. -/
def removeBlockPhis (f : Func) (b : BlockId) : Except Stuck Func :=
  match f.block? b with
  | none => .ok f
  | some blk =>
    if blk.phis.isEmpty then .ok f
    else removeFrom b blk.phis blk.preds (f.modifyBlock b fun blk => { blk with code := blk.body })

/-- Takes the phis of `blocks` out and counts them. -/
def removePhisOf : List BlockId → Func → Except Stuck (Func × Nat)
  | [], f => .ok (f, 0)
  | b :: rest, f => do
    let count := ((f.block? b).map fun blk => blk.phis.length).getD 0
    let f ← f.removeBlockPhis b
    let (f, others) ← removePhisOf rest f
    return (f, count + others)

/-- The function without phis at the heads of its blocks, and how many there were. -/
def removePhis (f : Func) : Except Stuck (Func × Nat) :=
  removePhisOf (f.blocks.toList.map Block.id) f

end Func
end Chordal.Ssa
