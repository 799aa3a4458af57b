/-
# Block layout

The order in which blocks are written out: the blocks that can be reached from
the start, depth first, a block before its successors and the true edge of a
branch before the false one. A stack holds the blocks still to visit. A block
may be on it more than once; it counts when it is first taken off.

Key definitions: `Func.walk`, `Func.layout`.
-/
import Chordal.Ssa.Func

namespace Chordal.Ssa.Func

/-- Goes on with the blocks on `stack` when those in `seen`, the latest first,
have been visited. A round takes one block off the stack. -/
def walk (f : Func) : (rounds : Nat) → (seen stack : List BlockId) → Except Failure (List BlockId)
  | _, seen, [] => .ok seen.reverse
  | 0, seen, _ :: _ => .ok seen.reverse
  | rounds + 1, seen, b :: stack =>
    if seen.contains b then f.walk rounds seen stack
    else
      match f.block? b with
      | none => .error (.noSuchBlock b)
      | some blk =>
        let seen := b :: seen
        f.walk rounds seen (blk.targets.filter (fun t => !seen.contains t) ++ stack)

/-- The blocks that can be reached, in the order they are written out. Each of
them puts at most two blocks on the stack, which bounds the rounds. -/
def layout (f : Func) : Except Failure (List BlockId) :=
  f.walk (2 * f.blocks.size + 2) [] [f.start]

end Chordal.Ssa.Func
