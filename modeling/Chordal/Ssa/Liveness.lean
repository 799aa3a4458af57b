/-
# Liveness

A value is live at a point if it may still be read before it is written again.
What is live at the heads of the blocks is found first, from a summary of each
block: from empty sets, round by round, backwards along the line, until a round
changes nothing. The last round leaves what is live at the ends, and from there
each block is walked backwards, instruction by instruction. No phi may be left.

Key definitions: `Summary`, `Sweep`, `Linear.sweepAll`, `liveBefore`, `Linear.liveness`.
-/
import Chordal.IdMap
import Chordal.IdSet
import Chordal.Ssa.Linear

namespace Chordal.Ssa

/-- What is live before an instruction, from what is live after it. -/
def liveBefore (i : Instr) (after : IdSet) : IdSet :=
  let kept := match i.target? with
    | some target => IdSet.erase target.id after
    | none => after
  IdSet.union kept (i.operands.map Value.id)

/-- What is live before the first of some instructions, and behind each of them. -/
def liveThrough (after : IdSet) : List Instr → IdSet × List IdSet
  | [] => (after, [])
  | i :: rest =>
    let (behind, others) := liveThrough after rest
    (liveBefore i behind, behind :: others)

/-- What is live behind each of some instructions. -/
def liveBehindEach (after : IdSet) (code : List Instr) : List IdSet := (liveThrough after code).2

/-- The values live at the heads of the blocks in the line, and behind the
instruction at each position. -/
structure Liveness where
  heads : IdMap IdSet
  after : List IdSet
deriving DecidableEq, Repr

namespace Liveness

/-- The largest number of values that are live at once. -/
def pressure (l : Liveness) : Nat := (l.after.map List.length).foldl max 0

end Liveness

/-- What a block reads before it writes it, and what it writes. -/
structure Summary where
  uses : IdSet
  defs : IdSet
deriving DecidableEq, Repr

namespace Summary

/-- The summary of no code. -/
def empty : Summary := ⟨[], []⟩

/-- The summary of code with one more instruction at its end. -/
def add (s : Summary) (i : Instr) : Summary where
  uses := IdSet.union s.uses ((i.operands.map Value.id).filter fun id => !s.defs.contains id)
  defs := match i.target? with
    | some target => IdSet.insert target.id s.defs
    | none => s.defs

/-- What is live at the head of a block, from what is live at its end. -/
def before (s : Summary) (atEnd : IdSet) : IdSet :=
  IdSet.union s.uses (atEnd.filter fun id => !s.defs.contains id)

end Summary

/-- What is live at the heads and at the ends of the blocks, and whether a head has changed in the
round that is going on. -/
structure Sweep where
  heads : IdMap IdSet
  ends : IdMap IdSet
  changed : Bool
deriving DecidableEq, Repr

namespace Linear

/-- The summary of code in the block `b`, behind code with the summary `s`. A phi is refused. -/
def summarize (l : Linear) (b : BlockId) : List Instr → Summary → Except Failure Summary
  | [], s => .ok s
  | .phi target _ :: _, _ => .error (.unresolvedPhi .liveness target.id (l.func.label b))
  | i :: rest, s => l.summarize b rest (s.add i)

/-- The summaries of the blocks. -/
def summaries (l : Linear) : Except Failure (IdMap Summary) :=
  l.order.foldlM (fun m b => return m.insert b (← l.summarize b (l.code b) .empty)) []

/-- What is live at the end of a block, from what is live at the heads. -/
def liveAtEnd (l : Linear) (heads : IdMap IdSet) (b : BlockId) : IdSet :=
  (l.succs b).foldl (fun live s => IdSet.union live ((heads.get? s).getD [])) []

/-- Brings a block up to date. -/
def sweepBlock (l : Linear) (summaries : IdMap Summary) (s : Sweep) (b : BlockId) : Sweep :=
  match summaries.get? b with
  | none => s
  | some summary =>
    let atEnd := l.liveAtEnd s.heads b
    let head := summary.before atEnd
    let s := if s.heads.get? b = some head then s
      else { s with heads := s.heads.insert b head, changed := true }
    { s with ends := s.ends.insert b atEnd }

/-- One round over all blocks, the last one first. -/
def sweep (l : Linear) (summaries : IdMap Summary) (s : Sweep) : Sweep :=
  l.order.reverse.foldl (l.sweepBlock summaries) { s with changed := false }

/-- Rounds until one changes no head, at most so many. -/
def sweepAll (l : Linear) (summaries : IdMap Summary) : (rounds : Nat) → Sweep → Sweep
  | 0, s => s
  | rounds + 1, s => if s.changed then l.sweepAll summaries rounds (l.sweep summaries s) else s

/-- An empty set for each block. -/
def emptySets (l : Linear) : IdMap IdSet := l.order.foldl (fun m b => m.insert b []) []

/-- Before the first round nothing is live, and a round is due. -/
def unswept (l : Linear) : Sweep := ⟨l.emptySets, l.emptySets, true⟩

/-- A number of rounds that is enough: each round but the last makes a head
larger, and only values that are read are in it. -/
def roundBound (l : Linear) : Nat :=
  l.order.length * (l.instrs.flatMap Instr.operands).length + 1

/-- The liveness of a function without phis. -/
def liveness (l : Linear) : Except Failure Liveness := do
  let summaries ← l.summaries
  let last := l.sweepAll summaries l.roundBound l.unswept
  return ⟨last.heads, l.order.flatMap fun b => liveBehindEach ((last.ends.get? b).getD []) (l.code b)⟩

end Linear
end Chordal.Ssa
