/-
# Interference of the values of a function

Two values interfere if one of them is written while the other is live. The
nodes are the values that are written somewhere.

Key definitions: `Graph.addTargets`, `Graph.addClashes`, `Linear.interference`.
-/
import Chordal.Interference
import Chordal.Ssa.Liveness

namespace Chordal.Interference.Graph

/-- Adds a node for each value that is written. -/
def addTargets : List Ssa.Instr → Change Unit
  | [] => return
  | i :: code => do
    if let some target := i.target? then
      let _ ← addNode target.id
    addTargets code

/-- Adds an edge from `a` to each of `live` but itself. -/
def addClashes (a : Nat) : List Nat → Change Unit
  | [] => return
  | b :: live => do
    unless b = a do addEdge a b
    addClashes a live

/-- Adds the edges for instructions and what is live behind each of them. -/
def addAllClashes : List (Ssa.Instr × IdSet) → Change Unit
  | [] => return
  | (i, live) :: rest => do
    if let some target := i.target? then
      addClashes target.id live
    addAllClashes rest

/-- The edges and, before them, the nodes of code with what is live behind each instruction. The
instructions are treated from the last to the first for the edges. -/
def addCode (code : List Ssa.Instr) (live : List IdSet) : Change Unit := do
  addTargets code
  addAllClashes (code.zip live).reverse

end Chordal.Interference.Graph

namespace Chordal.Ssa.Linear

open Interference

/-- The interference graph of a function, from its liveness. -/
def interference (l : Linear) (live : Liveness) : Except Failure Graph :=
  (Graph.addCode l.instrs live.after).graph Graph.empty

end Chordal.Ssa.Linear
