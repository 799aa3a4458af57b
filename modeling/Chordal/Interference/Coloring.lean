/-
# Colouring

Colours for the nodes of a graph, neighbours with different ones. The nodes are
put in an order first: always the node with the most neighbours already in the
order, the lowest number among several. Then each node in turn takes the least
colour that no coloured neighbour has. If every cycle of four or more nodes has
a chord, no colouring uses fewer colours.

Key definitions: `Graph.cardinalityOrder`, `Graph.colorInOrder`.
-/
import Chordal.Interference

namespace Chordal.Interference.Graph

/-- The node of the largest weight, the first among several. -/
def heaviest : IdMap Nat → Option (Nat × Nat)
  | [] => none
  | p :: rest =>
    match heaviest rest with
    | some q => if p.2 < q.2 then some q else some p
    | none => some p

/-- The weights with those of some nodes raised by one. -/
def raise (nodes : IdSet) (weights : IdMap Nat) : IdMap Nat :=
  weights.map fun p => if nodes.contains p.1 then (p.1, p.2 + 1) else p

/-- Takes the nodes out of the graph, always one of the largest weight: for each that is left, how
many of its neighbours are out already. The nodes are given in the order in which they go, one in
each round. -/
def orderFrom : (rounds : Nat) → (weights : IdMap Nat) → Change (List Nat)
  | 0, _ => return []
  | rounds + 1, weights => do
    match heaviest weights with
    | none => return []
    | some (a, _) =>
      let neighbors ← removeNode a
      let rest ← orderFrom rounds (raise neighbors (weights.erase a))
      return a :: rest

/-- The nodes by maximum cardinality search, which empties a copy of the graph. -/
def cardinalityOrder (g : Graph) : Except Failure (List Nat) :=
  (orderFrom g.nodeCount (g.nodes.map fun a => (a, 0))).answer g

/-- The least colour that is not taken. -/
def leastFree (taken : List Nat) : Nat :=
  ((List.range (taken.length + 1)).find? fun c => !taken.contains c).getD taken.length

/-- Colours the nodes of `order` one after another, after those in `colors`. -/
def colorFrom (g : Graph) : (order : List Nat) → (colors : IdMap Nat) → Except Failure (IdMap Nat)
  | [], colors => .ok colors
  | a :: rest, colors => do
    let neighbors ← g.neighbors a
    g.colorFrom rest (colors.insert a (leastFree (neighbors.filterMap colors.get?)))

/-- A colour for each node of `order`. -/
def colorInOrder (g : Graph) (order : List Nat) : Except Failure (IdMap Nat) := g.colorFrom order []

end Chordal.Interference.Graph
