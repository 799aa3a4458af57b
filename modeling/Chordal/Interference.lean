/-
# Interference graphs

A graph whose nodes are values, by number. An edge says that its two ends need
different places. No node has an edge to itself, and an edge is recorded at
both ends. A change that fails also leaves a graph, the one it had come to.

Key definitions: `Graph`, `Graph.Change`, `Graph.addNode`, `Graph.addEdge`, `Graph.removeNode`.
-/
import Chordal.Failure
import Chordal.IdMap
import Chordal.IdSet

namespace Chordal.Interference

/-- A graph: the neighbours of each node. -/
structure Graph where
  adjacency : IdMap IdSet
deriving DecidableEq, Repr

namespace Graph

/-- The graph without nodes. -/
def empty : Graph := ⟨[]⟩

/-- The nodes in ascending order. -/
def nodes (g : Graph) : List Nat := g.adjacency.keys

/-- Whether `a` is a node. -/
def contains (g : Graph) (a : Nat) : Bool := g.adjacency.contains a

/-- A change of a graph, which may fail. What was done before it failed stays done. -/
abbrev Change (α : Type) := EStateM Failure Graph α

/-- Adds the node `a` and says whether it is new. A node that is there already keeps its edges. -/
def addNode (a : Nat) : Change Bool := do
  if (← get).contains a then return false
  modify fun g => ⟨g.adjacency.insert a []⟩
  return true

/-- Refuses what is not a node. -/
def requireNode (a : Nat) : Change Unit := do
  unless (← get).contains a do throw (.unknownNode a)

/-- Records `b` as a neighbour of `a`, at this end only. -/
def link (a b : Nat) : Change Unit := modify fun g => ⟨g.adjacency.modify a (IdSet.insert b)⟩

/-- Adds an edge between two nodes. -/
def addEdge (a b : Nat) : Change Unit := do
  if a = b then throw (.selfEdge a)
  requireNode a
  requireNode b
  link a b
  link b a

/-- The neighbours of a node. -/
def neighbors (g : Graph) (a : Nat) : Except Failure IdSet :=
  match g.adjacency.get? a with
  | some s => .ok s
  | none => .error (.unknownNode a)

/-- Whether there is an edge from `a` to `b`. -/
def interferes (g : Graph) (a b : Nat) : Bool :=
  ((g.adjacency.get? a).map fun s => s.contains b).getD false

/-- Makes each of `others` forget the neighbour `a`. -/
def forget (a : Nat) (others : IdSet) : Change Unit :=
  modify fun g => ⟨g.adjacency.map fun p =>
    if others.contains p.1 then (p.1, IdSet.erase a p.2) else p⟩

/-- Removes a node with its edges, and gives the neighbours it had. -/
def removeNode (a : Nat) : Change IdSet := do
  let found := (← get).adjacency.get? a
  modify fun g => ⟨g.adjacency.erase a⟩
  match found with
  | none => throw (.unknownNode a)
  | some neighbors =>
    forget a neighbors
    return neighbors

/-- The number of nodes. -/
def nodeCount (g : Graph) : Nat := g.adjacency.length

/-- The number of edges; each is recorded twice. -/
def edgeCount (g : Graph) : Nat := g.adjacency.values.flatten.length / 2

/-- The answer of a change that starts at `g`. -/
def Change.answer {α : Type} (change : Change α) (g : Graph) : Except Failure α :=
  match change.run g with
  | .ok a _ => .ok a
  | .error e _ => .error e

/-- The graph that a change leads to from `g`. -/
def Change.graph {α : Type} (change : Change α) (g : Graph) : Except Failure Graph :=
  match change.run g with
  | .ok _ g' => .ok g'
  | .error e _ => .error e

end Graph
end Chordal.Interference
