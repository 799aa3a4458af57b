/-
# Flow states

What is known at a point of a function: which variables every path to it has
assigned, and whether there is such a path at all. Behind a `return`, a `break`
or a `continue` there is none; then every variable counts as assigned.

Key definitions: `Flow`, `Flow.join`, `Flow.isAssigned`.
-/
namespace Chordal.Typed

/-- What is known at a point: the numbers of the symbols assigned on every path
to it, and whether it can be reached. -/
structure Flow where
  assigned : List Nat
  live : Bool
deriving DecidableEq, Repr

namespace Flow

/-- Nothing is assigned where a function begins. -/
def start : Flow := ⟨[], true⟩

/-- No path leads here. -/
def dead : Flow := ⟨[], false⟩

/-- Two paths meet. A point that cannot be reached adds nothing. -/
def join (a b : Flow) : Flow :=
  if !a.live then b
  else if !b.live then a
  else ⟨a.assigned.filter b.assigned.contains, true⟩

/-- A symbol is assigned. -/
def assign (f : Flow) (id : Nat) : Flow := { f with assigned := id :: f.assigned }

/-- Whether a symbol may be read. -/
def isAssigned (f : Flow) (id : Nat) : Bool := !f.live || f.assigned.contains id

end Flow
end Chordal.Typed
