/-
# Allocation

Places for the values of a function from a colouring of their interference
graph. The first colours stand for registers and the others for slots, so
values of one colour share a place and neighbours never do.

Key definitions: `Allocation`, `RegFile.allocate`, `RegFile.allocateLinear`.
-/
import Chordal.Interference.Coloring
import Chordal.Interference.Construction
import Chordal.Placement

namespace Chordal

/-- A colouring, the order it was made in, and the places it leads to. -/
structure Allocation where
  colors : IdMap Nat
  ordering : List Nat
  colorCount : Nat
  placement : Placement
deriving Repr

namespace RegFile

/-- Places for coloured values, and the file with the registers they take. -/
def placeAll : RegFile → IdMap Nat → IdMap Location × RegFile
  | file, [] => ([], file)
  | file, (value, color) :: rest =>
    let (r, next) := file.assign color
    let location := match r with
      | some r => Location.reg r
      | none => Location.slot (color - file.pool.length)
    let (others, last) := next.placeAll rest
    ((value, location) :: others, last)

/-- Places for the nodes of a graph. What the file had taken before does not
matter. -/
def allocate (file : RegFile) (g : Interference.Graph) : Except Failure (Allocation × RegFile) := do
  let ordering ← g.cardinalityOrder
  let colors ← g.colorInOrder ordering
  let colorCount := (colors.values.map (· + 1)).foldl max 0
  let (locations, file) := file.reset.placeAll colors
  return (⟨colors, ordering, colorCount, ⟨locations, colorCount - file.pool.length, file.used⟩⟩,
    file)

/-- Places for the values of a function. -/
def allocateLinear (file : RegFile) (l : Ssa.Linear) : Except Failure (Allocation × RegFile) := do
  let live ← l.liveness
  let g ← l.interference live
  file.allocate g

end RegFile
end Chordal
