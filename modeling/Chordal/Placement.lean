/-
# Places for values

Where a function keeps its values: each in a register or in a slot of its
frame. Slots are eight bytes wide and lie below the frame pointer. A frame has
one slot more than there are slots with values.

Key definitions: `Location`, `Placement`, `Placement.frameSize`.
-/
import Chordal.IdMap
import Chordal.Reg
import Chordal.Word

namespace Chordal

/-- The place of a value. -/
inductive Location where
  | reg (r : Reg)
  | slot (n : Nat)
deriving DecidableEq, Repr

namespace Location

/-- The distance of a slot from the frame pointer. -/
def slotOffset (n : Nat) : Int := -8 * ((n : Int) + 1)

/-- Whether the place is in the frame. -/
def isStack : Location → Bool
  | .reg _ => false
  | .slot _ => true

/-- The text of a place. -/
def text : Location → String
  | .reg r => r.text
  | .slot n => toString (slotOffset n) ++ "(%rbp)"

end Location

/-- The places of the values of a function, the number of slots, and the
registers in use. -/
structure Placement where
  locations : IdMap Location
  stackSlots : Nat
  used : RegSet
deriving Repr

namespace Placement

/-- The size of the frame in bytes. -/
def frameSize (p : Placement) : Word := (BitVec.ofNat 32 p.stackSlots + 1) * 8

/-- The registers that have to be saved, in the order they are saved. -/
def calleeSaved (p : Placement) : List Reg := p.used.calleeSaved

/-- The placement with the given places: as many slots as the last one needs. -/
def ofLocations (locations : IdMap Location) : Placement :=
  locations.values.foldl
    (fun p l => match l with
      | .reg r => { p with used := p.used.insert r }
      | .slot n => { p with stackSlots := max p.stackSlots (n + 1) })
    ⟨locations, 0, .empty⟩

end Placement
end Chordal
