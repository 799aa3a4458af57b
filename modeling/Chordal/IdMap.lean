/-
# Maps from numbers

Finite maps whose keys are numbers, held as lists of pairs with ascending keys,
so that a listing is in the order of the keys.

Key definitions: `IdMap`, `IdMap.get?`, `IdMap.insert`, `IdMap.erase`, `IdMap.modify`.
-/
namespace Chordal

/-- A map from numbers, as a list of pairs with ascending keys. -/
abbrev IdMap (α : Type) := List (Nat × α)

namespace IdMap

variable {α : Type}

/-- The value at a key. -/
def get? (m : IdMap α) (k : Nat) : Option α := (m.find? fun p => p.1 == k).map (·.2)

/-- Whether a key is present. -/
def contains (m : IdMap α) (k : Nat) : Bool := m.any fun p => p.1 == k

/-- The map with `a` at the key `k`. -/
def insert (k : Nat) (a : α) : IdMap α → IdMap α
  | [] => [(k, a)]
  | (j, b) :: m =>
    if k < j then (k, a) :: (j, b) :: m
    else if k = j then (k, a) :: m
    else (j, b) :: insert k a m

/-- The map without the key `k`. -/
def erase (k : Nat) (m : IdMap α) : IdMap α := m.filter fun p => p.1 != k

/-- The map with the value at `k`, if there is one, replaced by `f` of it. -/
def modify (k : Nat) (f : α → α) : IdMap α → IdMap α
  | [] => []
  | p :: m => if p.1 = k then (p.1, f p.2) :: m else p :: modify k f m

/-- The keys, in ascending order. -/
def keys (m : IdMap α) : List Nat := m.map (·.1)

/-- The values, in the order of their keys. -/
def values (m : IdMap α) : List α := m.map (·.2)

end IdMap
end Chordal
