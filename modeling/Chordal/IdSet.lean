/-
# Sets of numbers

Finite sets of numbers, held as ascending lists, so that two sets with the same
members are the same list and a listing is in order.

Key definitions: `IdSet`, `IdSet.insert`, `IdSet.erase`, `IdSet.union`.
-/
namespace Chordal

/-- A set of numbers, as an ascending list. -/
abbrev IdSet := List Nat

namespace IdSet

/-- The set with `a` in it. -/
def insert (a : Nat) : IdSet → IdSet
  | [] => [a]
  | b :: s => if a < b then a :: b :: s else if a = b then b :: s else b :: insert a s

/-- The set without `a`. -/
def erase (a : Nat) (s : IdSet) : IdSet := s.filter (· != a)

/-- The members of both sets together. -/
def union (s t : IdSet) : IdSet := t.foldl (fun acc a => insert a acc) s

/-- The set of the members of a list. -/
def ofList (l : List Nat) : IdSet := union [] l

end IdSet
end Chordal
