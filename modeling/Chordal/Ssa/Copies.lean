/-
# Parallel copies

On an edge into a block with phis, several values are copied at once: all
sources are read before any target is written. A machine copies one value after
another. The copies can be put in an order that has the same effect: a copy may
go once no other pending copy reads its target. Where every pending copy is
blocked, the first target is saved in a fresh value, and the copies that read it
read the saved one instead.

The numbers of values have 32 bits, and the count of a function begins again at
zero behind the last of them; a temporary after that is a value in use. The
removal of phis, like construction, is told with numbers that do not end.

Key definitions: `Copy`, `Copies.sequence`, `Copies.sequenceFresh`.
-/
import Chordal.Ssa.Func

namespace Chordal.Ssa

/-- One copy of a parallel copy. -/
structure Copy where
  target : Value
  source : Value
deriving DecidableEq, Repr

namespace Copies

/-- Whether a copy can go before all others in `pending`. -/
def isReady (pending : List Copy) (c : Copy) : Bool :=
  !pending.any fun other => other.source.id == c.target.id && other != c

/-- The copies with the sources that are `saved` read from `temporary` instead. -/
def redirect (saved temporary : Value) (pending : List Copy) : List Copy :=
  pending.map fun c => if c.source.id = saved.id then { c with source := temporary } else c

/-- Orders `pending`. The first temporary has the number `fresh`, and each is
followed by the `next`. A round emits one copy. -/
def sequenceIn (next : Nat → Nat) : (rounds fresh : Nat) → (pending : List Copy) → List Copy × Nat
  | 0, fresh, _ => ([], fresh)
  | _, fresh, [] => ([], fresh)
  | rounds + 1, fresh, first :: others =>
    let pending := first :: others
    match pending.find? (isReady pending) with
    | some c =>
      let (rest, fresh) := sequenceIn next rounds fresh (pending.erase c)
      (c :: rest, fresh)
    | none =>
      let temporary : Value := ⟨fresh, first.target.ty⟩
      let (rest, fresh) :=
        sequenceIn next rounds (next fresh) (redirect first.target temporary pending)
      (⟨temporary, first.target⟩ :: rest, fresh)

/-- The same with numbers that do not end. -/
def sequenceFresh (fresh : Nat) (copies : List Copy) : List Copy × Nat :=
  sequenceIn Nat.succ (3 * copies.length) fresh copies

end Copies
end Chordal.Ssa
