/-
# Places in a source text

A place is a line and a column, both counted from one. A column is one Unicode
scalar value wide, and only a line feed starts a new line.

Both are natural numbers. They are at most one more than the number of characters
before the place, so counters of 32 bits hold them for every text of fewer than
2^32 - 1 characters.

Key definitions: `Span`, `Span.next`, `Span.advance`.
-/
namespace Chordal

/-- A place in a source text. -/
structure Span where
  line : Nat
  column : Nat
deriving DecidableEq, Repr, Inhabited

namespace Span

/-- Where a text begins. -/
def start : Span := ⟨1, 1⟩

/-- The place after the character `c` at `p`. -/
def next (p : Span) (c : Char) : Span :=
  if c = '\n' then ⟨p.line + 1, 1⟩ else ⟨p.line, p.column + 1⟩

/-- The place after the characters `cs` at `p`. -/
def advance (p : Span) (cs : List Char) : Span := cs.foldl next p

/-- `line:column`. -/
def text (p : Span) : String := toString p.line ++ ":" ++ toString p.column

end Span
end Chordal
