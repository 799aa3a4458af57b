/-
# Machine words

Every value of the source language is one 32-bit word. A word has no sign of
its own; `toInt` reads it in two's complement, and that reading is the one that
is written out and compared.

Key definitions: `Word`, `Word.ofBool`, `Word.text`.
-/
namespace Chordal

/-- A 32-bit machine word. -/
abbrev Word := BitVec 32

namespace Word

/-- The word of a truth value: one for true, zero for false. -/
def ofBool (b : Bool) : Word := if b then 1 else 0

/-- Signed decimal text of a word. -/
def text (w : Word) : String := toString w.toInt

end Word
end Chordal
