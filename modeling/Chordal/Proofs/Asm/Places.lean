/-
# Places of values on the machine

Two places that values may have do not overlap, or are one place: they are registers
of the pool, or words of the frame whose distances from the frame pointer are
multiples of eight. A distance has 32 bits, so slots whose numbers differ by a
multiple of 2 ^ 29 are at one address; in a frame that is small enough for its
distances there are no such slots. So a write to one place leaves what is at the
others.

Key definitions: `Location.Fits`, `Location.Coincides`.
Key theorems: `slots_apart`, `Cpu.Writes.read_of_apart`, `Cpu.Writes.read_of_ne`.
-/
import Mathlib
import Chordal.Proofs.Allocation
import Chordal.Proofs.Asm.Operations

namespace Chordal

/-- A place that the machine has. -/
def Location.Fits : Location → Prop
  | .reg r => r ∈ Reg.pool
  | .slot n => n < 2 ^ 28

theorem Placement.Fits.location {p : Placement} (h : p.Fits) (hslots : p.stackSlots ≤ 2 ^ 28) {id : Nat}
    {loc : Location} (hloc : p.locations.get? id = some loc) : loc.Fits := by
  cases loc with
  | reg r => exact h.reg hloc
  | slot n => exact Nat.lt_of_lt_of_le (h.slot hloc) hslots

/-- Two places that are one: a register, or slots with one distance in 32 bits. -/
def Location.Coincides : Location → Location → Prop
  | .reg r, .reg q => r = q
  | .slot n, .slot k => n % 2 ^ 29 = k % 2 ^ 29
  | _, _ => False

theorem Location.Coincides.eq {a b : Location} (h : a.Coincides b) (ha : a.Fits) (hb : b.Fits) : a = b := by
  cases a with
  | reg r =>
    cases b with
    | reg q => exact congrArg Location.reg h
    | slot k => exact h.elim
  | slot n =>
    cases b with
    | reg q => exact h.elim
    | slot k =>
      have ha : n < 2 ^ 28 := ha
      have hb : k < 2 ^ 28 := hb
      have h : n % 2 ^ 29 = k % 2 ^ 29 := h
      exact congrArg Location.slot (by omega)

namespace Asm

theorem usable_ofLocation {loc : Location} (h : loc.Fits) : (Operand.ofLocation loc).Usable := by
  cases loc with
  | reg r => exact h
  | slot n => trivial

/-- The distance of a slot has 32 bits, so nothing of it is lost. -/
theorem address_slot (m : Cpu) {n : Nat} (h : n < 2 ^ 28) :
    m.address (Location.slotOffset n) = m.regs .rbp + BitVec.ofInt 64 (Location.slotOffset n) := by
  unfold Cpu.address BitVec.signExtend
  rw [BitVec.toInt_ofInt, Int.bmod_eq_of_le]
  · unfold Location.slotOffset
    omega
  · unfold Location.slotOffset
    omega

/-- Slots that do not have one distance in 32 bits do not overlap. -/
theorem slots_apart (m : Cpu) {n k : Nat} (hne : n % 2 ^ 29 ≠ k % 2 ^ 29) {i : Nat} (hi : i < 4) :
    4 ≤ (m.address (Location.slotOffset n) + BitVec.ofNat 64 i - m.address (Location.slotOffset k)).toNat := by
  unfold Cpu.address BitVec.signExtend
  rw [BitVec.toInt_ofInt, BitVec.toInt_ofInt]
  generalize hx : (Location.slotOffset n).bmod (2 ^ 32) = x
  generalize hy : (Location.slotOffset k).bmod (2 ^ 32) = y
  have hdist : m.regs .rbp + BitVec.ofInt 64 x + BitVec.ofNat 64 i - (m.regs .rbp + BitVec.ofInt 64 y) =
      BitVec.ofInt 64 (x - y + i) := by
    rw [BitVec.ofInt_add, BitVec.ofInt_natCast, Int.sub_eq_add_neg, BitVec.ofInt_add, BitVec.ofInt_neg]
    ring
  rw [hdist, BitVec.toNat_ofInt]
  rw [Location.slotOffset, Int.bmod_def] at hx hy
  omega

theorem load_congr {a : BitVec 64} {m m' : Memory}
    (h : ∀ i, i < 4 → m' (a + BitVec.ofNat 64 i) = m (a + BitVec.ofNat 64 i)) :
    m'.load a 32 = m.load a 32 := by
  refine BitVec.eq_of_getLsbD_eq fun i hi => ?_
  rw [Memory.getLsbD_load _ _ hi, Memory.getLsbD_load _ _ hi, h (i / 8) (by omega)]

/-- A write to one place leaves the places that do not coincide with it. -/
theorem Cpu.Writes.read_of_apart {m m' : Cpu} {loc other : Location} {w : Word}
    (h : m.Writes (.ofLocation loc) w m') (hloc : (Operand.ofLocation loc).Usable)
    (hother : (Operand.ofLocation other).Usable) (hapart : ¬ other.Coincides loc) :
    m'.read (.ofLocation other) = m.read (.ofLocation other) := by
  have hbp : m'.regs .rbp = m.regs .rbp := h.regs .rbp (by decide) (hloc.ne_reg (by decide))
  cases other with
  | reg r =>
    have hr : m'.regs r = m.regs r := by
      refine h.regs r (fun hmem => pool_disjoint hother (List.mem_cons_of_mem _ hmem)) fun he => ?_
      cases loc with
      | reg q => exact hapart (Operand.reg.inj he).symm
      | slot n => cases he
    simp only [Operand.ofLocation, Cpu.read, Cpu.low, hr]
  | slot n =>
    have haddr : m'.address (Location.slotOffset n) = m.address (Location.slotOffset n) := by
      unfold Cpu.address
      rw [hbp]
    simp only [Operand.ofLocation, Cpu.read, haddr]
    refine load_congr fun i hi => h.memory _ ?_
    rintro ⟨d, hd, hlt⟩
    cases loc with
    | reg q => cases hd
    | slot k =>
      obtain rfl := Operand.frame.inj hd
      exact absurd hlt (Nat.not_lt.mpr (slots_apart m hapart hi))

/-- A write to one place leaves the others. -/
theorem Cpu.Writes.read_of_ne {m m' : Cpu} {loc other : Location} {w : Word}
    (h : m.Writes (.ofLocation loc) w m') (hloc : loc.Fits) (hother : other.Fits) (hne : other ≠ loc) :
    m'.read (.ofLocation other) = m.read (.ofLocation other) :=
  h.read_of_apart (usable_ofLocation hloc) (usable_ofLocation hother) fun hsame => hne (hsame.eq hother hloc)

end Asm
end Chordal
