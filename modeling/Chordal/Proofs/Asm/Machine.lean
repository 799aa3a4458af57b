/-
# The machine

What the instructions do. A register holds 64 bits; an instruction on the low half
of a register reads 32 bits and clears the upper half of its target. Memory is made
of bytes, the low byte of a word first. Comparisons and arithmetic set the flags
that conditions read; flags that an instruction leaves undefined are not there for
conditions to read. A division faults if its divisor is zero or its quotient does
not fit.

A machine runs a listing. It goes on line by line; a jump goes to the line with the
label that it names. Instructions that leave the listing for good are `ret`, which
ends the run with the low half of `rax`, and those whose effect is outside it.

Key definitions: `Memory`, `Flags`, `Cpu`, `Instr.effect`, `Machine`, `Machine.step`,
`Machine.Steps`, `Machine.Halts`.
Key theorems: `Memory.load_store`, `Machine.Steps.trans`.
-/
import Mathlib
import Chordal.Asm.Listing

namespace Chordal.Asm

/-! ### Memory -/

/-- Bytes by their addresses. -/
abbrev Memory := BitVec 64 → BitVec 8

namespace Memory

/-- The `k` bits from an address on, the low byte first. -/
def load (m : Memory) (a : BitVec 64) (k : Nat) : BitVec k :=
  .ofFnLE fun i => (m (a + BitVec.ofNat 64 (i / 8))).getLsbD (i % 8)

/-- The memory with bits written from an address on, the low byte first. -/
def store (m : Memory) (a : BitVec 64) {k : Nat} (w : BitVec k) : Memory := fun x =>
  if (x - a).toNat < k / 8 then (w >>> (8 * (x - a).toNat)).setWidth 8 else m x

theorem getLsbD_load (m : Memory) (a : BitVec 64) {k i : Nat} (h : i < k) :
    (m.load a k).getLsbD i = (m (a + BitVec.ofNat 64 (i / 8))).getLsbD (i % 8) := by
  unfold load
  rw [BitVec.getLsbD_ofFnLE, dif_pos h]

/-- What was written is read. -/
theorem load_store (m : Memory) (a : BitVec 64) {k : Nat} (w : BitVec k) (hk : k % 8 = 0) (hlt : k < 2 ^ 64) :
    (m.store a w).load a k = w := by
  refine BitVec.eq_of_getLsbD_eq fun i hi => ?_
  have hoff : (a + BitVec.ofNat 64 (i / 8) - a).toNat = i / 8 := by
    rw [BitVec.add_comm, BitVec.add_sub_cancel, BitVec.toNat_ofNat, Nat.mod_eq_of_lt (by omega)]
  rw [getLsbD_load _ _ hi, store, hoff, if_pos (by omega), BitVec.getLsbD_setWidth,
    BitVec.getLsbD_ushiftRight, show 8 * (i / 8) + i % 8 = i by omega]
  simp [Nat.mod_lt i (by omega : 0 < 8)]

end Memory

/-! ### Flags -/

/-- What the last comparison or arithmetic said of its result. -/
structure Flags where
  zero : Bool
  sign : Bool
  overflow : Bool
deriving DecidableEq, Repr

namespace Flags

/-- The flags of a difference. -/
def ofSub {n : Nat} (l r : BitVec n) : Flags := ⟨l - r == 0, (l - r).msb, l.ssubOverflow r⟩

/-- The flags of a sum. -/
def ofAdd {n : Nat} (l r : BitVec n) : Flags := ⟨l + r == 0, (l + r).msb, l.saddOverflow r⟩

/-- The flags of a result that cannot overflow. -/
def ofBits {n : Nat} (w : BitVec n) : Flags := ⟨w == 0, w.msb, false⟩

end Flags

/-- Whether a condition holds. -/
def Cond.holds (f : Flags) : Cond → Bool
  | .equal => f.zero
  | .notEqual => !f.zero
  | .less => f.sign != f.overflow
  | .greater => !f.zero && f.sign == f.overflow
  | .lessEqual => f.zero || f.sign != f.overflow
  | .greaterEqual => f.sign == f.overflow

/-! ### Registers -/

/-- Registers, memory and flags. -/
structure Cpu where
  regs : Reg → BitVec 64
  memory : Memory
  flags : Option Flags

namespace Cpu

/-- The low half of a register. -/
def low (m : Cpu) (r : Reg) : Word := (m.regs r).setWidth 32

/-- Writes a whole register. -/
def set (m : Cpu) (r : Reg) (w : BitVec 64) : Cpu := { m with regs := Function.update m.regs r w }

/-- Writes the low half of a register, and clears the upper half. -/
def setLow (m : Cpu) (r : Reg) (w : Word) : Cpu := m.set r (w.setWidth 64)

/-- Writes the low byte of a register, and leaves the rest. -/
def setByte (m : Cpu) (r : Reg) (w : BitVec 8) : Cpu :=
  m.set r ((m.regs r).extractLsb' 8 56 ++ w)

/-- The address at a distance from the frame pointer. The distance has 32 bits. -/
def address (m : Cpu) (displacement : Int) : BitVec 64 :=
  m.regs .rbp + (BitVec.ofInt 32 displacement).signExtend 64

/-- What an operand holds. -/
def read (m : Cpu) : Operand → Word
  | .reg r => m.low r
  | .frame displacement => m.memory.load (m.address displacement) 32

/-- Writes a word of the frame. -/
def storeWord (m : Cpu) (displacement : Int) (w : Word) : Cpu :=
  { m with memory := m.memory.store (m.address displacement) w }

/-- The processor with other flags. -/
def withFlags (m : Cpu) (flags : Option Flags) : Cpu := { m with flags }

end Cpu

/-- What an operation computes. -/
def AluOp.apply : AluOp → Word → Word → Word
  | .add, l, r => l + r
  | .sub, l, r => l - r
  | .imul, l, r => l * r
  | .and, l, r => l &&& r
  | .or, l, r => l ||| r
  | .xor, l, r => l ^^^ r

/-- The flags that an operation leaves. A product leaves some undefined. -/
def AluOp.flags : AluOp → Word → Word → Option Flags
  | .add, l, r => some (.ofAdd l r)
  | .sub, l, r => some (.ofSub l r)
  | .imul, _, _ => none
  | .and, l, r => some (.ofBits (l &&& r))
  | .or, l, r => some (.ofBits (l ||| r))
  | .xor, l, r => some (.ofBits (l ^^^ r))

/-! ### Instructions -/

/-- What an instruction leads to. -/
inductive Effect where
  | next (m : Cpu)
  | jump (address : Nat)
  | returned
  | fault
  | outside

/-- The quotient and the remainder of the double word in `rdx` and `rax`. -/
def Cpu.divide (m : Cpu) (divisor : Word) : Effect :=
  let dividend := (m.low .rdx ++ m.low .rax).toInt
  if divisor = 0 then .fault
  else
    let quotient := dividend.tdiv divisor.toInt
    if quotient < -2 ^ 31 ∨ 2 ^ 31 ≤ quotient then .fault
    else .next (((m.setLow .rax (.ofInt 32 quotient)).setLow .rdx
      (.ofInt 32 (dividend.tmod divisor.toInt))).withFlags none)

/-- What an instruction does. -/
def Instr.effect (m : Cpu) : Instr → Effect
  | .mov target source => .next (m.setLow target (m.read source))
  | .movImm target value => .next (m.setLow target value)
  | .store displacement source => .next (m.storeWord displacement (m.low source))
  | .mov64 target source => .next (m.set target (m.regs source))
  | .movzx target source => .next (m.setLow target (((m.regs source).setWidth 8).setWidth 32))
  | .alu op target source =>
    .next ((m.setLow target (op.apply (m.low target) (m.read source))).withFlags
      (op.flags (m.low target) (m.read source)))
  | .cmp left right => .next (m.withFlags (some (.ofSub (m.low left) (m.read right))))
  | .cmpImm left value => .next (m.withFlags (some (.ofSub (m.low left) (value.signExtend 32))))
  | .xorImm target value =>
    .next ((m.setLow target (m.low target ^^^ value.signExtend 32)).withFlags
      (some (.ofBits (m.low target ^^^ value.signExtend 32))))
  | .neg target => .next ((m.setLow target (-m.low target)).withFlags (some (.ofSub 0 (m.low target))))
  | .not target => .next (m.setLow target (~~~m.low target))
  | .cltd => .next (m.setLow .rdx (if (m.low .rax).msb then -1 else 0))
  | .idiv divisor => m.divide (m.low divisor)
  | .shl target =>
    .next ((m.setLow target (m.low target <<< (((m.regs .rcx).setWidth 8).toNat % 32))).withFlags none)
  | .sar target =>
    .next ((m.setLow target
      ((m.low target).sshiftRight (((m.regs .rcx).setWidth 8).toNat % 32))).withFlags none)
  | .setcc cond target =>
    match m.flags with
    | some f => .next (m.setByte target (if cond.holds f then 1 else 0))
    | none => .outside
  | .push source =>
    .next ({ m with memory := m.memory.store (m.regs .rsp - 8) (m.regs source) }.set .rsp (m.regs .rsp - 8))
  | .pop target => .next ((m.set .rsp (m.regs .rsp + 8)).set target (m.memory.load (m.regs .rsp) 64))
  | .add64 target value =>
    .next ((m.set target (m.regs target + value.signExtend 64)).withFlags
      (some (.ofAdd (m.regs target) (value.signExtend 64))))
  | .sub64 target value =>
    .next ((m.set target (m.regs target - value.signExtend 64)).withFlags
      (some (.ofSub (m.regs target) (value.signExtend 64))))
  | .ret => .returned
  | .syscall => .outside
  | .call _ => .outside
  | .jmp address => .jump address
  | .jcc cond address =>
    match m.flags with
    | some f => if cond.holds f then .jump address else .next m
    | none => .outside

/-! ### Runs -/

/-- The lines from the label of an address on. -/
def Listing.after? (address : Nat) : Listing → Option Listing
  | [] => none
  | .label l :: rest => if l.address = address then some (.label l :: rest) else after? address rest
  | _ :: rest => after? address rest

/-- A machine: its processor, and the lines that it has not come to yet. -/
structure Machine where
  cpu : Cpu
  rest : Listing

/-- How a run ends: with a result, in a division that faults, behind the last line,
or with an instruction whose effect is outside the listing. -/
inductive Halt where
  | returned (result : Word)
  | fault
  | ranOff
  | outside
deriving DecidableEq, Repr

namespace Machine

/-- One line of a program. -/
def step (program : Listing) (m : Machine) : Except Halt Machine :=
  match m.rest with
  | [] => .error .ranOff
  | .label _ :: rest => .ok ⟨m.cpu, rest⟩
  | .directive _ :: rest => .ok ⟨m.cpu, rest⟩
  | .instr i :: rest =>
    match i.effect m.cpu with
    | .next cpu => .ok ⟨cpu, rest⟩
    | .jump address =>
      match program.after? address with
      | some rest => .ok ⟨m.cpu, rest⟩
      | none => .error .outside
    | .returned => .error (.returned (m.cpu.low .rax))
    | .fault => .error .fault
    | .outside => .error .outside

/-- A run gets from one state to another in so many steps. -/
inductive Steps (program : Listing) : Nat → Machine → Machine → Prop
  | refl (m : Machine) : Steps program 0 m m
  | head {m m' m'' : Machine} {n : Nat} :
    step program m = .ok m' → Steps program n m' m'' → Steps program (n + 1) m m''

/-- A run ends in this way. -/
def Halts (program : Listing) (m : Machine) (h : Halt) : Prop :=
  ∃ n m', Steps program n m m' ∧ step program m' = .error h

/-- A run does not end. -/
def RunsForever (program : Listing) (m : Machine) : Prop := ∀ n, ∃ m', Steps program n m m'

variable {program : Listing} {m m' m'' : Machine} {n k : Nat} {h h' : Halt}

theorem Steps.one (hs : step program m = .ok m') : Steps program 1 m m' := .head hs (.refl m')

theorem Steps.trans (hn : Steps program n m m') (hk : Steps program k m' m'') : Steps program (n + k) m m'' := by
  induction hn with
  | refl => rwa [Nat.zero_add]
  | head hs _ ih =>
    rw [Nat.add_right_comm]
    exact .head hs (ih hk)

/-- The first part of a longer run. -/
theorem Steps.split (hn : Steps program (n + k) m m'') : ∃ m', Steps program n m m' := by
  induction n generalizing m with
  | zero => exact ⟨m, .refl m⟩
  | succ n ih =>
    rw [Nat.add_right_comm] at hn
    cases hn with
    | head hs hrest =>
      obtain ⟨m₁, h₁⟩ := ih hrest
      exact ⟨m₁, .head hs h₁⟩

theorem Halts.prepend (hn : Steps program n m m') (hh : Halts program m' h) : Halts program m h := by
  obtain ⟨k, m₁, hk, he⟩ := hh
  exact ⟨n + k, m₁, hn.trans hk, he⟩

/-- A state that a run comes to is on the way to its end, or is the end. -/
theorem Halts.of_steps (hn : Steps program n m m') (hh : Halts program m h) : Halts program m' h := by
  induction hn with
  | refl => exact hh
  | head hs _ ih =>
    refine ih ?_
    obtain ⟨k, m₁, hk, he⟩ := hh
    cases hk with
    | refl =>
      rw [hs] at he
      cases he
    | head hs' hrest =>
      obtain rfl := Except.ok.inj (hs.symm.trans hs')
      exact ⟨_, m₁, hrest, he⟩

/-- A run has one end. -/
theorem Halts.unique (hh : Halts program m h) (hh' : Halts program m h') : h = h' := by
  obtain ⟨n, m₁, hn, he⟩ := hh
  obtain ⟨k, m₂, hk, he'⟩ := hh'.of_steps hn
  cases hk with
  | refl =>
    rw [he] at he'
    exact Except.error.inj he'
  | head hs _ =>
    rw [he] at hs
    cases hs

/-- A run that ends does not go on forever. -/
theorem Halts.not_runsForever (hh : Halts program m h) : ¬ RunsForever program m := by
  intro hall
  obtain ⟨n, m₁, hn, he⟩ := hh
  obtain ⟨m₂, hm₂⟩ := hall (n + 1)
  clear hall
  induction hn with
  | refl =>
    cases hm₂ with
    | head hs _ =>
      rw [he] at hs
      cases hs
  | head hs _ ih =>
    cases hm₂ with
    | head hs' hrest =>
      obtain rfl := Except.ok.inj (hs.symm.trans hs')
      exact ih he hrest

end Machine
end Chordal.Asm
