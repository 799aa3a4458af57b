/-
# Places that coincide

The values of an instruction may be at any places: registers of the pool or slots of
the frame, and any of them may be at one place. The code for the instruction gives
the place of its target what the instruction computes of the words that its operands
hold before. Of the registers it changes only the target and the temporaries, of the
memory only the word of the target.

Where the instruction has no result, the code stops at its division. Up to there it
has only brought the operands into temporaries, so no value has changed.

Key definitions: `Ssa.Instr.computed`, `Cpu.StopsAtDivision`.
Key theorems: `lowerBinary_stops`, `lowerInstr_code`, `lowerInstr_computes`.
-/
import Mathlib
import Chordal.Asm.Lowering
import Chordal.Proofs.Asm.Operations
import Chordal.Proofs.Asm.Emission
import Chordal.Proofs.Asm.Places

namespace Chordal

open Ssa (Value BlockId)

/-- The target of an instruction that computes a value, and its result if the values
have these contents. A phi and an instruction that ends a block compute nothing. -/
def Ssa.Instr.computed (content : Value → Word) : Ssa.Instr → Option (Value × Except DivisionFault Word)
  | .const target w => some (target, .ok w)
  | .bool target b => some (target, .ok (Word.ofBool b))
  | .move target source => some (target, .ok (content source))
  | .unary target op operand => some (target, .ok (op.apply (content operand)))
  | .binary target op left right => some (target, op.apply (content left) (content right))
  | .phi _ _ => none
  | .jump _ => none
  | .branch _ _ _ => none
  | .ret _ => none

namespace Asm

open Instr (runAll)
open Cpu (temporaries)

/-- The code runs up to a division that faults, and changes nothing but temporaries
and flags before it. -/
def Cpu.StopsAtDivision (m : Cpu) (code : List Instr) : Prop :=
  ∃ before divisor after m', code = before ++ .idiv divisor :: after ∧ runAll before m = .next m' ∧
    Cpu.Changes temporaries m m' ∧ (Instr.idiv divisor).effect m' = .fault

theorem lowerDivision_stops {f : Word → Word → Word} (result : Reg) (target left : Operand) {right : Operand}
    (hr : right.Usable) {m : Cpu} {fault : DivisionFault}
    (h : BinaryOp.dividing f (m.read left) (m.read right) = .error fault) :
    m.StopsAtDivision (lowerDivision result target left right) := by
  obtain ⟨m', hrun, hrax, hrdx, hdivisor, hchanges⟩ := division_prepared left hr m
  refine ⟨_, workReg right, save target result, m', ?_, hrun, hchanges, ?_⟩
  · rw [lowerDivision, List.append_assoc, List.singleton_append]
  · rw [Instr.effect, hdivisor, divide_signed (by rw [hrax, hrdx]), hrax]
    unfold BinaryOp.dividing at h
    split_ifs at h ⊢ <;> rfl

/-- Only divisions have no result. -/
theorem lowerBinary_stops {op : BinaryOp} (target left : Operand) {right : Operand} (hr : right.Usable) {m : Cpu}
    {fault : DivisionFault} (h : op.apply (m.read left) (m.read right) = .error fault) :
    m.StopsAtDivision (lowerBinary op target left right) := by
  cases op with
  | div => exact lowerDivision_stops .rax target left hr h
  | mod => exact lowerDivision_stops .rdx target left hr h
  | _ => cases h

/-- The places of the values of an instruction: registers of the pool or slots. -/
structure Context.Places (c : Context) (i : Ssa.Instr) (place : Value → Location) : Prop where
  target : ∀ t, i.target? = some t →
    c.placement.locations.get? t.id = some (place t) ∧ (Operand.ofLocation (place t)).Usable
  operand : ∀ v ∈ i.operands,
    c.placement.locations.get? v.id = some (place v) ∧ (Operand.ofLocation (place v)).Usable

/-- The code for an instruction performs it, and stops at a division if there is no
result. -/
theorem lowerInstr_code {c : Context} {i : Ssa.Instr} {place : Value → Location} (h : c.Places i place)
    (b : BlockId) (next : Option BlockId) {m : Cpu} {target : Value} {result : Except DivisionFault Word}
    (hresult : i.computed (fun v => m.read (.ofLocation (place v))) = some (target, result)) :
    ∃ code, c.lowerInstr b next i = .whole (code.map .instr) ∧ i.target? = some target ∧
      m.Performs code (.ofLocation (place target)) result ∧
      ∀ fault, result = .error fault → m.StopsAtDivision code := by
  cases i with
  | const t w | bool t w =>
    obtain ⟨rfl, rfl⟩ := Prod.mk.inj (Option.some.inj hresult)
    obtain ⟨ht, hut⟩ := h.target t rfl
    refine ⟨_, ?_, rfl, lowerConst_writes hut _ m, fun _ he => by cases he⟩
    rw [Context.lowerInstr, Context.operand_eq ht]
    rfl
  | move t v =>
    obtain ⟨rfl, rfl⟩ := Prod.mk.inj (Option.some.inj hresult)
    obtain ⟨ht, hut⟩ := h.target t rfl
    obtain ⟨hv, -⟩ := h.operand v (List.mem_singleton_self v)
    refine ⟨_, ?_, rfl, lowerMove_writes hut (.ofLocation (place v)) m, fun _ he => by cases he⟩
    rw [Context.lowerInstr, Context.operand_eq ht, Context.operand_eq hv]
    rfl
  | unary t op v =>
    obtain ⟨rfl, rfl⟩ := Prod.mk.inj (Option.some.inj hresult)
    obtain ⟨ht, hut⟩ := h.target t rfl
    obtain ⟨hv, -⟩ := h.operand v (List.mem_singleton_self v)
    refine ⟨_, ?_, rfl, lowerUnary_writes op hut (.ofLocation (place v)) m, fun _ he => by cases he⟩
    rw [Context.lowerInstr, Context.operand_eq ht, Context.operand_eq hv]
    rfl
  | binary t op v u =>
    obtain ⟨rfl, rfl⟩ := Prod.mk.inj (Option.some.inj hresult)
    obtain ⟨ht, hut⟩ := h.target t rfl
    obtain ⟨hv, huv⟩ := h.operand v List.mem_cons_self
    obtain ⟨hu, huu⟩ := h.operand u (List.mem_cons_of_mem v (List.mem_singleton_self u))
    refine ⟨_, ?_, rfl, lowerBinary_performs op hut huv huu m, fun _ => lowerBinary_stops _ _ huu⟩
    rw [Context.lowerInstr, Context.operand_eq ht, Context.operand_eq hv, Context.operand_eq hu]
    rfl
  | phi | jump | branch | ret => cases hresult

/-- **The code for an instruction computes it, wherever its values are.** All places
may coincide, and the processor may be in any state. If the instruction has a result,
the code runs to its end and leaves the result at the place of the target; it changes
no other register but temporaries, no byte outside the word of the target, and so no
place that does not coincide with the target. If there is no result, it stops at a
division that faults, and up to there only temporaries have changed. -/
theorem lowerInstr_computes {c : Context} {i : Ssa.Instr} {place : Value → Location} (h : c.Places i place)
    (b : BlockId) (next : Option BlockId) (m : Cpu) {target : Value} {result : Except DivisionFault Word}
    (hresult : i.computed (fun v => m.read (.ofLocation (place v))) = some (target, result))
    (program rest : Listing) :
    ∃ code : List Instr, c.lowerInstr b next i = .whole (code.map .instr) ∧
      (∀ w, result = .ok w → ∃ m',
        Machine.Steps program code.length ⟨m, code.map .instr ++ rest⟩ ⟨m', rest⟩ ∧
        m'.read (.ofLocation (place target)) = w ∧
        (∀ r, r ∉ temporaries → place target ≠ .reg r → m'.regs r = m.regs r) ∧
        (∀ x, ¬ m.Covers (.ofLocation (place target)) x → m'.memory x = m.memory x) ∧
        ∀ other, (Operand.ofLocation other).Usable → ¬ other.Coincides (place target) →
          m'.read (.ofLocation other) = m.read (.ofLocation other)) ∧
      ∀ fault, result = .error fault → ∃ before divisor after m',
        code = before ++ .idiv divisor :: after ∧
        Machine.Steps program before.length ⟨m, code.map .instr ++ rest⟩
          ⟨m', .instr (.idiv divisor) :: (after.map .instr ++ rest)⟩ ∧
        (∀ r, r ∉ temporaries → m'.regs r = m.regs r) ∧ m'.memory = m.memory ∧
        Machine.step program ⟨m', .instr (.idiv divisor) :: (after.map .instr ++ rest)⟩ = .error .fault := by
  obtain ⟨code, hcode, htarget, hperforms, hstops⟩ := lowerInstr_code h b next hresult
  refine ⟨code, hcode, fun w hw => ?_, fun fault hfault => ?_⟩
  · obtain ⟨m', hrun, hwrites⟩ : ∃ m', runAll code m = .next m' ∧ m.Writes (.ofLocation (place target)) w m' := by
      rw [hw] at hperforms
      exact hperforms
    refine ⟨m', Machine.steps_runAll hrun, hwrites.value, fun r hr hne => ?_, hwrites.memory,
      fun other hother => hwrites.read_of_apart (h.target target htarget).2 hother⟩
    refine hwrites.regs r hr fun heq => hne ?_
    cases hp : place target with
    | reg q =>
      rw [hp] at heq
      exact congrArg Location.reg (Operand.reg.inj heq)
    | slot n =>
      rw [hp] at heq
      cases heq
  · obtain ⟨before, divisor, after, m', rfl, hrun, hchanges, heffect⟩ := hstops fault hfault
    refine ⟨before, divisor, after, m', rfl, ?_, hchanges.regs, hchanges.memory, ?_⟩
    · rw [List.map_append, List.append_assoc]
      exact Machine.steps_runAll hrun
    · simp only [Machine.step, heffect]

/-- Two values in `r12`, one in `rbx`, and one at a slot so far away that its distance
does not fit into 32 bits. -/
def crowded : Context where
  linear := ⟨.empty "f" .int false, []⟩
  placement := ⟨[(0, .reg .r12), (1, .slot 700000000), (2, .reg .r12), (3, .reg .rbx)], 0, .empty⟩
  labels := []

/-- The places of `crowded`. -/
def crowdedPlace (v : Value) : Location := (crowded.placement.locations.get? v.id).getD (.reg .rbx)

/-- Five in `r12`, three at each slot, and zero everywhere else. -/
def crowdedCpu : Cpu := ⟨fun r => if r = .r12 then 5 else 0, fun x => if x.toNat % 8 = 0 then 3 else 0, none⟩

/-- The difference of the slot and `r12` replaces its own right operand. The quotient
of the slot and `rbx` faults, and `r12`, where it was to go, still holds five. -/
theorem crowded_computes :
    (∃ (code : List Instr) (m' : Cpu),
      crowded.lowerInstr 0 none (.binary ⟨2, .int⟩ .sub ⟨1, .int⟩ ⟨0, .int⟩) = .whole (code.map .instr) ∧
      Machine.Steps [] code.length ⟨crowdedCpu, code.map .instr ++ []⟩ ⟨m', []⟩ ∧
      m'.read (.reg .r12) = -2 ∧ m'.read (.ofLocation (.slot 700000000)) = 3) ∧
    ∃ (code before : List Instr) (divisor : Reg) (after : List Instr) (m' : Cpu),
      crowded.lowerInstr 0 none (.binary ⟨2, .int⟩ .div ⟨1, .int⟩ ⟨3, .int⟩) = .whole (code.map .instr) ∧
      code = before ++ .idiv divisor :: after ∧ m'.regs .r12 = 5 ∧
      Machine.Steps [] before.length ⟨crowdedCpu, code.map .instr ++ []⟩
        ⟨m', .instr (.idiv divisor) :: (after.map .instr ++ [])⟩ := by
  have hplaces : ∀ op u, u ∈ [0, 3] →
      crowded.Places (.binary ⟨2, .int⟩ op ⟨1, .int⟩ ⟨u, .int⟩) crowdedPlace := by
    intro op u hu
    refine ⟨fun t ht => ?_, fun v hv => ?_⟩
    · obtain rfl := Option.some.inj ht
      exact ⟨rfl, (by decide : Reg.r12 ∈ Reg.pool)⟩
    · simp only [Ssa.Instr.operands, List.mem_cons, List.not_mem_nil, or_false] at hv hu
      rcases hv with rfl | rfl
      · exact ⟨rfl, trivial⟩
      · rcases hu with rfl | rfl
        · exact ⟨rfl, (by decide : Reg.r12 ∈ Reg.pool)⟩
        · exact ⟨rfl, (by decide : Reg.rbx ∈ Reg.pool)⟩
  have hslot : crowdedCpu.read (.ofLocation (.slot 700000000)) = 3 := by decide +kernel
  constructor
  · have hresult : (Ssa.Instr.binary ⟨2, .int⟩ .sub ⟨1, .int⟩ ⟨0, .int⟩).computed
        (fun v => crowdedCpu.read (.ofLocation (crowdedPlace v))) = some (⟨2, .int⟩, .ok (-2)) := by
      decide +kernel
    obtain ⟨code, hcode, hok, -⟩ :=
      lowerInstr_computes (hplaces .sub 0 (by decide)) 0 none crowdedCpu hresult [] []
    obtain ⟨m', hsteps, hvalue, -, -, hothers⟩ := hok _ rfl
    exact ⟨code, m', hcode, hsteps, hvalue, (hothers (.slot 700000000) trivial id).trans hslot⟩
  · have hresult : (Ssa.Instr.binary ⟨2, .int⟩ .div ⟨1, .int⟩ ⟨3, .int⟩).computed
        (fun v => crowdedCpu.read (.ofLocation (crowdedPlace v))) = some (⟨2, .int⟩, .error .byZero) := by
      decide +kernel
    obtain ⟨code, hcode, -, hfault⟩ :=
      lowerInstr_computes (hplaces .div 3 (by decide)) 0 none crowdedCpu hresult [] []
    obtain ⟨before, divisor, after, m', hdivision, hsteps, hregs, -⟩ := hfault _ rfl
    exact ⟨code, before, divisor, after, m', hcode, hdivision, hregs .r12 (by decide), hsteps⟩

end Asm
end Chordal
