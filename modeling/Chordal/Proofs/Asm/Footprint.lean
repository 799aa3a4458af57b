/-
# What code touches

Which registers an instruction changes, which bytes it writes, and which word of the
frame it works on can be read off the instruction. Code for one operation keeps to the
places of values: it changes registers that no value is kept in and those that the
placement has in use, and it works on slots below the number of slots. It neither
pushes nor pops, and it does not leave the function.

Key definitions: `bytes`, `below`, `Instr.changed`, `Instr.written`, `Instr.frame?`, `Instr.Tame`.
Key theorems: `Instr.effect_regs`, `Instr.effect_memory`, `RegFile.allocate_records`,
`Tame.lowerBinary`.
-/
import Mathlib
import Chordal.Proofs.Asm.Labels

namespace Chordal

/-! ### Registers in use -/

/-- The registers in which values have their places are in use, and only registers for
values are. -/
structure Placement.Records (p : Placement) : Prop where
  place : ∀ {id r}, p.locations.get? id = some (.reg r) → p.used.contains r = true
  pool : ∀ {r}, p.used.contains r = true → r ∈ Reg.pool

theorem Placement.mem_calleeSaved {p : Placement} {r : Reg} :
    r ∈ p.calleeSaved ↔ p.used.contains r = true ∧ r.isCalleeSaved = true := by
  have hall : r ∈ Reg.all := by cases r <;> decide
  simp [Placement.calleeSaved, RegSet.calleeSaved, RegSet.toList, hall, and_comm]

theorem Placement.nodup_calleeSaved (p : Placement) : p.calleeSaved.Nodup :=
  ((by decide : Reg.all.Nodup).filter _).filter _

namespace RegFile

theorem allocate_records {file file' : RegFile} {g : Interference.Graph} {a : Allocation}
    (hpool : ∀ r ∈ file.pool, r ∈ Reg.pool) (h : file.allocate g = .ok (a, file')) : a.placement.Records := by
  obtain ⟨order, -, h⟩ := bind_eq_ok.mp h
  obtain ⟨colors, -, rfl, -⟩ := bind_pure_pair h
  have hused := contains_placeAll colors file.reset
  refine ⟨fun {id r} hloc => ?_, fun {r} hr => ?_⟩
  · rw [show (file.reset.placeAll colors).1 = _ from (placeAll_eq colors file.reset).1] at hloc
    obtain ⟨x, hx, heq⟩ := List.mem_map.mp (IdMap.mem_of_get? hloc)
    exact (hused r).mpr (Or.inr ⟨x, hx, placeOf_eq_reg.mp (congrArg Prod.snd heq)⟩)
  · rcases (hused r).mp hr with hr | ⟨x, -, hx⟩
    · simp [reset, RegSet.empty, RegSet.contains] at hr
    · exact hpool r (List.mem_of_getElem? hx)

end RegFile

namespace Asm

/-! ### Bytes -/

/-- So many bytes from an address on. -/
def bytes (a : BitVec 64) (n : Nat) : Set (BitVec 64) := {x | (x - a).toNat < n}

/-- The address so many bytes below another. -/
def below (top : BitVec 64) (k : Nat) : BitVec 64 := top - BitVec.ofNat 64 k

theorem below_sub (top : BitVec 64) (k n : Nat) : below top k - BitVec.ofNat 64 n = below top (k + n) := by
  unfold below
  bv_omega

theorem below_add (top : BitVec 64) (k n : Nat) : below top (k + n) + BitVec.ofNat 64 n = below top k := by
  unfold below
  bv_omega

/-- Bytes below an address go by their distance from it. -/
theorem mem_bytes_below {top x : BitVec 64} {k n : Nat} (hn : n ≤ k) (hk : k < 2 ^ 40) :
    x ∈ bytes (below top k) n ↔ k - n < (top - x).toNat ∧ (top - x).toNat ≤ k := by
  show (x - below top k).toNat < n ↔ _
  unfold below
  bv_omega

theorem disjoint_bytes_below {top : BitVec 64} {k n j i : Nat} (hn : n ≤ k) (hk : k < 2 ^ 40) (hi : i ≤ j)
    (hj : j < 2 ^ 40) (h : k + i ≤ j ∨ j + n ≤ k) : Disjoint (bytes (below top k) n) (bytes (below top j) i) := by
  refine Set.disjoint_left.mpr fun x hx hx' => ?_
  rw [mem_bytes_below hn hk] at hx
  rw [mem_bytes_below hi hj] at hx'
  omega

/-- What is read depends on the bytes that are read. -/
theorem Memory.load_eq_of_bytes {m m' : Memory} {a : BitVec 64} {k : Nat} (hk : k < 2 ^ 64)
    (h : ∀ x ∈ bytes a ((k + 7) / 8), m' x = m x) : m'.load a k = m.load a k := by
  refine BitVec.eq_of_getLsbD_eq fun i hi => ?_
  rw [getLsbD_load _ _ hi, getLsbD_load _ _ hi, h]
  show (a + BitVec.ofNat 64 (i / 8) - a).toNat < (k + 7) / 8
  rw [BitVec.add_comm, BitVec.add_sub_cancel, BitVec.toNat_ofNat, Nat.mod_eq_of_lt (by omega)]
  omega

/-! ### Instructions -/

namespace Instr

/-- The registers that an instruction changes. -/
def changed : Instr → List Reg
  | .mov target _ | .movImm target _ | .mov64 target _ | .movzx target _ | .alu _ target _ => [target]
  | .xorImm target _ | .neg target | .not target | .shl target | .sar target | .setcc _ target => [target]
  | .add64 target _ | .sub64 target _ => [target]
  | .cltd => [.rdx]
  | .idiv _ => [.rax, .rdx]
  | .push _ => [.rsp]
  | .pop target => [.rsp, target]
  | .store _ _ | .cmp _ _ | .cmpImm _ _ | .ret | .syscall | .call _ | .jmp _ | .jcc _ _ => []

/-- The bytes that an instruction writes. -/
def written (m : Cpu) : Instr → Set (BitVec 64)
  | .store displacement _ => bytes (m.address displacement) 4
  | .push _ => bytes (m.regs .rsp - 8) 8
  | _ => ∅

/-- The word of the frame that an instruction reads or writes, by its distance from the
frame pointer. -/
def frame? : Instr → Option Int
  | .mov _ (.frame displacement) | .alu _ _ (.frame displacement) | .cmp _ (.frame displacement) => some displacement
  | .store displacement _ => some displacement
  | _ => none

/-- Whether an instruction moves the stack or leaves the function. -/
def leaves : Instr → Bool
  | .push _ | .pop _ | .ret | .syscall | .call _ => true
  | _ => false

variable {i : Instr} {m m' : Cpu}

theorem effect_regs (h : i.effect m = .next m') {r : Reg} (hr : r ∉ i.changed) : m'.regs r = m.regs r := by
  cases i with
  | mov | movImm | mov64 | movzx | alu | xorImm | neg | not | shl | sar | add64 | sub64 | cltd =>
    obtain rfl := Effect.next.inj h
    exact m.regs_set_of_ne _ (List.mem_singleton.not.mp hr)
  | store | cmp | cmpImm =>
    obtain rfl := Effect.next.inj h
    rfl
  | setcc cond target =>
    simp only [effect] at h
    split at h
    · obtain rfl := Effect.next.inj h
      exact m.regs_set_of_ne _ (List.mem_singleton.not.mp hr)
    · cases h
  | idiv divisor =>
    simp only [effect, Cpu.divide] at h
    split_ifs at h
    obtain rfl := Effect.next.inj h
    obtain ⟨hrax, hrdx⟩ : r ≠ .rax ∧ r ≠ .rdx := by simpa [changed] using hr
    exact (Cpu.regs_set_of_ne _ _ hrdx).trans (m.regs_set_of_ne _ hrax)
  | push source =>
    obtain rfl := Effect.next.inj h
    exact Cpu.regs_set_of_ne _ _ (List.mem_singleton.not.mp hr)
  | pop target =>
    obtain rfl := Effect.next.inj h
    obtain ⟨hrsp, htarget⟩ : r ≠ .rsp ∧ r ≠ target := by simpa [changed] using hr
    exact (Cpu.regs_set_of_ne _ _ htarget).trans (m.regs_set_of_ne _ hrsp)
  | jcc cond target =>
    simp only [effect] at h
    split at h
    · split_ifs at h
      obtain rfl := Effect.next.inj h
      rfl
    · cases h
  | ret | syscall | call | jmp => cases h

theorem effect_memory (h : i.effect m = .next m') {x : BitVec 64} (hx : x ∉ i.written m) :
    m'.memory x = m.memory x := by
  cases i with
  | mov | movImm | mov64 | movzx | alu | xorImm | neg | not | shl | sar | add64 | sub64 | cltd | cmp | cmpImm | pop =>
    obtain rfl := Effect.next.inj h
    rfl
  | store =>
    obtain rfl := Effect.next.inj h
    exact if_neg hx
  | push =>
    obtain rfl := Effect.next.inj h
    exact if_neg hx
  | setcc =>
    simp only [effect] at h
    split at h
    · obtain rfl := Effect.next.inj h
      rfl
    · cases h
  | idiv divisor =>
    simp only [effect, Cpu.divide] at h
    split_ifs at h
    obtain rfl := Effect.next.inj h
    rfl
  | jcc =>
    simp only [effect] at h
    split at h
    · split_ifs at h
      obtain rfl := Effect.next.inj h
      rfl
    · cases h
  | ret | syscall | call | jmp => cases h

theorem target?_of_effect {a : Nat} (h : i.effect m = .jump a) : i.target? = some a := by
  cases i with
  | jmp target => exact congrArg some (Effect.jump.inj h)
  | jcc cond target =>
    simp only [effect] at h
    split at h
    · split_ifs at h
      exact congrArg some (Effect.jump.inj h)
    · cases h
  | setcc =>
    simp only [effect] at h
    split at h <;> cases h
  | idiv =>
    simp only [effect, Cpu.divide] at h
    split_ifs at h
  | _ => cases h

end Instr

/-! ### Code that keeps to the places of values -/

open Cpu (temporaries)

/-- A register that code may work in: no value is kept in it, or it is in use. -/
def Working (p : Placement) (r : Reg) : Prop := r ∈ temporaries ∨ p.used.contains r = true

/-- An operand in the frame is a slot. -/
def Operand.Within (p : Placement) : Operand → Prop
  | .reg _ => True
  | .frame displacement => ∃ n < p.stackSlots, displacement = Location.slotOffset n

/-- An operand that stands for a place of the placement. -/
structure Operand.Placed (p : Placement) (o : Operand) : Prop where
  within : o.Within p
  working : Working p (workReg o)

/-- An instruction that keeps to the places of values. -/
structure Instr.Tame (p : Placement) (i : Instr) : Prop where
  regs : ∀ r ∈ i.changed, Working p r
  frame : ∀ displacement, i.frame? = some displacement → ∃ n < p.stackSlots, displacement = Location.slotOffset n
  stays : i.leaves = false

/-- Code that keeps to the places of values. -/
def Tame (p : Placement) (code : List Instr) : Prop := ∀ i ∈ code, i.Tame p

section Tame

variable {p : Placement}

theorem working_of_temporary {r : Reg} (h : r ∈ temporaries) : Working p r := Or.inl h

theorem placed_ofLocation (hfits : p.Fits) (hrecords : p.Records) {id : Nat} {loc : Location}
    (h : p.locations.get? id = some loc) : (Operand.ofLocation loc).Placed p := by
  cases loc with
  | reg r => exact ⟨trivial, Or.inr (hrecords.place h)⟩
  | slot n => exact ⟨⟨n, hfits.slot h, rfl⟩, working_of_temporary (by decide : Reg.scratch ∈ temporaries)⟩

namespace Instr

variable {r : Reg} {o : Operand}

/-- Instructions on one register. -/
theorem tame_of_changed {i : Instr} (hchanged : i.changed = [r]) (hframe : i.frame? = none)
    (hstays : i.leaves = false) (hr : Working p r) : i.Tame p := by
  refine ⟨fun q hq => ?_, fun d hd => ?_, hstays⟩
  · rw [hchanged, List.mem_singleton] at hq
    rwa [hq]
  · rw [hframe] at hd
    cases hd

/-- Instructions that read an operand. -/
theorem tame_of_operand {i : Operand → Instr} (hreg : ∀ r, (i (.reg r)).frame? = none)
    (hframe : ∀ d, (i (.frame d)).frame? = some d) (hchanged : ∀ r ∈ (i o).changed, Working p r)
    (hstays : (i o).leaves = false) (ho : o.Within p) : (i o).Tame p := by
  refine ⟨hchanged, fun d hd => ?_, hstays⟩
  cases o with
  | reg r =>
    rw [hreg] at hd
    cases hd
  | frame e =>
    rw [hframe] at hd
    obtain rfl := Option.some.inj hd
    exact ho

theorem tame_mov (hr : Working p r) (ho : o.Within p) : (Instr.mov r o).Tame p :=
  tame_of_operand (fun _ => rfl) (fun _ => rfl) (fun _ hq => List.mem_singleton.mp hq ▸ hr) rfl ho

theorem tame_alu {op : AluOp} (hr : Working p r) (ho : o.Within p) : (Instr.alu op r o).Tame p :=
  tame_of_operand (fun _ => rfl) (fun _ => rfl) (fun _ hq => List.mem_singleton.mp hq ▸ hr) rfl ho

theorem tame_cmp (ho : o.Within p) : (Instr.cmp r o).Tame p :=
  tame_of_operand (fun _ => rfl) (fun _ => rfl) (by simp [changed]) rfl ho

theorem tame_store {d : Int} (ho : (Operand.frame d).Within p) : (Instr.store d r).Tame p := by
  refine ⟨by simp [changed], fun e he => ?_, rfl⟩
  obtain rfl := Option.some.inj he
  exact ho

end Instr

namespace Tame

theorem append {a b : List Instr} (ha : Tame p a) (hb : Tame p b) : Tame p (a ++ b) := fun i hi =>
  (List.mem_append.mp hi).elim (ha i) (hb i)

theorem cons {i : Instr} {code : List Instr} (hi : i.Tame p) (h : Tame p code) : Tame p (i :: code) :=
  List.forall_mem_cons.mpr ⟨hi, h⟩

theorem nil : Tame p [] := fun _ hi => absurd hi List.not_mem_nil

theorem single {i : Instr} (hi : i.Tame p) : Tame p [i] := cons hi nil

theorem load {r : Reg} {source : Operand} (hr : Working p r) (hs : source.Within p) : Tame p (Asm.load r source) := by
  unfold Asm.load
  split_ifs
  · exact nil
  · exact single (Instr.tame_mov hr hs)

theorem save {target : Operand} (ht : target.Placed p) (r : Reg) : Tame p (Asm.save target r) := by
  cases target with
  | reg t =>
    rw [Asm.save]
    split_ifs
    · exact nil
    · exact single (Instr.tame_mov ht.working trivial)
  | frame d => exact single (Instr.tame_store ht.within)

theorem stage {source : Operand} (hs : source.Within p) : Tame p (Asm.stage source) := by
  cases source with
  | reg r => exact nil
  | frame d => exact single (Instr.tame_mov (working_of_temporary (by decide)) hs)

variable {target left right source : Operand}

theorem lowerConst (ht : target.Placed p) (value : Word) : Tame p (Asm.lowerConst target value) :=
  cons (Instr.tame_of_changed rfl rfl rfl ht.working) (save ht _)

theorem lowerMove (ht : target.Placed p) (hs : source.Placed p) : Tame p (Asm.lowerMove target source) := by
  unfold Asm.lowerMove
  split_ifs
  · exact nil
  · cases target with
    | reg r => exact load ht.working hs.within
    | frame d => exact (stage hs.within).append (save ht _)

theorem lowerUnary (op : UnaryOp) (ht : target.Placed p) (hs : source.Placed p) :
    Tame p (Asm.lowerUnary op target source) := by
  have hop : (unaryInstr (workReg target) op).Tame p := by
    cases op <;> exact Instr.tame_of_changed rfl rfl rfl ht.working
  exact ((load ht.working hs.within).append (single hop)).append (save ht _)

section

variable (ht : target.Placed p) (hl : left.Placed p) (hr : right.Placed p)

include ht hl hr

theorem lowerDivision (result : Reg) :
    Tame p (Asm.lowerDivision result target left right) := by
  have hrax : Working p .rax := working_of_temporary (by decide)
  have hrdx : Working p .rdx := working_of_temporary (by decide)
  have hidiv : (Instr.idiv (workReg right)).Tame p := by
    refine ⟨fun q hq => ?_, fun d hd => (nomatch hd), rfl⟩
    rcases List.mem_pair.mp hq with rfl | rfl
    · exact hrax
    · exact hrdx
  exact ((((load hrax hl.within).append (single (Instr.tame_of_changed rfl rfl rfl hrdx))).append
    (stage hr.within)).append (single hidiv)).append (save ht result)

theorem lowerShift {shift : Reg → Instr} (hshift : ∀ r, Working p r → (shift r).Tame p) :
    Tame p (Asm.lowerShift shift target left right) :=
  (((load (working_of_temporary (by decide)) hr.within).append (load ht.working hl.within)).append
    (single (hshift _ ht.working))).append (save ht _)

theorem lowerComparison (cond : Cond) :
    Tame p (Asm.lowerComparison cond target left right) :=
  ((stage hl.within).append (cons (Instr.tame_cmp hr.within) (cons (Instr.tame_of_changed rfl rfl rfl ht.working)
    (single (Instr.tame_of_changed rfl rfl rfl ht.working))))).append (save ht _)

theorem lowerAlu (op : AluOp) (commutes : Bool) :
    Tame p (Asm.lowerAlu op commutes target left right) := by
  have hthrough : ∀ r, Working p r → Tame p (Asm.load r left ++ [Instr.alu op r right] ++ Asm.save target r) :=
    fun r hw => ((load hw hl.within).append (single (Instr.tame_alu hw hr.within))).append (save ht r)
  have hscratch : Working p Reg.scratch := working_of_temporary (by decide)
  cases target with
  | reg t =>
    unfold Asm.lowerAlu
    dsimp only
    split_ifs
    · exact single (Instr.tame_alu ht.working hr.within)
    · exact single (Instr.tame_alu ht.working hl.within)
    · exact hthrough _ hscratch
    · exact hthrough _ ht.working
  | frame d => exact hthrough _ hscratch

theorem lowerBinary (op : BinaryOp) :
    Tame p (Asm.lowerBinary op target left right) := by
  cases op with
  | div | mod => exact lowerDivision ht hl hr _
  | shl | shr => exact lowerShift ht hl hr fun r hw => Instr.tame_of_changed rfl rfl rfl hw
  | lt | le | gt | ge | eq | ne => exact lowerComparison ht hl hr _
  | add | sub | mul | and | or | xor => exact lowerAlu ht hl hr _ _

end

end Tame

end Tame

end Asm
end Chordal
