/-
# What lowered operations compute

The code for one operation reads its operands, works in registers that hold no
values and in the register of its target, and writes its target last. So it
computes the operation whatever the places are: a place may be a target and an
operand at once, since operands are read before the target is written, or are where
the code does not write. Everything else stays: the registers that values are kept
in, and the memory outside the place of the target.

Key definitions: `Instr.runAll`, `Cpu.Changes`, `Cpu.Writes`, `Cpu.Performs`, `Operand.Usable`.
Key theorems: `lowerConst_writes`, `lowerMove_writes`, `lowerUnary_writes`, `lowerBinary_performs`.
-/
import Mathlib
import Chordal.Asm.Lowering
import Chordal.Proofs.Asm.Machine

namespace Chordal.Asm

/-! ### Code without jumps -/

/-- Runs instructions one after another, up to one that does not lead on. -/
def Instr.runAll : List Instr → Cpu → Effect
  | [], m => .next m
  | i :: rest, m =>
    match i.effect m with
    | .next m' => runAll rest m'
    | e => e

open Instr (runAll)

variable {m : Cpu} {r : Reg} {o target left right : Operand} {rs : List Reg} {w : Word}

theorem runAll_cons {i : Instr} {m' : Cpu} (rest : List Instr) (h : i.effect m = .next m') :
    runAll (i :: rest) m = runAll rest m' := by
  rw [runAll, h]

theorem runAll_append {c : List Instr} (d : List Instr) : ∀ {m m' : Cpu}, runAll c m = .next m' →
    runAll (c ++ d) m = runAll d m' := by
  induction c with
  | nil =>
    intro m m' h
    obtain rfl := Effect.next.inj h
    rfl
  | cons i c ih =>
    intro m m' h
    rw [runAll] at h
    rw [List.cons_append, runAll]
    cases hi : i.effect m with
    | next m₁ =>
      rw [hi] at h
      exact ih h
    | jump | returned | fault | outside =>
      rw [hi] at h
      cases h

/-- A fault is not undone. -/
theorem runAll_append_fault {c : List Instr} (d : List Instr) : ∀ {m : Cpu}, runAll c m = .fault →
    runAll (c ++ d) m = .fault := by
  induction c with
  | nil =>
    intro m h
    cases h
  | cons i c ih =>
    intro m h
    rw [runAll] at h
    rw [List.cons_append, runAll]
    cases hi : i.effect m with
    | next m₁ =>
      rw [hi] at h
      exact ih h
    | fault => rfl
    | jump | returned | outside =>
      rw [hi] at h
      cases h

theorem Machine.steps_runAll {program rest : Listing} : ∀ {code : List Instr} {m m' : Cpu},
    runAll code m = .next m' →
    Machine.Steps program code.length ⟨m, code.map .instr ++ rest⟩ ⟨m', rest⟩ := by
  intro code
  induction code with
  | nil =>
    intro m m' h
    obtain rfl := Effect.next.inj h
    exact .refl _
  | cons i code ih =>
    intro m m' h
    rw [runAll] at h
    cases hi : i.effect m with
    | next m₁ =>
      rw [hi] at h
      refine .head ?_ (ih h)
      simp only [Machine.step, List.map_cons, List.cons_append, hi]
    | jump | returned | fault | outside =>
      rw [hi] at h
      cases h

theorem Machine.halts_runAll {program rest : Listing} : ∀ {code : List Instr} {m : Cpu},
    runAll code m = .fault → Machine.Halts program ⟨m, code.map .instr ++ rest⟩ .fault := by
  intro code
  induction code with
  | nil =>
    intro m h
    cases h
  | cons i code ih =>
    intro m h
    rw [runAll] at h
    cases hi : i.effect m with
    | next m₁ =>
      rw [hi] at h
      refine Halts.prepend (.one ?_) (ih h)
      simp only [Machine.step, List.map_cons, List.cons_append, hi]
    | fault =>
      refine ⟨0, _, .refl _, ?_⟩
      simp only [Machine.step, List.map_cons, List.cons_append, hi]
    | jump | returned | outside =>
      rw [hi] at h
      cases h

/-! ### What stays -/

/-- Only the given registers, and flags, change. -/
structure Cpu.Changes (rs : List Reg) (m m' : Cpu) : Prop where
  regs : ∀ r, r ∉ rs → m'.regs r = m.regs r
  memory : m'.memory = m.memory

namespace Cpu

@[simp] theorem regs_set_self (m : Cpu) (r : Reg) (w : BitVec 64) : (m.set r w).regs r = w := by
  simp [set]

theorem regs_set_of_ne (m : Cpu) {r q : Reg} (w : BitVec 64) (h : q ≠ r) : (m.set r w).regs q = m.regs q := by
  simp [set, h]

@[simp] theorem low_setLow_self (m : Cpu) (r : Reg) (w : Word) : (m.setLow r w).low r = w := by
  unfold low setLow
  rw [regs_set_self]
  exact BitVec.setWidth_setWidth_of_le w (by decide)

theorem low_setLow_of_ne (m : Cpu) {r q : Reg} (w : Word) (h : q ≠ r) : (m.setLow r w).low q = m.low q := by
  unfold low setLow
  rw [regs_set_of_ne m _ h]

@[simp] theorem low_withFlags (m : Cpu) (f : Option Flags) (r : Reg) : (m.withFlags f).low r = m.low r := rfl

theorem byte_setByte (m : Cpu) (r : Reg) (w : BitVec 8) : ((m.setByte r w).regs r).setWidth 8 = w := by
  unfold setByte
  rw [regs_set_self]
  exact (BitVec.setWidth_append (k := 8)).trans (by simp)

namespace Changes

variable {rs rs' : List Reg} {m m' m'' : Cpu}

theorem refl (rs : List Reg) (m : Cpu) : Changes rs m m := ⟨fun _ _ => rfl, rfl⟩

theorem trans (h : Changes rs m m') (h' : Changes rs m' m'') : Changes rs m m'' :=
  ⟨fun r hr => (h'.regs r hr).trans (h.regs r hr), h'.memory.trans h.memory⟩

theorem mono (h : Changes rs m m') (hsub : ∀ r ∈ rs, r ∈ rs') : Changes rs' m m' :=
  ⟨fun r hr => h.regs r fun hmem => hr (hsub r hmem), h.memory⟩

theorem set {r : Reg} (hr : r ∈ rs) (m : Cpu) (w : BitVec 64) : Changes rs m (m.set r w) :=
  ⟨fun _ hq => regs_set_of_ne m w fun he => hq (he ▸ hr), rfl⟩

theorem withFlags (h : Changes rs m m') (f : Option Flags) : Changes rs m (m'.withFlags f) :=
  ⟨h.regs, h.memory⟩

theorem low (h : Changes rs m m') {r : Reg} (hr : r ∉ rs) : m'.low r = m.low r := by
  unfold Cpu.low
  rw [h.regs r hr]

end Changes

/-- The registers that code works in and no value is kept in. -/
def temporaries : List Reg := [.rax, .rcx, .rdx, .r11]

end Cpu

open Cpu (temporaries)

/-- An operand that stands for a place of a value. -/
def Operand.Usable : Operand → Prop
  | .reg r => r ∈ Reg.pool
  | .frame _ => True

theorem pool_disjoint (h : r ∈ Reg.pool) : r ∉ .rbp :: temporaries := by
  revert r
  decide

theorem Operand.Usable.ne_reg (h : o.Usable) (hr : r ∈ .rbp :: temporaries) : o ≠ .reg r := by
  rintro rfl
  exact pool_disjoint h hr

/-- The register an operand is worked on in: a temporary, or one for values. -/
theorem workReg_ne_rbp (h : o.Usable) : workReg o ≠ .rbp := by
  cases o with
  | reg r => exact fun he => h.ne_reg (r := .rbp) (by decide) (congrArg Operand.reg he)
  | frame d => exact (by decide : Reg.scratch ≠ .rbp)

/-- An operand reads the same if its register, or the frame pointer, is not changed. -/
theorem Cpu.Changes.read {m' : Cpu} (h : Changes rs m m') (hbp : .rbp ∉ rs)
    (ho : ∀ r, o = .reg r → r ∉ rs) : m'.read o = m.read o := by
  cases o with
  | reg r => exact h.low (ho r rfl)
  | frame d =>
    simp only [Cpu.read, Cpu.address]
    rw [h.memory, h.regs .rbp hbp]

/-- The bytes of a word of the frame. -/
def Cpu.Covers (m : Cpu) (o : Operand) (x : BitVec 64) : Prop :=
  ∃ d, o = .frame d ∧ (x - m.address d).toNat < 4

/-- A word is written to a place, and what else holds values stays. -/
structure Cpu.Writes (m : Cpu) (target : Operand) (w : Word) (m' : Cpu) : Prop where
  value : m'.read target = w
  regs : ∀ r, r ∉ temporaries → target ≠ .reg r → m'.regs r = m.regs r
  memory : ∀ x, ¬ m.Covers target x → m'.memory x = m.memory x

/-- Code gives a place the result of an operation, or faults if there is none. -/
def Cpu.Performs (m : Cpu) (code : List Instr) (target : Operand) : Except DivisionFault Word → Prop
  | .ok w => ∃ m', runAll code m = .next m' ∧ m.Writes target w m'
  | .error _ => runAll code m = .fault

/-! ### Loads and stores -/

theorem load_changes (r : Reg) (source : Operand) (m : Cpu) :
    ∃ m', runAll (load r source) m = .next m' ∧ m'.low r = m.read source ∧ Cpu.Changes [r] m m' := by
  unfold load
  split_ifs with h
  · exact ⟨m, rfl, by rw [h]; rfl, .refl _ m⟩
  · exact ⟨m.setLow r (m.read source), rfl, m.low_setLow_self r _, .set (List.mem_singleton_self r) m _⟩

theorem stage_changes (source : Operand) (m : Cpu) :
    ∃ m', runAll (stage source) m = .next m' ∧ m'.low (workReg source) = m.read source ∧
      Cpu.Changes [.r11] m m' := by
  cases source with
  | reg r => exact ⟨m, rfl, rfl, .refl _ m⟩
  | frame d =>
    exact ⟨m.setLow .r11 (m.read (.frame d)), rfl, m.low_setLow_self .r11 _,
      .set (List.mem_singleton_self _) m _⟩

/-- The last step of an operation: the target is written from a register, after
only temporaries and the register of the target were worked in. -/
theorem save_writes {m₁ : Cpu} (ht : target.Usable)
    (h : Cpu.Changes (workReg target :: temporaries) m m₁) (hw : m₁.low r = w) :
    ∃ m', runAll (save target r) m₁ = .next m' ∧ m.Writes target w m' := by
  cases target with
  | reg t =>
    have hregs : ∀ q, q ∉ temporaries → Operand.reg t ≠ .reg q → q ∉ t :: temporaries := by
      intro q hq hne hmem
      rcases List.mem_cons.mp hmem with rfl | hmem
      · exact hne rfl
      · exact hq hmem
    rw [save]
    split_ifs with htr
    · subst htr
      exact ⟨m₁, rfl, hw, fun q hq hne => h.regs q (hregs q hq hne), fun x _ => congrFun h.memory x⟩
    · refine ⟨m₁.setLow t (m₁.low r), rfl, (m₁.low_setLow_self t _).trans hw, fun q hq hne => ?_,
        fun x _ => congrFun h.memory x⟩
      rw [Cpu.setLow, Cpu.regs_set_of_ne m₁ _ fun he => hne (congrArg Operand.reg he.symm)]
      exact h.regs q (hregs q hq hne)
  | frame d =>
    have haddr : m₁.address d = m.address d := by
      unfold Cpu.address
      rw [h.regs .rbp (by decide : Reg.rbp ∉ Reg.scratch :: temporaries)]
    refine ⟨m₁.storeWord d (m₁.low r), rfl, ?_, fun q hq _ => ?_, fun x hx => ?_⟩
    · rw [← hw]
      exact m₁.memory.load_store (m₁.address d) (m₁.low r) (by decide) (by decide)
    · refine h.regs q fun hmem => ?_
      rcases List.mem_cons.mp hmem with rfl | hmem
      · exact hq (by decide : Reg.scratch ∈ temporaries)
      · exact hq hmem
    · have hx' : ¬ (x - m.address d).toNat < 4 := fun hlt => hx ⟨d, rfl, hlt⟩
      simp only [Cpu.storeWord, Memory.store, haddr]
      rw [if_neg hx']
      exact congrFun h.memory x

/-- Code leaves a word in a register and changes only the given registers. -/
def Cpu.Yields (m : Cpu) (code : List Instr) (rs : List Reg) (r : Reg) (w : Word) : Prop :=
  ∃ m', runAll code m = .next m' ∧ m'.low r = w ∧ Changes rs m m'

theorem Cpu.Yields.save {code : List Instr} (h : m.Yields code rs r w) (ht : target.Usable)
    (hrs : ∀ q ∈ rs, q ∈ workReg target :: temporaries) :
    ∃ m', runAll (code ++ Asm.save target r) m = .next m' ∧ m.Writes target w m' := by
  obtain ⟨m₁, hrun, hw, hch⟩ := h
  rw [runAll_append _ hrun]
  exact save_writes ht (hch.mono hrs) hw

/-- Another instruction behind code. -/
theorem Cpu.Yields.concat {q : Reg} {w' : Word} {code : List Instr} {i : Instr}
    (h : m.Yields code rs r w)
    (hi : ∀ m₁, m₁.low r = w → Changes rs m m₁ →
      ∃ m₂, i.effect m₁ = .next m₂ ∧ m₂.low q = w' ∧ Changes rs m₁ m₂) :
    m.Yields (code ++ [i]) rs q w' := by
  obtain ⟨m₁, hrun, hw, hch⟩ := h
  obtain ⟨m₂, hm₂, hw', hch'⟩ := hi m₁ hw hch
  refine ⟨m₂, ?_, hw', hch.trans hch'⟩
  rw [runAll_append _ hrun, runAll_cons [] hm₂]
  rfl

theorem workReg_mem (target : Operand) : ∀ q ∈ [workReg target], q ∈ workReg target :: temporaries := by
  intro q hq
  exact List.mem_cons.mpr (.inl (List.mem_singleton.mp hq))

theorem save_self (r : Reg) : save (.reg r) r = [] := if_pos rfl

/-! ### Operations -/

theorem lowerConst_writes (ht : target.Usable) (value : Word) (m : Cpu) :
    ∃ m', runAll (lowerConst target value) m = .next m' ∧ m.Writes target value m' := by
  have hy : m.Yields [.movImm (workReg target) value] [workReg target] (workReg target) value :=
    ⟨m.setLow (workReg target) value, rfl, m.low_setLow_self _ _, .set (List.mem_singleton_self _) m _⟩
  exact hy.save ht (workReg_mem target)

theorem lowerMove_writes (ht : target.Usable) (source : Operand) (m : Cpu) :
    ∃ m', runAll (lowerMove target source) m = .next m' ∧ m.Writes target (m.read source) m' := by
  unfold lowerMove
  split_ifs with h
  · exact ⟨m, rfl, by rw [h], fun _ _ _ => rfl, fun _ _ => rfl⟩
  · cases target with
    | reg r =>
      have hy : m.Yields (load r source) [r] r (m.read source) := load_changes r source m
      have := hy.save ht (workReg_mem (.reg r))
      rwa [save_self, List.append_nil] at this
    | frame d =>
      have hy : m.Yields (stage source) [.r11] (workReg source) (m.read source) := stage_changes source m
      exact hy.save ht (workReg_mem (.frame d))

theorem lowerUnary_writes (op : UnaryOp) (ht : target.Usable) (source : Operand) (m : Cpu) :
    ∃ m', runAll (lowerUnary op target source) m = .next m' ∧ m.Writes target (op.apply (m.read source)) m' := by
  have hy : m.Yields (load (workReg target) source) [workReg target] (workReg target) (m.read source) :=
    load_changes _ source m
  have hop : m.Yields (load (workReg target) source ++ [unaryInstr (workReg target) op]) [workReg target]
      (workReg target) (op.apply (m.read source)) := by
    refine hy.concat fun m₁ hw _ => ?_
    cases op with
    | neg =>
      exact ⟨_, rfl, by rw [Cpu.low_withFlags, Cpu.low_setLow_self, hw]; rfl,
        (Cpu.Changes.set (List.mem_singleton_self _) m₁ _).withFlags _⟩
    | bitNot =>
      exact ⟨_, rfl, by rw [Cpu.low_setLow_self, hw]; rfl, .set (List.mem_singleton_self _) m₁ _⟩
    | logicalNot =>
      exact ⟨_, rfl, by rw [Cpu.low_withFlags, Cpu.low_setLow_self, hw]; rfl,
        (Cpu.Changes.set (List.mem_singleton_self _) m₁ _).withFlags _⟩
  exact hop.save ht (workReg_mem target)

/-- An operation in a register. Where the right operand is in that register the
left one is too, so that bringing it there does nothing. -/
theorem alu_yields (op : AluOp) (m : Cpu) (hr : r ≠ .rbp) (h : right = .reg r → left = .reg r) :
    m.Yields (load r left ++ [.alu op r right]) [r] r (op.apply (m.read left) (m.read right)) := by
  have hy : m.Yields (load r left) [r] r (m.read left) := load_changes r left m
  obtain ⟨m₁, hrun, hw, hch⟩ := hy
  have hright : m₁.read right = m.read right := by
    by_cases he : right = .reg r
    · have hload : load r left = [] := if_pos (h he)
      rw [hload] at hrun
      rw [Effect.next.inj hrun]
    · refine hch.read (fun hmem => hr (List.mem_singleton.mp hmem).symm) fun q hq hmem => ?_
      exact he (by rw [hq, List.mem_singleton.mp hmem])
  refine ⟨(m₁.setLow r (op.apply (m₁.low r) (m₁.read right))).withFlags (op.flags (m₁.low r) (m₁.read right)),
    ?_, ?_, hch.trans ((Cpu.Changes.set (List.mem_singleton_self _) m₁ _).withFlags _)⟩
  · rw [runAll_append _ hrun]
    rfl
  · rw [Cpu.low_withFlags, Cpu.low_setLow_self, hw, hright]

theorem lowerAlu_writes (op : AluOp) {commutes : Bool}
    (hc : commutes = true → ∀ l r, op.apply l r = op.apply r l) (ht : target.Usable)
    (hr : right.Usable) (m : Cpu) :
    ∃ m', runAll (lowerAlu op commutes target left right) m = .next m' ∧
      m.Writes target (op.apply (m.read left) (m.read right)) m' := by
  have hscratch : right = .reg Reg.scratch → left = .reg Reg.scratch := fun he =>
    absurd he (hr.ne_reg (by decide))
  have hthrough := alu_yields op m (by decide : Reg.scratch ≠ .rbp) hscratch
  have hmem : ∀ q ∈ [Reg.scratch], q ∈ workReg target :: temporaries := by
    intro q hq
    rw [List.mem_singleton.mp hq]
    exact List.mem_cons_of_mem _ (by decide)
  cases target with
  | frame d => exact hthrough.save ht hmem
  | reg t =>
    have hrbp : t ≠ .rbp := workReg_ne_rbp ht
    have hdirect : ∀ {l r : Operand}, l = .reg t →
        ∃ m', runAll [.alu op t r] m = .next m' ∧
          m.Writes (.reg t) (op.apply (m.read l) (m.read r)) m' := by
      intro l r hl
      have hy : m.Yields (load t l ++ [.alu op t r]) [t] t (op.apply (m.read l) (m.read r)) :=
        alu_yields op m hrbp fun _ => hl
      have := hy.save ht (workReg_mem (.reg t))
      rwa [save_self, load, if_pos hl, List.append_nil, List.nil_append] at this
    unfold lowerAlu
    simp only
    split_ifs with hleft hright hcomm
    · exact hdirect hleft
    · rw [hc hcomm]
      exact hdirect hright
    · exact hthrough.save ht hmem
    · exact (alu_yields op m hrbp fun he => absurd he hright).save ht (workReg_mem (.reg t))

/-! ### Comparisons -/

theorem zero_ofSub (l r : Word) : (Flags.ofSub l r).zero = (l == r) := by
  unfold Flags.ofSub
  rw [Bool.eq_iff_iff, beq_iff_eq, beq_iff_eq]
  exact sub_eq_zero

/-- The sign of a difference is wrong if the difference does not fit; so the two
flags together say which word is less. -/
theorem sign_ofSub (l r : Word) : ((Flags.ofSub l r).sign != (Flags.ofSub l r).overflow) = l.slt r := by
  have hl := l.toInt_lt
  have hl' := l.le_toInt
  have hr := r.toInt_lt
  have hr' := r.le_toInt
  simp only [Flags.ofSub, BitVec.msb_eq_toInt, BitVec.ssubOverflow, BitVec.toInt_sub, BitVec.slt]
  generalize l.toInt = x at *
  generalize r.toInt = y at *
  have hb : (x - y).bmod (2 ^ 32) = x - y ∨
      (x - y).bmod (2 ^ 32) = x - y + 2 ^ 32 ∧ x - y < -2 ^ 31 ∨
      (x - y).bmod (2 ^ 32) = x - y - 2 ^ 32 ∧ 2 ^ 31 ≤ x - y := by
    rw [Int.bmod]
    omega
  grind

/-- The condition for a comparison. -/
def Cond.of? : BinaryOp → Option Cond
  | .lt => some .less
  | .le => some .lessEqual
  | .gt => some .greater
  | .ge => some .greaterEqual
  | .eq => some .equal
  | .ne => some .notEqual
  | _ => none

theorem holds_ofSub {op : BinaryOp} {cond : Cond} (h : Cond.of? op = some cond) (l r : Word) :
    op.apply l r = .ok (Word.ofBool (cond.holds (.ofSub l r))) := by
  have hz := zero_ofSub l r
  have hs := sign_ofSub l r
  have hlt : l.slt r = decide (l.toInt < r.toInt) := rfl
  have hle : l.sle r = decide (l.toInt ≤ r.toInt) := rfl
  have hgt : r.slt l = decide (r.toInt < l.toInt) := rfl
  have hge : r.sle l = decide (r.toInt ≤ l.toInt) := rfl
  have heq : (l == r) = decide (l.toInt = r.toInt) := by
    rw [Bool.eq_iff_iff, beq_iff_eq, decide_eq_true_iff, BitVec.toInt_inj]
  cases op <;> cases h <;> simp only [BinaryOp.apply, Cond.holds] <;> congr 2 <;> grind

theorem lowerComparison_performs (op : BinaryOp) {cond : Cond} (hop : Cond.of? op = some cond)
    (ht : target.Usable) (hr : right.Usable) (m : Cpu) :
    m.Performs (lowerComparison cond target left right) target (op.apply (m.read left) (m.read right)) := by
  obtain ⟨m₁, hrun, hleft, hch⟩ := stage_changes left m
  have hright : m₁.read right = m.read right := by
    refine hch.read (by decide) fun q hq hmem => ?_
    exact hr.ne_reg (r := .r11) (by decide) (by rw [hq, List.mem_singleton.mp hmem])
  rw [holds_ofSub hop, ← hleft, ← hright]
  generalize hbit : cond.holds (.ofSub (m₁.low (workReg left)) (m₁.read right)) = bit
  let m₂ := m₁.withFlags (some (.ofSub (m₁.low (workReg left)) (m₁.read right)))
  let m₃ := m₂.setByte (workReg target) (if bit then 1 else 0)
  let m₄ := m₃.setLow (workReg target) (((m₃.regs (workReg target)).setWidth 8).setWidth 32)
  have hcode : runAll (stage left ++ [.cmp (workReg left) right, .setcc cond (workReg target),
      .movzx (workReg target) (workReg target)]) m = .next m₄ := by
    have hcmp : (Instr.cmp (workReg left) right).effect m₁ = .next m₂ := rfl
    have hset : (Instr.setcc cond (workReg target)).effect m₂ = .next m₃ := by
      simp only [Instr.effect, m₂, Cpu.withFlags, hbit]
      rfl
    rw [runAll_append _ hrun, runAll_cons _ hcmp, runAll_cons _ hset]
    rfl
  have hval : m₄.low (workReg target) = Word.ofBool bit := by
    rw [Cpu.low_setLow_self, m₂.byte_setByte]
    cases bit <;> rfl
  have hch₄ : Cpu.Changes (workReg target :: temporaries) m m₄ := by
    have h₃ : Cpu.Changes (workReg target :: temporaries) m₁ m₃ :=
      ((Cpu.Changes.refl _ m₁).withFlags _).trans (.set List.mem_cons_self m₂ _)
    refine (hch.mono fun q hq => ?_).trans (h₃.trans (.set List.mem_cons_self m₃ _))
    rw [List.mem_singleton.mp hq]
    exact List.mem_cons_of_mem _ (by decide)
  have hy : m.Yields _ _ _ (Word.ofBool bit) := ⟨m₄, hcode, hval, hch₄⟩
  exact hy.save ht fun q hq => hq

/-! ### Shifts -/

theorem lowerShift_writes {shift : Reg → Instr} {f : Word → Nat → Word}
    (hs : ∀ r m, ∃ flags, (shift r).effect m =
      .next ((m.setLow r (f (m.low r) (((m.regs .rcx).setWidth 8).toNat % 32))).withFlags flags))
    (ht : target.Usable) (hl : left.Usable) (m : Cpu) :
    ∃ m', runAll (lowerShift shift target left right) m = .next m' ∧
      m.Writes target (f (m.read left) ((m.read right).toNat % 32)) m' := by
  obtain ⟨m₁, hrun₁, hcount, hch₁⟩ := load_changes .rcx right m
  obtain ⟨m₂, hrun₂, hleft, hch₂⟩ := load_changes (workReg target) left m₁
  have hread : m₁.read left = m.read left := by
    refine hch₁.read (by decide) fun q hq hmem => ?_
    exact hl.ne_reg (r := .rcx) (by decide) (by rw [hq, List.mem_singleton.mp hmem])
  have hrcx : .rcx ∉ [workReg target] := by
    intro hmem
    cases target with
    | reg r => exact ht.ne_reg (r := .rcx) (by decide) (by rw [List.mem_singleton.mp hmem]; rfl)
    | frame d => exact absurd (List.mem_singleton.mp hmem) (by decide : Reg.rcx ≠ Reg.scratch)
  have hbyte : ((m₂.regs .rcx).setWidth 8).toNat % 32 = (m.read right).toNat % 32 := by
    rw [hch₂.regs .rcx hrcx, ← hcount]
    simp only [Cpu.low, BitVec.toNat_setWidth]
    omega
  obtain ⟨flags, hshift⟩ := hs (workReg target) m₂
  have hy : m.Yields (load .rcx right ++ load (workReg target) left ++ [shift (workReg target)])
      (workReg target :: temporaries) (workReg target) (f (m.read left) ((m.read right).toNat % 32)) := by
    refine ⟨(m₂.setLow (workReg target) (f (m₂.low (workReg target))
      (((m₂.regs .rcx).setWidth 8).toNat % 32))).withFlags flags, ?_, ?_, ?_⟩
    · rw [List.append_assoc, runAll_append _ hrun₁, runAll_append _ hrun₂, runAll_cons _ hshift]
      rfl
    · rw [Cpu.low_withFlags, Cpu.low_setLow_self, hbyte, hleft, hread]
    · refine (hch₁.mono fun q hq => ?_).trans ((hch₂.mono (workReg_mem target)).trans
        ((Cpu.Changes.set List.mem_cons_self m₂ _).withFlags flags))
      rw [List.mem_singleton.mp hq]
      exact List.mem_cons_of_mem _ (by decide)
  exact hy.save ht fun q hq => hq

/-! ### Divisions -/

/-- The double word of a word and its sign is the word. -/
theorem toInt_signed (w : Word) : ((if w.msb then -1 else 0 : Word) ++ w).toInt = w.toInt := by
  rw [BitVec.toInt_append, BitVec.toInt_eq_msb_cond w]
  cases w.msb <;> simp [sub_eq_neg_add]

/-- The quotient of two words does not fit if and only if it is that of the least
word by minus one. -/
theorem quotient_fits (l : Word) {r : Word} (hr : r ≠ 0) :
    (l.toInt.tdiv r.toInt < -2 ^ 31 ∨ 2 ^ 31 ≤ l.toInt.tdiv r.toInt) ↔ l = BitVec.intMin 32 ∧ r = -1 := by
  constructor
  · intro hout
    by_contra hne
    have hq := BitVec.toInt_sdiv_of_ne_or_ne l r (not_and_or.mp hne)
    have hlt := (l.sdiv r).toInt_lt
    have hle := (l.sdiv r).le_toInt
    omega
  · rintro ⟨rfl, rfl⟩
    decide

/-- A division of a word with its sign in `rdx`. -/
theorem divide_signed {divisor : Word} (hs : m.low .rdx = if (m.low .rax).msb then -1 else 0) :
    m.divide divisor =
      if divisor = 0 then .fault
      else if m.low .rax = BitVec.intMin 32 ∧ divisor = -1 then .fault
      else .next (((m.setLow .rax ((m.low .rax).sdiv divisor)).setLow .rdx
        ((m.low .rax).srem divisor)).withFlags none) := by
  unfold Cpu.divide
  simp only [hs, toInt_signed]
  by_cases h0 : divisor = 0
  · rw [if_pos h0, if_pos h0]
  rw [if_neg h0, if_neg h0]
  by_cases hfit : m.low .rax = BitVec.intMin 32 ∧ divisor = -1
  · rw [if_pos ((quotient_fits _ h0).mpr hfit), if_pos hfit]
  rw [if_neg fun h => hfit ((quotient_fits _ h0).mp h), if_neg hfit,
    ← BitVec.toInt_sdiv_of_ne_or_ne _ _ (not_and_or.mp hfit), ← BitVec.toInt_srem, BitVec.ofInt_toInt,
    BitVec.ofInt_toInt]

/-- What comes before the division itself. -/
theorem division_prepared (left : Operand) (hr : right.Usable) (m : Cpu) :
    ∃ m₁, runAll (load .rax left ++ [.cltd] ++ stage right) m = .next m₁ ∧ m₁.low .rax = m.read left ∧
      m₁.low .rdx = (if (m.read left).msb then -1 else 0) ∧ m₁.low (workReg right) = m.read right ∧
      Cpu.Changes temporaries m m₁ := by
  obtain ⟨m₁, hrun₁, hleft, hch₁⟩ := load_changes .rax left m
  let m₂ := m₁.setLow .rdx (if (m₁.low .rax).msb then -1 else 0)
  have hch₂ : Cpu.Changes [.rdx] m₁ m₂ := .set (List.mem_singleton_self _) m₁ _
  have hch : Cpu.Changes [.rax, .rdx] m m₂ := (hch₁.mono (by decide)).trans (hch₂.mono (by decide))
  obtain ⟨m₃, hrun₃, hright, hch₃⟩ := stage_changes right m₂
  have hread : m₂.read right = m.read right := by
    refine hch.read (by decide) fun q hq hmem => ?_
    exact hr.ne_reg ((by decide : ∀ q ∈ [Reg.rax, .rdx], q ∈ .rbp :: temporaries) q hmem) hq
  refine ⟨m₃, ?_, ?_, ?_, hright.trans hread, (hch.mono (by decide)).trans (hch₃.mono (by decide))⟩
  · have hcltd : Instr.cltd.effect m₁ = .next m₂ := rfl
    rw [List.append_assoc, runAll_append _ hrun₁, List.singleton_append, runAll_cons _ hcltd, hrun₃]
  · rw [hch₃.low (by decide), hch₂.low (by decide), hleft]
  · rw [hch₃.low (by decide), m₁.low_setLow_self, hleft]

theorem lowerDivision_performs {result : Reg} {f : Word → Word → Word}
    (hf : result = .rax ∧ f = BitVec.sdiv ∨ result = .rdx ∧ f = BitVec.srem) (ht : target.Usable)
    (hr : right.Usable) (m : Cpu) :
    m.Performs (lowerDivision result target left right) target
      (BinaryOp.dividing f (m.read left) (m.read right)) := by
  obtain ⟨m₁, hrun, hrax, hrdx, hdiv, hch⟩ := division_prepared left hr m
  have heff : (Instr.idiv (workReg right)).effect m₁ =
      if m.read right = 0 then .fault
      else if m.read left = BitVec.intMin 32 ∧ m.read right = -1 then .fault
      else .next (((m₁.setLow .rax ((m.read left).sdiv (m.read right))).setLow .rdx
        ((m.read left).srem (m.read right))).withFlags none) := by
    rw [Instr.effect, hdiv, divide_signed (by rw [hrax, hrdx]), hrax]
  have hfault : (Instr.idiv (workReg right)).effect m₁ = .fault →
      runAll (lowerDivision result target left right) m = .fault := by
    intro h
    refine runAll_append_fault _ ?_
    rw [runAll_append _ hrun, runAll, h]
  unfold BinaryOp.dividing
  split_ifs at heff ⊢ with hzero hover
  · exact hfault heff
  · exact hfault heff
  · have hy : m.Yields (load .rax left ++ [.cltd] ++ stage right ++ [.idiv (workReg right)]) temporaries result
        (f (m.read left) (m.read right)) := by
      refine ⟨_, by rw [runAll_append _ hrun, runAll_cons _ heff]; rfl, ?_, hch.trans ?_⟩
      · rw [Cpu.low_withFlags]
        rcases hf with ⟨rfl, rfl⟩ | ⟨rfl, rfl⟩
        · rw [Cpu.low_setLow_of_ne _ _ (by decide : Reg.rax ≠ .rdx), Cpu.low_setLow_self]
        · rw [Cpu.low_setLow_self]
      · exact ((Cpu.Changes.set (by decide) m₁ _).trans (.set (by decide) _ _)).withFlags none
    exact hy.save ht fun q hq => List.mem_cons_of_mem _ hq

/-- The code for an operator with two operands performs it, however its places coincide. -/
theorem lowerBinary_performs (op : BinaryOp) (ht : target.Usable) (hl : left.Usable)
    (hr : right.Usable) (m : Cpu) :
    m.Performs (lowerBinary op target left right) target (op.apply (m.read left) (m.read right)) := by
  cases op with
  | div => exact lowerDivision_performs (.inl ⟨rfl, rfl⟩) ht hr m
  | mod => exact lowerDivision_performs (.inr ⟨rfl, rfl⟩) ht hr m
  | shl => exact lowerShift_writes (fun r m => ⟨none, rfl⟩) ht hl m (f := (· <<< ·))
  | shr => exact lowerShift_writes (fun r m => ⟨none, rfl⟩) ht hl m (f := BitVec.sshiftRight)
  | lt => exact lowerComparison_performs .lt rfl ht hr m
  | le => exact lowerComparison_performs .le rfl ht hr m
  | gt => exact lowerComparison_performs .gt rfl ht hr m
  | ge => exact lowerComparison_performs .ge rfl ht hr m
  | eq => exact lowerComparison_performs .eq rfl ht hr m
  | ne => exact lowerComparison_performs .ne rfl ht hr m
  | add => exact lowerAlu_writes .add (fun _ => BitVec.add_comm) ht hr m
  | sub => exact lowerAlu_writes .sub (fun h => by cases h) ht hr m
  | mul => exact lowerAlu_writes .imul (fun _ => BitVec.mul_comm) ht hr m
  | and => exact lowerAlu_writes .and (fun _ => BitVec.and_comm) ht hr m
  | or => exact lowerAlu_writes .or (fun _ => BitVec.or_comm) ht hr m
  | xor => exact lowerAlu_writes .xor (fun _ => BitVec.xor_comm) ht hr m

end Chordal.Asm
