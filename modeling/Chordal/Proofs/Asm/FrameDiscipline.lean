/-
# Functions keep to their frames

A function saves the frame pointer, makes room for its slots below it, and saves the
registers that it has to leave as they were below the slots. Until it returns, these
cells hold what was in the registers when it was entered, because everything that is
written in between is written to slots. So it can restore them, and it leaves all
memory from the stack pointer at its entry on as it was.

Distances are measured down from the stack pointer at the entry. `Held` says what lies
at which distance; a push and a pop change it at the top, and what keeps to the places
of values does not change it at all. A run goes through the stages of `InFrame`.

Key definitions: `savedCells`, `Held`, `Shaped`, `InFrame`, `KeepsFrame`.
Key theorems: `Held.push`, `Held.pop`, `Open.tame`, `InFrame.step`, `InFrame.keepsFrame`,
`allocated_code_keeps_frame`.
-/
import Mathlib
import Chordal.Proofs.Asm.Footprint

namespace Chordal.Asm

open Ssa (BlockId Func)
open Cpu (temporaries)

/-! ### The layout of the stack -/

/-- The registers that a function leaves as it found them, besides those that hold the
stack. -/
def preserved : List Reg := [.rbx, .r12, .r13, .r14, .r15]

/-- The bytes between the saved frame pointer and the other saved registers. -/
def frameBytes (p : Placement) : Nat := 8 * (p.stackSlots + 1)

/-- The bytes that a function needs below its return address. -/
def stackBytes (p : Placement) : Nat := 8 + frameBytes p + 8 * p.calleeSaved.length

/-- Where registers are saved once those in `pushed` have been pushed, the last one
first: their distances from the return address. -/
def savedCells (p : Placement) : List Reg → List (Nat × Reg)
  | [] => [(8, .rbp)]
  | r :: pushed => (8 + frameBytes p + 8 * (pushed.length + 1), r) :: savedCells p pushed

theorem savedCells_bound {p : Placement} : ∀ {pushed : List Reg} {c : Nat × Reg}, c ∈ savedCells p pushed →
    c.1 = 8 ∨ 8 + frameBytes p + 8 ≤ c.1 ∧ c.1 ≤ 8 + frameBytes p + 8 * pushed.length
  | [], c, h => Or.inl (by rw [List.mem_singleton.mp h])
  | r :: pushed, c, h => by
    rw [List.length_cons]
    rcases List.mem_cons.mp h with rfl | h
    · right
      dsimp only
      omega
    · rcases savedCells_bound h with h | h
      · exact Or.inl h
      · right
        omega

theorem savedCells_append {p : Placement} {c : Nat × Reg} : ∀ (front : List Reg) {pushed : List Reg},
    c ∈ savedCells p pushed → c ∈ savedCells p (front ++ pushed)
  | [], _, h => h
  | _ :: front, _, h => List.mem_cons_of_mem _ (savedCells_append front h)

theorem stackBytes_lt {p : Placement} (h : p.stackSlots < 2 ^ 28 - 1) : stackBytes p < 2 ^ 40 := by
  have hsaved : p.calleeSaved.length ≤ Reg.all.length :=
    (List.length_filter_le _ _).trans (List.length_filter_le _ _)
  have hall : Reg.all.length = 16 := rfl
  unfold stackBytes frameBytes
  omega

/-- The size of the frame fits in 32 bits with a sign. -/
theorem frameSize_signExtend {p : Placement} (h : p.stackSlots < 2 ^ 28 - 1) :
    p.frameSize.signExtend 64 = BitVec.ofNat 64 (frameBytes p) := by
  have hnat : p.frameSize.toNat = frameBytes p := by
    unfold Placement.frameSize frameBytes
    simp
    omega
  have hint : p.frameSize.toInt = (frameBytes p : Nat) := by
    rw [BitVec.toInt_eq_toNat_of_lt, hnat]
    rw [hnat]
    unfold frameBytes
    omega
  rw [BitVec.signExtend, hint]
  exact BitVec.ofInt_natCast 64 _

/-- The address of a slot by its distance. -/
theorem address_slot_below {m : Cpu} {top : BitVec 64} (hbase : m.regs .rbp = below top 8) {n : Nat} (hn : n < 2 ^ 28) :
    m.address (Location.slotOffset n) = below top (8 + 8 * (n + 1)) := by
  have hoffset : Location.slotOffset n = -((8 * (n + 1) : Nat) : Int) := by
    unfold Location.slotOffset
    omega
  rw [address_slot m hn, hbase, hoffset, BitVec.ofInt_neg, BitVec.ofInt_natCast, ← BitVec.sub_eq_add_neg, below_sub]

/-! ### What is on the stack -/

/-- The stack pointer is `depth` bytes below the return address, the cells hold the
registers of the entry, the registers in `kept` have not changed since, and memory that
is not in the `size` bytes below the return address has not either. -/
structure Held (entry : Cpu) (size depth : Nat) (cells : List (Nat × Reg)) (kept : Reg → Prop) (m : Cpu) : Prop where
  top : m.regs .rsp = below (entry.regs .rsp) depth
  cell : ∀ c ∈ cells, m.memory.load (below (entry.regs .rsp) c.1) 64 = entry.regs c.2
  reg : ∀ r, kept r → m.regs r = entry.regs r
  outside : ∀ x, (entry.regs .rsp - x).toNat = 0 ∨ size < (entry.regs .rsp - x).toNat → m.memory x = entry.memory x

section Held

variable {entry m m' : Cpu} {size depth depth' : Nat} {cells cells' : List (Nat × Reg)} {kept kept' : Reg → Prop}

theorem held_start (cpu : Cpu) (size : Nat) (kept : Reg → Prop) : Held cpu size 0 [] kept cpu := by
  refine ⟨?_, by simp, fun r _ => rfl, fun x _ => rfl⟩
  unfold below
  bv_omega

section

variable (h : Held entry size depth cells kept m)

include h

/-- What is written inside the stack and beside the cells does not matter. -/
theorem Held.change {i : Instr} (heff : i.effect m = .next m')
    (hinside : ∀ x ∈ i.written m, 0 < (entry.regs .rsp - x).toNat ∧ (entry.regs .rsp - x).toNat ≤ size)
    (hcells : ∀ c ∈ cells', c ∈ cells ∧ Disjoint (i.written m) (bytes (below (entry.regs .rsp) c.1) 8))
    (htop : m'.regs .rsp = below (entry.regs .rsp) depth')
    (hkept : ∀ r, kept' r → kept r ∧ r ∉ i.changed) : Held entry size depth' cells' kept' m' := by
  refine ⟨htop, fun c hc => ?_, fun r hr => ?_, fun x hx => ?_⟩
  · obtain ⟨hc, hdisjoint⟩ := hcells c hc
    rw [← h.cell c hc]
    refine Memory.load_eq_of_bytes (by decide) fun x hx => Instr.effect_memory heff fun hw => ?_
    exact Set.disjoint_left.mp hdisjoint hw hx
  · obtain ⟨hr, hnot⟩ := hkept r hr
    exact (Instr.effect_regs heff hnot).trans (h.reg r hr)
  · have hnot : x ∉ i.written m := by
      intro hw
      have := hinside x hw
      omega
    exact (Instr.effect_memory heff hnot).trans (h.outside x hx)

/-- An instruction that writes no memory. -/
theorem Held.quiet {i : Instr} (heff : i.effect m = .next m') (hquiet : i.written m = ∅)
    (htop : m'.regs .rsp = below (entry.regs .rsp) depth')
    (hkept : ∀ r, kept' r → kept r ∧ r ∉ i.changed) : Held entry size depth' cells kept' m' := by
  refine h.change heff ?_ (fun c hc => ⟨hc, ?_⟩) htop hkept
  · simp [hquiet]
  · simp [hquiet]

/-- The bytes that a push writes. -/
theorem Held.written_push (r : Reg) :
    (Instr.push r).written m = bytes (below (entry.regs .rsp) (depth + 8)) 8 := by
  rw [Instr.written, h.top]
  exact congrArg (bytes · 8) (below_sub _ depth 8)

theorem Held.push {r : Reg} (hr : kept r) (heff : (Instr.push r).effect m = .next m')
    (hsize : depth + 8 ≤ size) (hsmall : size < 2 ^ 40)
    (hcells : ∀ c ∈ cells, 8 ≤ c.1 ∧ c.1 ≤ depth) (hkept : ∀ q, kept' q → kept q ∧ q ≠ .rsp) :
    Held entry size (depth + 8) ((depth + 8, r) :: cells) kept' m' := by
  have hrsp : m.regs .rsp - 8 = below (entry.regs .rsp) (depth + 8) := by
    rw [h.top]
    exact below_sub _ depth 8
  have htop : m'.regs .rsp = below (entry.regs .rsp) (depth + 8) := by
    obtain rfl := Effect.next.inj heff
    rw [Cpu.regs_set_self, hrsp]
  have hrest : Held entry size (depth + 8) cells kept' m' := by
    refine h.change heff (fun x hx => ?_) (fun c hc => ⟨hc, ?_⟩) htop fun q hq => ?_
    · rw [h.written_push, mem_bytes_below (by omega) (by omega)] at hx
      omega
    · rw [h.written_push]
      have := hcells c hc
      exact disjoint_bytes_below (by omega) (by omega) (by omega) (by omega) (by omega)
    · exact ⟨(hkept q hq).1, List.mem_singleton.not.mpr (hkept q hq).2⟩
  refine ⟨htop, fun c hc => ?_, hrest.reg, hrest.outside⟩
  rcases List.mem_cons.mp hc with rfl | hc
  · obtain rfl := Effect.next.inj heff
    rw [← h.reg r hr]
    dsimp only
    rw [← hrsp]
    exact m.memory.load_store (m.regs .rsp - 8) (m.regs r) (by decide) (by decide)
  · exact hrest.cell c hc

end

theorem Held.pop {r : Reg} (h : Held entry size (depth + 8) ((depth + 8, r) :: cells) kept m)
    (heff : (Instr.pop r).effect m = .next m') (hr : r ≠ .rsp) (hkept : ∀ q, kept' q → q ≠ .rsp ∧ (q = r ∨ kept q)) :
    Held entry size depth cells kept' m' := by
  have hcell := h.cell _ List.mem_cons_self
  obtain rfl := Effect.next.inj heff
  refine ⟨?_, fun c hc => h.cell c (List.mem_cons_of_mem _ hc), fun q hq => ?_, h.outside⟩
  · rw [Cpu.regs_set_of_ne _ _ hr.symm, Cpu.regs_set_self, h.top]
    exact below_add _ depth 8
  · obtain ⟨hrsp, hq⟩ := hkept q hq
    by_cases hqr : q = r
    · rw [hqr, Cpu.regs_set_self, h.top]
      exact hcell
    · rw [Cpu.regs_set_of_ne _ _ hqr, Cpu.regs_set_of_ne _ _ hrsp]
      exact h.reg q (hq.resolve_left hqr)

end Held

/-! ### Open frames -/

/-- The frame is open, the registers in `pushed` are saved below it, and those that are
not have not changed. -/
structure Open (entry : Cpu) (p : Placement) (pushed : List Reg) (m : Cpu) : Prop where
  held : Held entry (stackBytes p) (8 + frameBytes p + 8 * pushed.length) (savedCells p pushed)
    (fun r => r ∈ preserved ∧ r ∉ pushed) m
  base : m.regs .rbp = below (entry.regs .rsp) 8

/-- Only the frame pointer is saved. -/
def Linked (entry : Cpu) (p : Placement) (m : Cpu) : Prop :=
  Held entry (stackBytes p) 8 (savedCells p []) (· ∈ preserved) m

/-- Nothing is on the stack, and all registers are as they were. -/
def Closed (entry : Cpu) (p : Placement) (m : Cpu) : Prop :=
  Held entry (stackBytes p) 0 [] (· ∈ .rbp :: preserved) m

section Open

variable {entry m m' : Cpu} {p : Placement} {pushed : List Reg}

theorem preserved_ne {r : Reg} (h : r ∈ preserved) :
    r ≠ .rsp ∧ r ≠ .rbp ∧ r ∉ temporaries ∧ r.isCalleeSaved = true := by
  revert r
  decide

theorem Closed.link (h : Closed entry p m) (hsmall : stackBytes p < 2 ^ 40)
    (heff : (Instr.push .rbp).effect m = .next m') : Linked entry p m' := by
  refine Held.push h List.mem_cons_self heff ?_ hsmall (by simp) fun q hq => ?_
  · unfold stackBytes
    omega
  · exact ⟨List.mem_cons_of_mem _ hq, (preserved_ne hq).1⟩

theorem Linked.base (h : Linked entry p m) (heff : (Instr.mov64 .rbp .rsp).effect m = .next m') :
    Linked entry p m' ∧ m'.regs .rbp = below (entry.regs .rsp) 8 := by
  refine ⟨Held.quiet h heff rfl ?_ fun r hr => ⟨hr, List.mem_singleton.not.mpr (preserved_ne hr).2.1⟩, ?_⟩
  · exact (Instr.effect_regs heff (by decide)).trans h.top
  · obtain rfl := Effect.next.inj heff
    rw [Cpu.regs_set_self]
    exact h.top

theorem Linked.reserve (h : Linked entry p m) (hbase : m.regs .rbp = below (entry.regs .rsp) 8)
    (hslots : p.stackSlots < 2 ^ 28 - 1) (heff : (Instr.sub64 .rsp p.frameSize).effect m = .next m') :
    Open entry p [] m' := by
  refine ⟨Held.quiet h heff rfl ?_ fun r hr => ⟨hr.1, List.mem_singleton.not.mpr (preserved_ne hr.1).1⟩, ?_⟩
  · obtain rfl := Effect.next.inj heff
    show (m.set .rsp _).regs .rsp = _
    rw [Cpu.regs_set_self, h.top, frameSize_signExtend hslots]
    exact below_sub _ 8 (frameBytes p)
  · exact (Instr.effect_regs heff (List.mem_singleton.not.mpr (by decide))).trans hbase

theorem Open.release (h : Open entry p [] m) (hslots : p.stackSlots < 2 ^ 28 - 1)
    (heff : (Instr.add64 .rsp p.frameSize).effect m = .next m') : Linked entry p m' := by
  refine Held.quiet h.held heff rfl ?_ fun r hr => ⟨⟨hr, List.not_mem_nil⟩, ?_⟩
  · obtain rfl := Effect.next.inj heff
    show (m.set .rsp _).regs .rsp = _
    rw [Cpu.regs_set_self, h.held.top, frameSize_signExtend hslots]
    exact below_add _ 8 (frameBytes p)
  · exact List.mem_singleton.not.mpr (preserved_ne hr).1

theorem Linked.unlink (h : Linked entry p m) (heff : (Instr.pop .rbp).effect m = .next m') : Closed entry p m' := by
  refine Held.pop h heff (by decide) fun q hq => ?_
  rcases List.mem_cons.mp hq with rfl | hq
  · exact ⟨by decide, Or.inl rfl⟩
  · exact ⟨(preserved_ne hq).1, Or.inr hq⟩

theorem Open.push (h : Open entry p pushed m) {r : Reg} (hr : r ∈ preserved) (hnew : r ∉ pushed)
    (hroom : pushed.length < p.calleeSaved.length) (hsmall : stackBytes p < 2 ^ 40)
    (heff : (Instr.push r).effect m = .next m') : Open entry p (r :: pushed) m' := by
  refine ⟨Held.push h.held ⟨hr, hnew⟩ heff ?_ hsmall (fun c hc => ?_) fun q hq => ?_, ?_⟩
  · unfold stackBytes
    omega
  · rcases savedCells_bound hc with hc | hc
    · omega
    · omega
  · exact ⟨⟨hq.1, fun hmem => hq.2 (List.mem_cons_of_mem r hmem)⟩, (preserved_ne hq.1).1⟩
  · exact (Instr.effect_regs heff (List.mem_singleton.not.mpr (by decide))).trans h.base

theorem Open.pop {r : Reg} (h : Open entry p (r :: pushed) m) (hr : r ∈ preserved)
    (heff : (Instr.pop r).effect m = .next m') : Open entry p pushed m' := by
  refine ⟨Held.pop h.held heff (preserved_ne hr).1 fun q hq => ⟨(preserved_ne hq.1).1, ?_⟩, ?_⟩
  · by_cases hqr : q = r
    · exact Or.inl hqr
    · exact Or.inr ⟨hq.1, fun hmem => (List.mem_cons.mp hmem).elim hqr hq.2⟩
  · refine (Instr.effect_regs heff ?_).trans h.base
    have := (preserved_ne hr).2.1
    simp [Instr.changed, this.symm]

/-- What keeps to the places of values writes slots only. -/
theorem Instr.Tame.written_slot {i : Instr} (hi : i.Tame p) (hbase : m.regs .rbp = below (entry.regs .rsp) 8)
    (hslots : p.stackSlots < 2 ^ 28 - 1) {x : BitVec 64} (hx : x ∈ i.written m) :
    ∃ n < p.stackSlots, i.written m = bytes (below (entry.regs .rsp) (8 + 8 * (n + 1))) 4 := by
  cases i with
  | store d r =>
    obtain ⟨n, hn, rfl⟩ := hi.frame d rfl
    exact ⟨n, hn, congrArg (bytes · 4) (address_slot_below hbase (by omega))⟩
  | push r => cases hi.stays
  | _ => cases hx

/-- What keeps to the places of values leaves the stack as it is. -/
theorem Open.tame (h : Open entry p p.calleeSaved.reverse m) (hrecords : p.Records)
    (hslots : p.stackSlots < 2 ^ 28 - 1) {i : Instr} (hi : i.Tame p) (heff : i.effect m = .next m') :
    Open entry p p.calleeSaved.reverse m' := by
  have hsmall := stackBytes_lt hslots
  have hstack : ∀ r, r ∈ [.rsp, .rbp] → r ∉ i.changed := by
    intro r hr hmem
    rcases hi.regs r hmem with htemp | hused
    · revert hr htemp
      cases r <;> decide
    · have := hrecords.pool hused
      revert hr this
      cases r <;> decide
  refine ⟨h.held.change heff (fun x hx => ?_) (fun c hc => ⟨hc, ?_⟩) ?_ fun r hr => ⟨hr, fun hmem => ?_⟩, ?_⟩
  · obtain ⟨n, hn, heq⟩ := hi.written_slot h.base hslots hx
    rw [heq, mem_bytes_below (by omega) (by omega)] at hx
    unfold stackBytes frameBytes
    omega
  · by_cases hw : (i.written m).Nonempty
    · obtain ⟨x, hx⟩ := hw
      obtain ⟨n, hn, heq⟩ := hi.written_slot h.base hslots hx
      rw [heq]
      have hbound := savedCells_bound hc
      unfold stackBytes at hsmall
      rw [List.length_reverse] at hbound
      have hframe : frameBytes p = 8 * (p.stackSlots + 1) := rfl
      exact disjoint_bytes_below (by omega) (by omega) (by omega) (by omega) (by omega)
    · rw [Set.not_nonempty_iff_eq_empty.mp hw]
      exact Set.empty_disjoint _
  · exact (Instr.effect_regs heff (hstack .rsp (by decide))).trans h.held.top
  · rcases hi.regs r hmem with htemp | hused
    · exact (preserved_ne hr.1).2.2.1 htemp
    · exact hr.2 (List.mem_reverse.mpr (Placement.mem_calleeSaved.mpr ⟨hused, (preserved_ne hr.1).2.2.2⟩))
  · exact (Instr.effect_regs heff (hstack .rbp (by decide))).trans h.base

end Open

/-! ### The shape of a function's code -/

/-- Code of a function behind its prologue: it keeps to the places of values and goes to
other labels than that of the function, or it leaves the function as a whole. -/
inductive Shaped (p : Placement) (entry : Label) : Listing → Prop
  | nil : Shaped p entry []
  | label {l : Label} {rest : Listing} : Shaped p entry rest → Shaped p entry (.label l :: rest)
  | instr {i : Instr} {rest : Listing} : i.Tame p → (∀ a, i.target? = some a → a ≠ entry.address) →
    Shaped p entry rest → Shaped p entry (.instr i :: rest)
  | leave {rest : Listing} : Shaped p entry rest → Shaped p entry ((Frame.ofPlacement p).epilogue.map .instr ++ rest)

section Shaped

variable {p : Placement} {entry : Label}

theorem Shaped.code {rest : Listing} (h : Shaped p entry rest) : ∀ {code : List Instr}, Tame p code → Straight code →
    Shaped p entry (code.map .instr ++ rest)
  | [], _, _ => h
  | i :: code, htame, hstraight => by
    obtain ⟨hi, htame⟩ := List.forall_mem_cons.mp htame
    obtain ⟨hnone, hstraight⟩ := List.forall_mem_cons.mp hstraight
    refine .instr hi (fun l hl => ?_) (h.code htame hstraight)
    rw [hnone] at hl
    cases hl

/-- A jump leads to code of this shape. -/
theorem Shaped.after {lines rest : Listing} {a : Nat} (h : Shaped p entry lines)
    (hafter : lines.after? a = some rest) : Shaped p entry rest := by
  induction h with
  | nil => cases hafter
  | @label k later hlater ih =>
    rw [Listing.after?] at hafter
    split_ifs at hafter
    · obtain rfl := Option.some.inj hafter
      exact .label hlater
    · exact ih hafter
  | instr _ _ _ ih => exact ih hafter
  | leave _ ih =>
    rw [after?_append] at hafter
    · exact ih hafter
    · intro k hk
      obtain ⟨j, -, hj⟩ := List.mem_map.mp hk
      cases hj

variable {c : Context} (hfits : c.placement.Fits) (hrecords : c.placement.Records)
  (hlabels : ∀ {b l}, c.labels.get? b = some l → l ≠ entry)

include hlabels in
theorem Shaped.jump {rest : Listing} {t : BlockId} {l : Label} (h : Shaped c.placement entry rest)
    (hl : c.labels.get? t = some l) {i : Instr} (hi : i.Tame c.placement) (htarget : i.target? = some l.address) :
    Shaped c.placement entry (.instr i :: rest) := by
  refine .instr hi (fun k hk => ?_) h
  obtain rfl := Option.some.inj (htarget.symm.trans hk)
  exact mt Label.address_inj.mp (hlabels hl)

include hlabels in
theorem Shaped.jumpCode {rest : Listing} {t : BlockId} {l : Label} (h : Shaped c.placement entry rest)
    (hl : c.labels.get? t = some l) (next : Option BlockId) :
    Shaped c.placement entry ((Context.jumpCode next t l).map .instr ++ rest) := by
  unfold Context.jumpCode
  split_ifs
  · exact h
  · exact h.jump hlabels hl ⟨by simp [Instr.changed], fun d hd => (nomatch hd), rfl⟩ rfl

include hlabels in
theorem Shaped.branchCode {rest : Listing} {t e : BlockId} {lt le : Label} (h : Shaped c.placement entry rest)
    (ht : c.labels.get? t = some lt) (he : c.labels.get? e = some le) (next : Option BlockId) :
    Shaped c.placement entry ((Context.branchCode next t e lt le).map .instr ++ rest) := by
  have htame : ∀ cond l, (Instr.jcc cond l).Tame c.placement := fun cond l =>
    ⟨by simp [Instr.changed], fun d hd => (nomatch hd), rfl⟩
  unfold Context.branchCode
  split_ifs
  · exact h.jump hlabels he (htame _ _) rfl
  · exact (h.jumpCode hlabels he next).jump hlabels ht (htame _ _) rfl

include hfits hrecords hlabels

theorem shaped_lowerInstr {i : Ssa.Instr} (hs : c.Serves i) (b : BlockId) (next : Option BlockId) {rest : Listing}
    (h : Shaped c.placement entry rest) : Shaped c.placement entry ((c.lowerInstr b next i).lines ++ rest) := by
  have hplaced : ∀ {id loc}, c.placement.locations.get? id = some loc → (Operand.ofLocation loc).Placed c.placement :=
    fun hloc => placed_ofLocation hfits hrecords hloc
  cases i with
  | const t w | bool t w =>
    obtain ⟨loc, hloc⟩ := hs.target t rfl
    rw [Context.lowerInstr, Context.operand_eq hloc]
    exact h.code (.lowerConst (hplaced hloc) _) (.cons rfl (.save _ _))
  | move t v =>
    obtain ⟨loc, hloc⟩ := hs.target t rfl
    obtain ⟨locv, hlocv⟩ := hs.operand v (List.mem_singleton_self v)
    rw [Context.lowerInstr, Context.operand_eq hloc, Context.operand_eq hlocv]
    exact h.code (.lowerMove (hplaced hloc) (hplaced hlocv)) (.lowerMove _ _)
  | unary t op v =>
    obtain ⟨loc, hloc⟩ := hs.target t rfl
    obtain ⟨locv, hlocv⟩ := hs.operand v (List.mem_singleton_self v)
    rw [Context.lowerInstr, Context.operand_eq hloc, Context.operand_eq hlocv]
    exact h.code (.lowerUnary op (hplaced hloc) (hplaced hlocv)) (.lowerUnary op _ _)
  | binary t op v u =>
    obtain ⟨loc, hloc⟩ := hs.target t rfl
    obtain ⟨locv, hlocv⟩ := hs.operand v List.mem_cons_self
    obtain ⟨locu, hlocu⟩ := hs.operand u (List.mem_cons_of_mem v (List.mem_singleton_self u))
    rw [Context.lowerInstr, Context.operand_eq hloc, Context.operand_eq hlocv, Context.operand_eq hlocu]
    exact h.code (.lowerBinary (hplaced hloc) (hplaced hlocv) (hplaced hlocu) op) (.lowerBinary op _ _ _)
  | phi t entries => cases hs.phi
  | jump t =>
    obtain ⟨l, hl⟩ := hs.label t (List.mem_singleton_self t)
    rw [Context.lowerInstr, Context.lowerJump_ok hl]
    exact h.jumpCode hlabels hl next
  | branch v t e =>
    obtain ⟨loc, hloc⟩ := hs.operand v (List.mem_singleton_self v)
    obtain ⟨lt, ht⟩ := hs.label t List.mem_cons_self
    obtain ⟨le, he⟩ := hs.label e (List.mem_cons_of_mem t (List.mem_singleton_self e))
    have hcmp : (Instr.cmpImm (workReg (.ofLocation loc)) 0).Tame c.placement := by
      refine ⟨by simp [Instr.changed], fun d hd => ?_, rfl⟩
      cases hd
    have hstage : Tame c.placement (stage (.ofLocation loc) ++ [.cmpImm (workReg (.ofLocation loc)) 0]) :=
      (Tame.stage (hplaced hloc).within).append (.single hcmp)
    have hlines : (c.lowerInstr b next (.branch v t e)).lines ++ rest =
        (stage (.ofLocation loc) ++ [Instr.cmpImm (workReg (.ofLocation loc)) 0]).map .instr ++
          ((Context.branchCode next t e lt le).map .instr ++ rest) := by
      rw [Context.lowerInstr, Context.operand_eq hloc, Context.lowerBranch_whole ht he]
      exact List.append_assoc _ _ _
    rw [hlines]
    exact (h.branchCode hlabels ht he next).code hstage ((Straight.stage _).append (.cons rfl .nil))
  | ret v =>
    obtain ⟨loc, hloc⟩ := hs.operand v (List.mem_singleton_self v)
    have hlines : (c.lowerInstr b next (.ret v)).lines ++ rest =
        (load .rax (.ofLocation loc)).map .instr ++ ((Frame.ofPlacement c.placement).epilogue.map .instr ++ rest) := by
      rw [Context.lowerInstr, Context.operand_eq hloc, ← List.append_assoc, ← List.map_append]
      rfl
    rw [hlines]
    exact h.leave.code (.load (working_of_temporary (by decide)) (hplaced hloc).within) (.load _ _)

theorem shaped_lines (b : BlockId) (next : Option BlockId) {rest : Listing} (h : Shaped c.placement entry rest) :
    ∀ {code : List Ssa.Instr}, (∀ i ∈ code, c.Serves i) → Shaped c.placement entry (c.lines b next code ++ rest)
  | [], _ => h
  | i :: code, hserves => by
    obtain ⟨hi, hcode⟩ := List.forall_mem_cons.mp hserves
    rw [Context.lines_cons, List.append_assoc]
    exact shaped_lowerInstr hfits hrecords hlabels hi b next (shaped_lines b next h hcode)

/-- The code of blocks has this shape. -/
theorem shaped_lowerBlocks : ∀ {order : List BlockId}, c.Complete order →
    Shaped c.placement entry (c.lowerBlocks order).lines
  | [], _ => .nil
  | b :: order, h => by
    obtain ⟨l, hl⟩ := h.label b List.mem_cons_self
    rw [Context.lowerBlocks_cons h hl]
    exact .label (shaped_lines hfits hrecords hlabels b _ (shaped_lowerBlocks h.tail) (h.serves b List.mem_cons_self))

end Shaped

/-! ### Stages of a run -/

/-- Where a run of a function is, and what is on the stack there: before the prologue
and in it, in the blocks (when `todo` is empty), and in an epilogue. -/
inductive InFrame (entry : Label) (p : Placement) (cpu : Cpu) : Machine → Prop
  | start {m : Cpu} {rest : Listing} : Closed cpu p m → Shaped p entry rest →
    InFrame entry p cpu ⟨m, .label entry :: ((Frame.ofPlacement p).prologue.map .instr ++ rest)⟩
  | entered {m : Cpu} {rest : Listing} : Closed cpu p m → Shaped p entry rest →
    InFrame entry p cpu ⟨m, (Frame.ofPlacement p).prologue.map .instr ++ rest⟩
  | linked {m : Cpu} {rest : Listing} : Linked cpu p m → Shaped p entry rest →
    InFrame entry p cpu ⟨m, .instr (.mov64 .rbp .rsp) :: .instr (.sub64 .rsp p.frameSize) ::
      ((p.calleeSaved.map .push).map .instr ++ rest)⟩
  | based {m : Cpu} {rest : Listing} : Linked cpu p m → m.regs .rbp = below (cpu.regs .rsp) 8 → Shaped p entry rest →
    InFrame entry p cpu ⟨m, .instr (.sub64 .rsp p.frameSize) :: ((p.calleeSaved.map .push).map .instr ++ rest)⟩
  | opening {m : Cpu} {rest : Listing} {pushed todo : List Reg} : p.calleeSaved = pushed.reverse ++ todo →
    Open cpu p pushed m → Shaped p entry rest → InFrame entry p cpu ⟨m, (todo.map .push).map .instr ++ rest⟩
  | closing {m : Cpu} {rest : Listing} {popped pushed : List Reg} : p.calleeSaved.reverse = popped ++ pushed →
    Open cpu p pushed m → Shaped p entry rest →
    InFrame entry p cpu ⟨m, (pushed.map Instr.pop ++ Frame.closeCode p.frameSize).map .instr ++ rest⟩
  | unlinking {m : Cpu} {rest : Listing} : Linked cpu p m → Shaped p entry rest →
    InFrame entry p cpu ⟨m, .instr (.pop .rbp) :: .instr .ret :: rest⟩
  | leaving {m : Cpu} {rest : Listing} : Closed cpu p m → Shaped p entry rest →
    InFrame entry p cpu ⟨m, .instr .ret :: rest⟩

theorem step_instr {program rest : Listing} {i : Instr} {m : Cpu} {y : Machine}
    (h : Machine.step program ⟨m, .instr i :: rest⟩ = .ok y) :
    (∃ m', i.effect m = .next m' ∧ y = ⟨m', rest⟩) ∨
      ∃ l rest', i.target? = some l ∧ program.after? l = some rest' ∧ y = ⟨m, rest'⟩ := by
  simp only [Machine.step] at h
  split at h
  · next m' hm => exact Or.inl ⟨m', hm, (Except.ok.inj h).symm⟩
  · next l hl =>
    split at h
    · next rest' hrest => exact Or.inr ⟨l, rest', Instr.target?_of_effect hl, hrest, (Except.ok.inj h).symm⟩
    · cases h
  · cases h
  · cases h
  · cases h

theorem step_straight {program rest : Listing} {i : Instr} {m : Cpu} {y : Machine} (hi : i.target? = none)
    (h : Machine.step program ⟨m, .instr i :: rest⟩ = .ok y) : ∃ m', i.effect m = .next m' ∧ y = ⟨m', rest⟩ := by
  rcases step_instr h with hnext | ⟨l, rest', hl, -, -⟩
  · exact hnext
  · rw [hi] at hl
    cases hl

section Stages

variable {entry : Label} {p : Placement} {cpu : Cpu} {program : Listing} (hrecords : p.Records)
  (hslots : p.stackSlots < 2 ^ 28 - 1)

include hrecords in
theorem mem_preserved {r : Reg} (h : r ∈ p.calleeSaved) : r ∈ preserved := by
  obtain ⟨hused, hsaved⟩ := Placement.mem_calleeSaved.mp h
  have hpool := hrecords.pool hused
  revert hsaved hpool
  cases r <;> decide

include hrecords hslots

theorem step_closing {m : Cpu} {rest : Listing} {popped pushed : List Reg} {y : Machine}
    (hsaved : p.calleeSaved.reverse = popped ++ pushed) (h : Open cpu p pushed m) (hrest : Shaped p entry rest)
    (hstep : Machine.step program ⟨m, (pushed.map Instr.pop ++ Frame.closeCode p.frameSize).map .instr ++ rest⟩ =
      .ok y) : InFrame entry p cpu y := by
  cases pushed with
  | nil =>
    obtain ⟨m', heff, rfl⟩ := step_straight rfl hstep
    exact .unlinking (h.release hslots heff) hrest
  | cons r pushed =>
    obtain ⟨m', heff, rfl⟩ := step_straight rfl hstep
    have hr : r ∈ p.calleeSaved := by
      rw [← List.mem_reverse, hsaved]
      exact List.mem_append_right _ List.mem_cons_self
    have hpopped : p.calleeSaved.reverse = (popped ++ [r]) ++ pushed := by
      rw [hsaved, List.append_assoc]
      rfl
    exact .closing hpopped (h.pop (mem_preserved hrecords hr) heff) hrest

/-- Between the prologue and an epilogue. -/
theorem step_body (hprogram : ∀ {a rest}, a ≠ entry.address → program.after? a = some rest → Shaped p entry rest)
    {m : Cpu} {rest : Listing} {y : Machine} (h : Open cpu p p.calleeSaved.reverse m) (hrest : Shaped p entry rest)
    (hstep : Machine.step program ⟨m, rest⟩ = .ok y) : InFrame entry p cpu y := by
  have hbody : ∀ {m' : Cpu} {rest' : Listing}, Open cpu p p.calleeSaved.reverse m' → Shaped p entry rest' →
      InFrame entry p cpu ⟨m', rest'⟩ := by
    intro m' rest' hopen hshaped
    have hsaved : p.calleeSaved = p.calleeSaved.reverse.reverse ++ [] := by simp
    exact .opening hsaved hopen hshaped
  cases hrest with
  | nil => cases hstep
  | label hlater =>
    obtain rfl := Except.ok.inj hstep
    exact hbody h hlater
  | instr hi hlabel hlater =>
    rcases step_instr hstep with ⟨m', heff, rfl⟩ | ⟨l, rest', hl, hafter, rfl⟩
    · exact hbody (h.tame hrecords hslots hi heff) hlater
    · exact hbody h (hprogram (hlabel l hl) hafter)
  | leave hlater => exact step_closing hrecords hslots (List.nil_append _).symm h hlater hstep

section

variable
  (hprogram : ∀ {a rest}, a ≠ entry.address → program.after? a = some rest → Shaped p entry rest)

include hprogram

/-- A step leads from stage to stage. -/
theorem InFrame.step {x y : Machine} (h : InFrame entry p cpu x)
    (hstep : Machine.step program x = .ok y) : InFrame entry p cpu y := by
  have hsmall := stackBytes_lt hslots
  cases h with
  | start hclosed hrest =>
    obtain rfl := Except.ok.inj hstep
    exact .entered hclosed hrest
  | entered hclosed hrest =>
    obtain ⟨m', heff, rfl⟩ := step_straight rfl hstep
    exact .linked (hclosed.link hsmall heff) hrest
  | linked hlinked hrest =>
    obtain ⟨m', heff, rfl⟩ := step_straight rfl hstep
    obtain ⟨hlinked', hbase⟩ := hlinked.base heff
    exact .based hlinked' hbase hrest
  | based hlinked hbase hrest =>
    obtain ⟨m', heff, rfl⟩ := step_straight rfl hstep
    exact .opening rfl (hlinked.reserve hbase hslots heff) hrest
  | @opening m rest pushed todo hsaved hopen hrest =>
    cases todo with
    | nil =>
      have hall : pushed = p.calleeSaved.reverse := by simp [hsaved]
      subst hall
      exact step_body hrecords hslots hprogram hopen hrest hstep
    | cons r todo =>
      obtain ⟨m', heff, rfl⟩ := step_straight rfl hstep
      have hr : r ∈ p.calleeSaved := by
        rw [hsaved]
        exact List.mem_append_right _ List.mem_cons_self
      have hnew : r ∉ pushed := by
        have hnodup := p.nodup_calleeSaved
        rw [hsaved] at hnodup
        intro hmem
        exact (List.nodup_append.mp hnodup).2.2 r (List.mem_reverse.mpr hmem) r List.mem_cons_self rfl
      have hroom : pushed.length < p.calleeSaved.length := by
        rw [hsaved, List.length_append, List.length_reverse, List.length_cons]
        omega
      have hpushed : p.calleeSaved = (r :: pushed).reverse ++ todo := by simp [hsaved]
      exact .opening hpushed (hopen.push (mem_preserved hrecords hr) hnew hroom hsmall heff) hrest
  | closing hsaved hopen hrest => exact step_closing hrecords hslots hsaved hopen hrest hstep
  | unlinking hlinked hrest =>
    obtain ⟨m', heff, rfl⟩ := step_straight rfl hstep
    exact .leaving (hlinked.unlink heff) hrest
  | leaving hclosed hrest => cases hstep

/-- A whole run stays in the stages. -/
theorem InFrame.steps {x y : Machine} {n : Nat} (hsteps : Machine.Steps program n x y)
    (h : InFrame entry p cpu x) : InFrame entry p cpu y := by
  induction hsteps with
  | refl => exact h
  | head hstep _ ih => exact ih (h.step hrecords hslots hprogram hstep)

end

end Stages

/-! ### What a run respects -/

/-- A machine that has come from a function's entry, where the processor was `cpu`,
respects the caller and the frame. -/
structure KeepsFrame (p : Placement) (cpu : Cpu) (x : Machine) : Prop where
  /-- Where the function returns, the registers that belong to the caller are as they were
  at the entry, and the return address is on top of the stack. -/
  restored : ∀ rest, x.rest = .instr .ret :: rest → (∀ r ∈ .rsp :: .rbp :: preserved, x.cpu.regs r = cpu.regs r) ∧
    x.cpu.memory.load (x.cpu.regs .rsp) 64 = cpu.memory.load (cpu.regs .rsp) 64
  /-- Nothing is written from the stack pointer at the entry on. -/
  writes : ∀ i rest, x.rest = .instr i :: rest → ∀ a ∈ i.written x.cpu, a < cpu.regs .rsp
  above : ∀ a, cpu.regs .rsp ≤ a → x.cpu.memory a = cpu.memory a
  /-- Registers are saved in their cells. -/
  saves : ∀ r rest, x.rest = .instr (.push r) :: rest → ∃ k, (k, r) ∈ savedCells p p.calleeSaved.reverse ∧
    (Instr.push r).written x.cpu = bytes (below (cpu.regs .rsp) k) 8
  /-- An access to the frame is one to a slot. Its bytes are not in a cell and not in
  another slot. -/
  slot : ∀ i rest d, x.rest = .instr i :: rest → i.frame? = some d → ∃ n < p.stackSlots, d = Location.slotOffset n ∧
    (∀ c ∈ savedCells p p.calleeSaved.reverse,
      Disjoint (bytes (x.cpu.address d) 4) (bytes (below (cpu.regs .rsp) c.1) 8)) ∧
    ∀ k < p.stackSlots, k ≠ n →
      Disjoint (bytes (x.cpu.address d) 4) (bytes (x.cpu.address (Location.slotOffset k)) 8)

/-- An instruction that writes no memory, works on no slot and does not return. -/
structure Instr.Quiet (m : Cpu) (i : Instr) : Prop where
  written : i.written m = ∅
  frame : i.frame? = none
  stays : i ≠ .ret
  pushes : ∀ r, i ≠ .push r

section Keeps

variable {entry : Label} {p : Placement} {cpu : Cpu}

/-- What leaves a function begins with an instruction that writes no memory. -/
theorem quiet_closing {m : Cpu} {i : Instr} {size : Word} {rest later : Listing} {pushed : List Reg}
    (h : .instr i :: rest = (pushed.map Instr.pop ++ Frame.closeCode size).map Line.instr ++ later) : i.Quiet m := by
  cases pushed with
  | nil | cons r pushed =>
    obtain rfl := Line.instr.inj (List.cons.inj h).1
    exact ⟨rfl, rfl, Instr.noConfusion, fun _ => Instr.noConfusion⟩

/-- What the next instruction is: a push to a cell, one that keeps to the places of
values, the return, or a quiet one. -/
theorem InFrame.head {m : Cpu} {i : Instr} {rest : Listing} (h : InFrame entry p cpu ⟨m, .instr i :: rest⟩) :
    (∃ r k, i = .push r ∧ (k, r) ∈ savedCells p p.calleeSaved.reverse ∧
      i.written m = bytes (below (cpu.regs .rsp) k) 8) ∨
    (i.Tame p ∧ m.regs .rbp = below (cpu.regs .rsp) 8) ∨ (i = .ret ∧ Closed cpu p m) ∨ i.Quiet m := by
  generalize hx : (⟨m, .instr i :: rest⟩ : Machine) = x at h
  cases h with
  | start =>
    obtain ⟨rfl, hlines⟩ := Machine.mk.inj hx
    cases hlines
  | entered hclosed =>
    obtain ⟨rfl, hlines⟩ := Machine.mk.inj hx
    obtain rfl := Line.instr.inj (List.cons.inj hlines).1
    have hcell : (8, Reg.rbp) ∈ savedCells p (p.calleeSaved.reverse ++ []) :=
      savedCells_append _ (List.mem_singleton_self _)
    rw [List.append_nil] at hcell
    exact Or.inl ⟨.rbp, 8, rfl, hcell, Held.written_push hclosed .rbp⟩
  | linked | based | unlinking =>
    obtain ⟨rfl, hlines⟩ := Machine.mk.inj hx
    obtain rfl := Line.instr.inj (List.cons.inj hlines).1
    exact Or.inr (Or.inr (Or.inr ⟨rfl, rfl, Instr.noConfusion, fun _ => Instr.noConfusion⟩))
  | @opening _ later pushed todo hsaved hopen hlater =>
    obtain ⟨rfl, hlines⟩ := Machine.mk.inj hx
    cases todo with
    | nil =>
      rw [List.map_nil, List.map_nil, List.nil_append] at hlines
      generalize hcode : later = code at hlater
      cases hlater with
      | nil => cases hlines.trans hcode
      | label => cases hlines.trans hcode
      | instr hi =>
        obtain rfl := Line.instr.inj (List.cons.inj (hlines.trans hcode)).1
        exact Or.inr (Or.inl ⟨hi, hopen.base⟩)
      | leave => exact Or.inr (Or.inr (Or.inr (quiet_closing (hlines.trans hcode))))
    | cons r todo =>
      obtain rfl := Line.instr.inj (List.cons.inj hlines).1
      have hall : p.calleeSaved.reverse = todo.reverse ++ r :: pushed := by simp [hsaved]
      refine Or.inl ⟨r, _, rfl, ?_, hopen.held.written_push r⟩
      rw [hall]
      exact savedCells_append _ List.mem_cons_self
  | closing =>
    obtain ⟨rfl, hlines⟩ := Machine.mk.inj hx
    exact Or.inr (Or.inr (Or.inr (quiet_closing hlines)))
  | leaving hclosed =>
    obtain ⟨rfl, hlines⟩ := Machine.mk.inj hx
    exact Or.inr (Or.inr (Or.inl ⟨Line.instr.inj (List.cons.inj hlines).1, hclosed⟩))

theorem InFrame.outside {x : Machine} (h : InFrame entry p cpu x) (a : BitVec 64)
    (ha : (cpu.regs .rsp - a).toNat = 0 ∨ stackBytes p < (cpu.regs .rsp - a).toNat) :
    x.cpu.memory a = cpu.memory a := by
  cases h with
  | start h | entered h | leaving h => exact Held.outside h a ha
  | linked h | based h | unlinking h => exact Held.outside h a ha
  | opening _ h | closing _ h => exact h.held.outside a ha

/-! #### Distances -/

theorem lt_of_distance {top a : BitVec 64} {size : Nat} (hroom : size ≤ top.toNat) (hpos : 0 < (top - a).toNat)
    (hle : (top - a).toNat ≤ size) : a < top := by
  bv_omega

theorem distance_of_le {top a : BitVec 64} {size : Nat} (hroom : size ≤ top.toNat) (h : top ≤ a) :
    (top - a).toNat = 0 ∨ size < (top - a).toNat := by
  bv_omega

theorem distance_of_mem_bytes {top a : BitVec 64} {size : Nat} (hsmall : size < 2 ^ 40) (h : a ∈ bytes top 8) :
    (top - a).toNat = 0 ∨ size < (top - a).toNat := by
  have hlt : (a - top).toNat < 8 := h
  bv_omega

variable (hslots : p.stackSlots < 2 ^ 28 - 1)

include hslots

theorem InFrame.restored {m : Cpu} {rest : Listing} (h : InFrame entry p cpu ⟨m, .instr .ret :: rest⟩) :
    (∀ r ∈ .rsp :: .rbp :: preserved, m.regs r = cpu.regs r) ∧
      m.memory.load (m.regs .rsp) 64 = cpu.memory.load (cpu.regs .rsp) 64 := by
  rcases h.head with ⟨r, k, hpush, -⟩ | ⟨htame, -⟩ | ⟨-, hclosed⟩ | hquiet
  · cases hpush
  · cases htame.stays
  · have htop : m.regs .rsp = cpu.regs .rsp := by
      rw [Held.top hclosed]
      unfold below
      bv_omega
    refine ⟨fun r hr => ?_, ?_⟩
    · rcases List.mem_cons.mp hr with rfl | hr
      · exact htop
      · exact Held.reg hclosed r hr
    · rw [htop]
      refine Memory.load_eq_of_bytes (by decide) fun a ha => ?_
      exact Held.outside hclosed a (distance_of_mem_bytes (stackBytes_lt hslots) ha)
  · exact absurd rfl hquiet.stays

section

variable {i : Instr} {m : Cpu} {rest : Listing} (h : InFrame entry p cpu ⟨m, .instr i :: rest⟩)

include h

/-- All that is written lies in the stack of the function. -/
theorem InFrame.written_le {a : BitVec 64} (ha : a ∈ i.written m) :
    0 < (cpu.regs .rsp - a).toNat ∧ (cpu.regs .rsp - a).toNat ≤ stackBytes p := by
  have hsmall := stackBytes_lt hslots
  have hstack : stackBytes p = 8 + 8 * (p.stackSlots + 1) + 8 * p.calleeSaved.length := rfl
  rcases h.head with ⟨r, k, -, hk, hw⟩ | ⟨htame, hbase⟩ | ⟨rfl, -⟩ | hquiet
  · have hbound := savedCells_bound hk
    rw [List.length_reverse, frameBytes] at hbound
    dsimp only at hbound
    rw [hw, mem_bytes_below (by omega) (by omega)] at ha
    omega
  · obtain ⟨n, hn, hw⟩ := htame.written_slot hbase hslots ha
    rw [hw, mem_bytes_below (by omega) (by omega)] at ha
    omega
  · cases ha
  · rw [hquiet.written] at ha
    cases ha

theorem InFrame.slot {d : Int} (hd : i.frame? = some d) : ∃ n < p.stackSlots, d = Location.slotOffset n ∧
      (∀ c ∈ savedCells p p.calleeSaved.reverse,
        Disjoint (bytes (m.address d) 4) (bytes (below (cpu.regs .rsp) c.1) 8)) ∧
      ∀ k < p.stackSlots, k ≠ n → Disjoint (bytes (m.address d) 4) (bytes (m.address (Location.slotOffset k)) 8) := by
  have hsmall := stackBytes_lt hslots
  have hstack : stackBytes p = 8 + 8 * (p.stackSlots + 1) + 8 * p.calleeSaved.length := rfl
  rcases h.head with ⟨r, k, rfl, -⟩ | ⟨htame, hbase⟩ | ⟨rfl, -⟩ | hquiet
  · cases hd
  · obtain ⟨n, hn, rfl⟩ := htame.frame d hd
    refine ⟨n, hn, rfl, fun c hc => ?_, fun k hk hne => ?_⟩
    · have hbound := savedCells_bound hc
      rw [List.length_reverse, frameBytes] at hbound
      rw [address_slot_below hbase (by omega)]
      exact disjoint_bytes_below (by omega) (by omega) (by omega) (by omega) (by omega)
    · rw [address_slot_below hbase (by omega), address_slot_below hbase (by omega)]
      exact disjoint_bytes_below (by omega) (by omega) (by omega) (by omega) (by omega)
  · cases hd
  · rw [hquiet.frame] at hd
    cases hd

end

/-- Every stage respects the caller and the frame. -/
theorem InFrame.keepsFrame {x : Machine} (h : InFrame entry p cpu x) (hroom : stackBytes p ≤ (cpu.regs .rsp).toNat) :
    KeepsFrame p cpu x where
  restored rest hrest := by
    obtain ⟨m, lines⟩ := x
    obtain rfl : lines = _ := hrest
    exact h.restored hslots
  writes i rest hrest a ha := by
    obtain ⟨m, lines⟩ := x
    obtain rfl : lines = _ := hrest
    obtain ⟨hpos, hle⟩ := h.written_le hslots ha
    exact lt_of_distance hroom hpos hle
  above a ha := h.outside a (distance_of_le hroom ha)
  saves r rest hrest := by
    obtain ⟨m, lines⟩ := x
    obtain rfl : lines = _ := hrest
    rcases h.head with ⟨q, k, hpush, hk, hw⟩ | ⟨htame, -⟩ | ⟨hret, -⟩ | hquiet
    · obtain rfl := Instr.push.inj hpush
      exact ⟨k, hk, hw⟩
    · cases htame.stays
    · cases hret
    · exact absurd rfl (hquiet.pushes r)
  slot i rest d hrest hd := by
    obtain ⟨m, lines⟩ := x
    obtain rfl : lines = _ := hrest
    exact h.slot hslots hd

end Keeps

/-! ### Whole functions -/

/-- The code of a function respects the caller and the frame in every state that a run
comes to. -/
theorem lowerFunc_keepsFrame {l : Ssa.Linear} {p : Placement} {names : LabelTable} {entry : Label} {heads : IdMap IdSet}
    (hc : (⟨l, p, (blockLabels l names).1⟩ : Context).Ready heads) (hfits : p.Fits) (hrecords : p.Records)
    (hslots : p.stackSlots < 2 ^ 28 - 1) (hentry : entry.id < names.length) {cpu : Cpu}
    (hroom : stackBytes p ≤ (cpu.regs .rsp).toNat) {n : Nat} {x : Machine}
    (hsteps : Machine.Steps (lowerFunc l p entry names).lines n ⟨cpu, (lowerFunc l p entry names).lines⟩ x) :
    KeepsFrame p cpu x := by
  have hlabels : ∀ {b lab}, (blockLabels l names).1.get? b = some lab → lab ≠ entry := by
    rintro b _ hlab rfl
    have hid := (id_of_blockLabel hc.laid.nodup hlab).2
    omega
  have hblocks : Shaped p entry (Context.lowerBlocks ⟨l, p, (blockLabels l names).1⟩ l.order).lines :=
    shaped_lowerBlocks hfits hrecords hlabels hc.complete
  have hprogram : ∀ {a rest}, a ≠ entry.address → (lowerFunc l p entry names).lines.after? a = some rest →
      Shaped p entry rest := by
    intro a rest hne hafter
    rw [lowerFunc_lines, after?_append] at hafter
    · exact hblocks.after hafter
    · intro k hk
      rcases List.mem_cons.mp hk with hk | hk
      · rw [Line.label.inj hk]
        exact hne.symm
      · obtain ⟨j, -, hj⟩ := List.mem_map.mp hk
        cases hj
  have hstart : InFrame entry p cpu ⟨cpu, (lowerFunc l p entry names).lines⟩ :=
    .start (held_start cpu (stackBytes p) _) hblocks
  exact (InFrame.steps hrecords hslots hprogram hsteps hstart).keepsFrame hslots hroom

/-- Every function without phis whose blocks end in terminators, whose lists of edges
agree with them, and in which no path comes to a use before a definition, gets places
for its values, with any number of registers, and then code. A run of the code from any
state of the processor with room on the stack respects the caller and the frame in
every state that it comes to. -/
theorem allocated_code_keeps_frame {f : Func} (hphi : f.hasPhis = false) (hlinked : f.Linked) (hended : f.Ended)
    (hstrict : f.Strict) (limit : Option Nat) (entry : Label) (names : LabelTable) (hentry : entry.id < names.length) :
    ∃ l live g a file lines, f.linear = .ok l ∧ l.liveness = .ok live ∧ l.interference live = .ok g ∧
      (RegFile.ofLimit limit).allocate g = .ok (a, file) ∧
      (lowerFunc l a.placement entry names).toExcept = .ok lines ∧
      (a.placement.stackSlots < 2 ^ 28 - 1 → ∃ start, lines.after? entry.address = some start ∧
        ∀ cpu, stackBytes a.placement ≤ (cpu.regs .rsp).toNat →
          ∀ n x, Machine.Steps lines n ⟨cpu, start⟩ x → KeepsFrame a.placement cpu x) := by
  obtain ⟨l, live, g, a, file, hl, rfl, hlive, hg, ha, hcode, hstart, hc, hfits⟩ :=
    exists_allocated hphi hlinked hended hstrict limit entry names
  have hrecords : a.placement.Records := RegFile.allocate_records (RegFile.ofLimit_pool limit).2 ha
  exact ⟨l, live, g, a, file, _, hl, hlive, hg, ha, hcode, fun hslots => ⟨_, hstart, fun cpu hroom n x hsteps =>
    lowerFunc_keepsFrame hc hfits hrecords hslots hentry hroom hsteps⟩⟩

/-- With two registers a function saves one of them and has two slots. -/
theorem halvings_keeps_frame : ∃ l live g a file lines start, halvings.linear = .ok l ∧ l.liveness = .ok live ∧
    l.interference live = .ok g ∧ (RegFile.ofLimit (some 2)).allocate g = .ok (a, file) ∧
    a.placement.stackSlots = 2 ∧ a.placement.calleeSaved = [.rbx] ∧
    (lowerFunc l a.placement ⟨0⟩ ["_main"]).toExcept = .ok lines ∧ lines.after? (Label.address ⟨0⟩) = some start ∧
    ∀ cpu, cpu.regs .rsp = 40 → ∀ n x, Machine.Steps lines n ⟨cpu, start⟩ x → KeepsFrame a.placement cpu x := by
  obtain ⟨l, live, g, a, file, lines, hl, hlive, hg, ha, hlines, hcode⟩ :=
    allocated_code_keeps_frame halvings_noPhis halvings_linked halvings_ended halvings_strict (some 2) ⟨0⟩ ["_main"]
      Nat.one_pos
  have hplaces : (do
      let l ← halvings.linear
      let live ← l.liveness
      let g ← l.interference live
      let p ← (RegFile.ofLimit (some 2)).allocate g
      return (p.1.placement.stackSlots, p.1.placement.calleeSaved)) = .ok (2, [.rbx]) := by decide +kernel
  simp only [hl, hlive, hg, ha, bind, Except.bind] at hplaces
  obtain ⟨hslots, hsaved⟩ := ok_pair_inj hplaces
  obtain ⟨start, hstart, hkeeps⟩ := hcode (by omega)
  refine ⟨l, live, g, a, file, lines, start, hl, hlive, hg, ha, hslots, hsaved, hlines, hstart, fun cpu hrsp => ?_⟩
  apply hkeeps cpu
  rw [stackBytes, frameBytes, hslots, hsaved, hrsp]
  decide

end Chordal.Asm
