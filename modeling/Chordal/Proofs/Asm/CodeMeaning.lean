/-
# The meaning of machine code

The code for a function does on the machine what the function does. A run of the
function and a run of its code go on together: where the function is in a block,
the machine is in the code of that block, and the places of the values that are
live hold them. What is not live may be overwritten, and this is what lets values
share places.

An instruction of the function is some instructions of the machine, or none if it
copies a value to the place where it is. A jump may be none too, but then a label
follows. The code leaves the function where the function returns, and faults where
a division fails.

Key definitions: `Context.Ready`, `Follows`, `Computes`.
Key theorems: `Context.Ready.complete`, `Follows.inside`, `Follows.leave`, `Follows.step`,
`lowerFunc_computes`.
-/
import Mathlib
import Chordal.Proofs.Asm.Aliasing

namespace Chordal.Asm

open Instr (runAll)
open Ssa (BlockId Func State Store Value ofResult liveBeforeAll)

/-! ### Code can be written -/

/-- What is known of a function, the places of its values and the labels of its
blocks before code is written. -/
structure Context.Ready (c : Context) (heads : IdMap IdSet) : Prop where
  laid : c.linear.func.LaidOut c.linear.order
  linked : c.linear.func.Linked
  ended : c.linear.func.Ended
  strict : c.linear.func.Strict
  phis : ∀ b, ∀ i ∈ c.linear.func.code b, i.isPhi = false
  settled : c.linear.Settled heads
  separates : c.placement.Separates c.linear heads
  labels : ∀ b ∈ c.linear.order, ∃ l, c.labels.get? b = some l

variable {c : Context} {heads : IdMap IdSet}

theorem Context.Ready.complete (h : c.Ready heads) : c.Complete c.linear.order where
  label := h.labels
  serves b hb i hi := by
    obtain ⟨earlier, hpath⟩ := h.laid.reached b hb
    obtain ⟨done, rest, hcode⟩ := List.append_of_mem hi
    refine ⟨h.phis b i hi, fun t ht => ?_, fun v hv => ?_, fun a ha => ?_⟩
    · refine h.separates.placed t.id (Ssa.mem_definedIds.mpr ⟨i, ?_, t, ht, rfl⟩)
      exact List.mem_flatMap.mpr ⟨b, hb, hi⟩
    · have hknown := h.strict.use hpath hcode (h.phis b i hi) v hv
      exact h.separates.placed v.id (h.laid.mem_definedIds hpath hcode hknown)
    · obtain ⟨front, last, hlast, -, hfront⟩ := h.ended hpath
      refine h.labels a (h.laid.closed b hb a ?_)
      rw [Func.targets_of_code hlast]
      have hi' : i ∈ front ++ [last] := hlast ▸ hi
      rcases List.mem_append.mp hi' with hi' | hi'
      · have hterm := hfront i hi'
        cases i with
        | jump | branch => cases hterm
        | _ => cases ha
      · rwa [← List.mem_singleton.mp hi']

/-! ### One instruction -/

variable {i : Ssa.Instr} {store : Store} {program : Listing} {m : Machine} {l : Ssa.Linear}
  {p : Placement} {names : LabelTable} {f : Func}

/-- An instruction that computes a value goes on with that value in the store. -/
theorem step_of_computed {content : Value → Word} {t : Value} {r : Except DivisionFault Word}
    (hresult : i.computed content = some (t, r))
    (hread : ∀ v ∈ i.operands, store.get? v.id = some (content v)) (f : Func) (b : BlockId)
    (rest : List Ssa.Instr) :
    f.step b store rest i = (ofResult r).map (fun w => .state ⟨b, rest, store.write t w⟩) := by
  cases i with
  | const | bool =>
    obtain ⟨rfl, rfl⟩ := Prod.mk.inj (Option.some.inj hresult)
    rfl
  | move t v | unary t op v =>
    obtain ⟨rfl, rfl⟩ := Prod.mk.inj (Option.some.inj hresult)
    simp only [Func.step, Store.read_eq_ok (hread v (List.mem_singleton_self v))]
    rfl
  | binary t op v u =>
    obtain ⟨rfl, rfl⟩ := Prod.mk.inj (Option.some.inj hresult)
    simp only [Func.step, Store.read_eq_ok (hread v List.mem_cons_self),
      Store.read_eq_ok (hread u (List.mem_cons_of_mem v (List.mem_singleton_self u))), bind, Except.bind]
    cases op.apply (content v) (content u) <;> rfl
  | phi | jump | branch | ret => cases hresult

/-- The code for an instruction inside a block does what the instruction does. -/
theorem lowerInstr_performs (hs : c.Serves i) (hterm : i.isTerminator = false)
    (hfits : ∀ {id loc}, c.placement.locations.get? id = some loc → loc.Fits) {cpu : Cpu}
    (hread : ∀ v ∈ i.operands, ∀ {loc}, c.placement.locations.get? v.id = some loc →
      store.get? v.id = some (cpu.read (.ofLocation loc))) (f : Func) (b : BlockId)
    (next : Option BlockId) (rest : List Ssa.Instr) :
    ∃ t loc code r, i.target? = some t ∧ c.placement.locations.get? t.id = some loc ∧
      (c.lowerInstr b next i).lines = code.map .instr ∧
      f.step b store rest i = (ofResult r).map (fun w => .state ⟨b, rest, store.write t w⟩) ∧
      cpu.Performs code (.ofLocation loc) r := by
  let place : Value → Location := fun v => (c.placement.locations.get? v.id).getD (.slot 0)
  have hplace : ∀ {v : Value} {loc}, c.placement.locations.get? v.id = some loc →
      c.placement.locations.get? v.id = some (place v) ∧ (Operand.ofLocation (place v)).Usable := by
    intro v loc hloc
    have heq : place v = loc := by simp only [place, hloc, Option.getD_some]
    exact heq ▸ ⟨hloc, usable_ofLocation (hfits hloc)⟩
  have hplaces : c.Places i place := by
    refine ⟨fun t ht => ?_, fun v hv => ?_⟩
    · obtain ⟨loc, hloc⟩ := hs.target t ht
      exact hplace hloc
    · obtain ⟨loc, hloc⟩ := hs.operand v hv
      exact hplace hloc
  obtain ⟨t, r, hresult⟩ : ∃ t r, i.computed (fun v => cpu.read (.ofLocation (place v))) = some (t, r) := by
    cases i with
    | phi => cases hs.phi
    | jump | branch | ret => cases hterm
    | const | bool | move | unary | binary => exact ⟨_, _, rfl⟩
  obtain ⟨code, hcode, htarget, hperforms, -⟩ := lowerInstr_code hplaces b next hresult
  refine ⟨t, place t, code, r, htarget, (hplaces.target t htarget).1, by rw [hcode]; rfl, ?_, hperforms⟩
  exact step_of_computed hresult (fun v hv => hread v hv (hplaces.operand v hv).1) f b rest

/-! ### Jumps -/

/-- The machine gets to the first line of a block and changes nothing. -/
def Reaches (c : Context) (program : Listing) (m : Machine) (t : BlockId) : Prop :=
  ∃ n front later, c.linear.order = front ++ t :: later ∧
    Machine.Steps program n m ⟨m.cpu, (c.lowerBlocks (t :: later)).lines⟩

/-- Labels lead to the code of their blocks. -/
def Context.Labels (c : Context) (program : Listing) : Prop :=
  ∀ {front b later l}, c.linear.order = front ++ b :: later → c.labels.get? b = some l →
    program.after? l.address = some (c.lowerBlocks (b :: later)).lines

section Jumps

variable {program : Listing} {front later : List BlockId} {b t e : BlockId} {cpu : Cpu}

theorem reaches_next (horder : c.linear.order = front ++ b :: later) (ht : later.head? = some t) :
    Reaches c program ⟨cpu, (c.lowerBlocks later).lines⟩ t := by
  obtain ⟨later', rfl⟩ := List.head?_eq_some_iff.mp ht
  exact ⟨0, front ++ [b], later', by simpa using horder, .refl _⟩

theorem Reaches.skip {i : Instr} {rest : Listing} (hi : i.effect cpu = .next cpu)
    (h : Reaches c program ⟨cpu, rest⟩ t) : Reaches c program ⟨cpu, .instr i :: rest⟩ t := by
  obtain ⟨n, front, later, horder, hn⟩ := h
  refine ⟨n + 1, front, later, horder, .head ?_ hn⟩
  simp only [Machine.step, hi]

theorem reaches_jump (hjump : c.Labels program) {i : Instr} {l : Label} (hi : i.effect cpu = .jump l.address)
    (hl : c.labels.get? t = some l) (ht : t ∈ c.linear.order) (rest : Listing) :
    Reaches c program ⟨cpu, .instr i :: rest⟩ t := by
  obtain ⟨front, later, horder⟩ := List.append_of_mem ht
  refine ⟨1, front, later, horder, .one ?_⟩
  simp only [Machine.step, hi, hjump horder hl]

theorem reaches_lowerJump (hjump : c.Labels program) {l : Label} (horder : c.linear.order = front ++ b :: later)
    (hl : c.labels.get? t = some l) (ht : t ∈ c.linear.order) :
    Reaches c program ⟨cpu, (Context.jumpCode later.head? t l).map .instr ++ (c.lowerBlocks later).lines⟩ t := by
  unfold Context.jumpCode
  by_cases hnext : later.head? = some t
  · rw [if_pos hnext]
    exact reaches_next horder hnext
  · rw [if_neg hnext]
    exact reaches_jump hjump rfl hl ht _

/-- A branch goes on with the block that its condition says. -/
theorem reaches_lowerBranch (hjump : c.Labels program) {lt le : Label} {w : Word}
    (horder : c.linear.order = front ++ b :: later) (hlt : c.labels.get? t = some lt)
    (hle : c.labels.get? e = some le) (ht : t ∈ c.linear.order) (he : e ∈ c.linear.order)
    (hflags : cpu.flags = some (.ofSub w 0)) :
    Reaches c program ⟨cpu, (Context.branchCode later.head? t e lt le).map .instr ++
      (c.lowerBlocks later).lines⟩ (if w != 0 then t else e) := by
  unfold Context.branchCode
  have hequal : (Instr.jcc .equal le.address).effect cpu = if w = 0 then .jump le.address else .next cpu := by
    simp only [Instr.effect, hflags, Cond.holds, zero_ofSub, beq_iff_eq]
  have hnot : (Instr.jcc .notEqual lt.address).effect cpu = if w = 0 then .next cpu else .jump lt.address := by
    simp only [Instr.effect, hflags, Cond.holds, zero_ofSub]
    by_cases hw : w = 0 <;> simp [hw]
  by_cases hw : w = 0
  · rw [if_pos hw] at hequal hnot
    rw [if_neg (by simp [hw] : ¬ (w != 0) = true)]
    by_cases hnext : later.head? = some t
    · rw [if_pos hnext]
      exact reaches_jump hjump hequal hle he _
    · rw [if_neg hnext]
      exact (reaches_lowerJump hjump horder hle he).skip hnot
  · rw [if_neg hw] at hequal hnot
    rw [if_pos (bne_iff_ne.mpr hw)]
    by_cases hnext : later.head? = some t
    · rw [if_pos hnext]
      exact (reaches_next horder hnext).skip hequal
    · rw [if_neg hnext]
      exact reaches_jump hjump hnot hlt ht _

end Jumps

/-! ### The end of a function -/

theorem runAll_pops : ∀ (saved : List Reg) (m : Cpu),
    ∃ m', runAll (saved.map .pop) m = .next m' ∧ Cpu.Changes (.rsp :: saved) m m'
  | [], m => ⟨m, rfl, .refl _ m⟩
  | r :: saved, m => by
    let m₁ := (m.set .rsp (m.regs .rsp + 8)).set r (m.memory.load (m.regs .rsp) 64)
    have hch : Cpu.Changes (.rsp :: r :: saved) m m₁ :=
      (Cpu.Changes.set List.mem_cons_self m _).trans
        (.set (List.mem_cons_of_mem _ List.mem_cons_self) _ _)
    obtain ⟨m', hrun, hch'⟩ := runAll_pops saved m₁
    refine ⟨m', hrun, hch.trans (hch'.mono fun q hq => ?_)⟩
    rcases List.mem_cons.mp hq with rfl | hq
    · exact List.mem_cons_self
    · exact List.mem_cons_of_mem _ (List.mem_cons_of_mem _ hq)

theorem rax_not_mem_calleeSaved (p : Placement) : Reg.rax ∉ p.calleeSaved := by
  intro h
  exact absurd (List.mem_filter.mp h).2 (by decide)

/-- The code that leaves a function ends the run with what is in `rax`. -/
theorem epilogue_returns {rest : Listing} (p : Placement) (m : Cpu) :
    Machine.Halts program ⟨m, (Frame.ofPlacement p).epilogue.map .instr ++ rest⟩ (.returned (m.low .rax)) := by
  obtain ⟨m₁, hrun, hch₁⟩ := runAll_pops p.calleeSaved.reverse m
  let m₂ := (m₁.set .rsp (m₁.regs .rsp + p.frameSize.signExtend 64)).withFlags
    (some (.ofAdd (m₁.regs .rsp) (p.frameSize.signExtend 64)))
  let m₃ := (m₂.set .rsp (m₂.regs .rsp + 8)).set .rbp (m₂.memory.load (m₂.regs .rsp) 64)
  have hch₃ : Cpu.Changes [.rsp, .rbp] m₁ m₃ :=
    ((Cpu.Changes.set (by decide) m₁ _).withFlags _).trans
      ((Cpu.Changes.set (by decide) m₂ _).trans (.set (by decide) _ _))
  have hrax : Reg.rax ∉ .rsp :: p.calleeSaved.reverse := by
    rw [List.mem_cons, List.mem_reverse, not_or]
    exact ⟨by decide, rax_not_mem_calleeSaved p⟩
  have hlow : m₃.low .rax = m.low .rax := (hch₃.low (by decide)).trans (hch₁.low hrax)
  have hclose : runAll [.add64 .rsp p.frameSize, .pop .rbp] m₁ = .next m₃ := rfl
  have hsplit : (Frame.ofPlacement p).epilogue.map Line.instr ++ rest =
      (p.calleeSaved.reverse.map Instr.pop ++ [Instr.add64 .rsp p.frameSize, .pop .rbp]).map .instr ++
        (.instr .ret :: rest) := by
    simp [Frame.epilogue, Frame.ofPlacement, Frame.closeCode]
  rw [hsplit]
  have hall : runAll (p.calleeSaved.reverse.map .pop ++ [.add64 .rsp p.frameSize, .pop .rbp]) m = .next m₃ := by
    rw [runAll_append _ hrun, hclose]
  refine Machine.Halts.prepend (Machine.steps_runAll hall) ⟨0, _, .refl _, ?_⟩
  rw [← hlow]
  rfl

/-! ### Going on together -/

/-- The machine is where the function is, and holds what is live there. -/
structure Follows (c : Context) (heads : IdMap IdSet) (x : State) (m : Machine) : Prop where
  onPath : ∃ earlier done, c.linear.func.OnPath earlier done x
  code : x.code ≠ []
  lines : ∃ front later, c.linear.order = front ++ x.block :: later ∧
    m.rest = c.lines x.block later.head? x.code ++ (c.lowerBlocks later).lines
  values : ∀ id ∈ liveBeforeAll x.code (c.linear.liveAtEnd heads x.block), ∀ {loc},
    c.placement.locations.get? id = some loc → x.store.get? id = some (m.cpu.read (.ofLocation loc))

/-- What a run of code may end with. -/
def haltOf : Except DivisionFault Word → Halt
  | .ok w => .returned w
  | .error _ => .fault

/-- What an instruction reads is live before it. -/
theorem Follows.operand {b : BlockId} {rest : List Ssa.Instr}
    (h : Follows c heads ⟨b, i :: rest, store⟩ m) : ∀ v ∈ i.operands, ∀ {loc},
    c.placement.locations.get? v.id = some loc → store.get? v.id = some (m.cpu.read (.ofLocation loc)) := by
  intro v hv loc hloc
  refine h.values v.id ?_ hloc
  rw [Ssa.liveBeforeAll_cons]
  exact Ssa.mem_liveBefore.mpr (.inr ⟨v, hv, rfl⟩)

section Run

variable {program : Listing} (hc : c.Ready heads)
  (hfits : ∀ {id loc}, c.placement.locations.get? id = some loc → loc.Fits)
  (hjump : c.Labels program)

include hc

theorem Follows.serves {b : BlockId} {i : Ssa.Instr} {rest : List Ssa.Instr} {store : Store} {m : Machine}
    (h : Follows c heads ⟨b, i :: rest, store⟩ m) : c.Serves i := by
  obtain ⟨earlier, done, hpath⟩ := h.onPath
  have hb : b ∈ c.linear.order := (hc.laid.mem_of_path hpath.path).1
  have hcode : c.linear.code b = done ++ i :: rest := hpath.code
  exact hc.complete.serves b hb i (hcode ▸ List.mem_append_right _ List.mem_cons_self)

include hfits in
/-- Both run an instruction inside a block. -/
theorem Follows.inside {b : BlockId} {i : Ssa.Instr} {rest : List Ssa.Instr} {store : Store} {m : Machine}
    (h : Follows c heads ⟨b, i :: rest, store⟩ m) (hrest : rest ≠ []) :
    (∃ r, Ssa.Halts c.linear.func ⟨b, i :: rest, store⟩ (ofResult r) ∧ Machine.Halts program m (haltOf r)) ∨
      ∃ n x' m', c.linear.func.Steps 1 ⟨b, i :: rest, store⟩ x' ∧ Machine.Steps program n m m' ∧
        Follows c heads x' m' ∧ x'.code.length < (i :: rest).length := by
  obtain ⟨earlier, done, hpath⟩ := h.onPath
  have hb : b ∈ c.linear.order := (hc.laid.mem_of_path hpath.path).1
  have hcode : c.linear.code b = done ++ i :: rest := hpath.code
  have hterm : i.isTerminator = false := by
    rw [← Bool.not_eq_true, hpath.isTerminator_iff hc.ended]
    exact hrest
  obtain ⟨front, later, horder, hlines⟩ := h.lines
  obtain ⟨t, loc, code, r, ht, hloc, hlower, hstep, hperf⟩ :=
    lowerInstr_performs (h.serves hc) hterm hfits h.operand c.linear.func b later.head? rest
  obtain ⟨cpu, mrest⟩ := m
  obtain rfl : mrest = code.map .instr ++ (c.lines b later.head? rest ++ (c.lowerBlocks later).lines) := by
    refine hlines.trans ?_
    rw [Context.lines_cons, hlower, List.append_assoc]
  cases r with
  | error fault =>
    refine .inl ⟨.error fault, ⟨0, _, .refl _, i, rest, rfl, .inr ⟨_, hstep, rfl⟩⟩, ?_⟩
    exact Machine.halts_runAll hperf
  | ok w =>
    obtain ⟨cpu', hrun, hwrites⟩ := hperf
    refine .inr ⟨code.length, ⟨b, rest, store.write t w⟩, _, .one hstep, Machine.steps_runAll hrun,
      ⟨⟨earlier, _, hpath.write ht w⟩, hrest, ⟨front, later, horder, rfl⟩, ?_⟩, Nat.lt_succ_self _⟩
    intro id hid loc' hloc'
    rw [Store.get?_write]
    split_ifs with he
    · subst he
      obtain rfl := Option.some.inj (hloc.symm.trans hloc')
      rw [hwrites.value]
    · -- what is live behind the instruction does not share the place of its target
      have hapart := hc.separates.apart b hb hcode ht id hid he hloc
      have hlive : id ∈ liveBeforeAll (i :: rest) (c.linear.liveAtEnd heads b) := by
        rw [Ssa.liveBeforeAll_cons]
        refine Ssa.mem_liveBefore.mpr (.inl ⟨hid, fun t' ht' hid' => ?_⟩)
        exact he (Option.some.inj (ht.symm.trans ht') ▸ hid'.symm)
      rw [h.values id hlive hloc',
        hwrites.read_of_ne (hfits hloc) (hfits hloc') fun heq => hapart (heq ▸ hloc')]

include hfits in
/-- Control comes to a block: what is live there was live where it came from. -/
theorem Follows.enter {b t : BlockId} {i : Ssa.Instr} {store : Store} {m : Machine} {cpu : Cpu}
    {front later : List BlockId} (h : Follows c heads ⟨b, [i], store⟩ m) (ht : t ∈ i.successors)
    (hread : ∀ {loc : Location}, loc.Fits → cpu.read (.ofLocation loc) = m.cpu.read (.ofLocation loc))
    (horder : c.linear.order = front ++ t :: later) :
    Follows c heads ⟨t, c.linear.func.code t, store⟩
      ⟨cpu, c.lines t later.head? (c.linear.code t) ++ (c.lowerBlocks later).lines⟩ := by
  obtain ⟨earlier, done, hpath⟩ := h.onPath
  have hterm : i.isTerminator = true := (hpath.isTerminator_iff hc.ended).mpr rfl
  have hcode : c.linear.func.code b = done ++ [i] := hpath.code
  have htargets : t ∈ c.linear.func.targets b := by rwa [Func.targets_of_code hcode]
  have hbody := Func.body_of_noPhis (hc.phis t)
  have hphis := Func.phis_of_noPhis (hc.phis t)
  have hnext : c.linear.func.OnPath (b :: earlier) _ ⟨t, _, store⟩ :=
    hpath.enter hterm htargets (fun j hj => hc.phis t j (hbody ▸ hj)) (fun _ hid => hid)
      (fun id hid => by rw [hphis] at hid; cases hid)
  rw [hbody, hphis] at hnext
  refine ⟨⟨_, _, hnext⟩, ?_, ⟨front, later, horder, rfl⟩, ?_⟩
  · exact Func.Ended.code_ne_nil hc.ended hnext.path
  · intro id hid loc hloc
    have hmem : t ∈ c.linear.order := horder ▸ List.mem_append_right _ List.mem_cons_self
    have hhead : id ∈ Ssa.Linear.headOf heads t := by
      rw [hc.settled.headOf_eq hmem]
      exact hid
    have hend : id ∈ c.linear.liveAtEnd heads b :=
      Ssa.Linear.mem_liveAtEnd.mpr ⟨t, hc.linked.mem_succs.mpr htargets, hhead⟩
    have hlive : id ∈ liveBeforeAll [i] (c.linear.liveAtEnd heads b) := by
      rw [Ssa.liveBeforeAll_cons]
      refine Ssa.mem_liveBefore.mpr (.inl ⟨hend, fun v hv => ?_⟩)
      cases i with
      | jump | branch | ret => cases hv
      | _ => cases hterm
    rw [h.values id hlive hloc, hread (hfits hloc)]

include hfits in
/-- Both take an edge. -/
theorem Follows.edge {b t : BlockId} {i : Ssa.Instr} {store : Store} {m : Machine} {cpu : Cpu} {rest : Listing}
    {n : Nat} (h : Follows c heads ⟨b, [i], store⟩ m) (ht : t ∈ i.successors)
    (hstep : c.linear.func.step b store [] i = (c.linear.func.enter (some b) t store).map Ssa.Next.state)
    (hsteps : Machine.Steps program n m ⟨cpu, rest⟩) (hreach : Reaches c program ⟨cpu, rest⟩ t)
    (hread : ∀ {loc : Location}, loc.Fits → cpu.read (.ofLocation loc) = m.cpu.read (.ofLocation loc)) :
    ∃ k x' m', c.linear.func.Steps 1 ⟨b, [i], store⟩ x' ∧ Machine.Steps program (k + 1) m m' ∧
      Follows c heads x' m' := by
  obtain ⟨k, front, later, horder, hk⟩ := hreach
  have hmem : t ∈ c.linear.order := horder ▸ List.mem_append_right _ List.mem_cons_self
  obtain ⟨l, hl⟩ := hc.labels t hmem
  have hcomplete : c.Complete (t :: later) :=
    ⟨fun a ha => hc.labels a (horder ▸ List.mem_append_right _ ha),
      fun a ha => hc.complete.serves a (horder ▸ List.mem_append_right _ ha)⟩
  have hfollows := h.enter hc hfits ht hread horder
  obtain ⟨earlier, done, hpath⟩ := hfollows.onPath
  refine ⟨n + k, _, _, .one ?_, (hsteps.trans hk).trans (.one ?_), hfollows⟩
  · rw [hstep, Func.enter_of_noPhis (Func.Ended.lt hc.ended hpath.path) (hc.phis t)]
    rfl
  · rw [Context.lowerBlocks_cons hcomplete hl]
    rfl

include hfits hjump in
/-- Both leave a block, or the function. -/
theorem Follows.leave {b : BlockId} {i : Ssa.Instr} {store : Store} {m : Machine}
    (h : Follows c heads ⟨b, [i], store⟩ m) :
    (∃ r, Ssa.Halts c.linear.func ⟨b, [i], store⟩ (ofResult r) ∧ Machine.Halts program m (haltOf r)) ∨
      ∃ k x' m', c.linear.func.Steps 1 ⟨b, [i], store⟩ x' ∧ Machine.Steps program (k + 1) m m' ∧
        Follows c heads x' m' := by
  obtain ⟨earlier, done, hpath⟩ := h.onPath
  have hterm : i.isTerminator = true := (hpath.isTerminator_iff hc.ended).mpr rfl
  have hb : b ∈ c.linear.order := (hc.laid.mem_of_path hpath.path).1
  have hserves := h.serves hc
  have hclosed : ∀ t ∈ i.successors, t ∈ c.linear.order := fun t ht =>
    hc.laid.closed b hb t (by rwa [Func.targets_of_code hpath.code])
  obtain ⟨front, later, horder, hlines⟩ := h.lines
  rw [Context.lines_cons, Context.lines, List.flatMap_nil, List.append_nil] at hlines
  have hoperand := h.operand
  obtain ⟨cpu, rest⟩ := m
  simp only at hlines hoperand
  cases i with
  | jump t =>
    have ht : t ∈ (Ssa.Instr.jump t).successors := List.mem_singleton_self t
    obtain ⟨l, hl⟩ := hserves.label t ht
    rw [Context.lowerInstr, Context.lowerJump_ok hl, Emission.ofInstrs_ok] at hlines
    have hreach : Reaches c program ⟨cpu, rest⟩ t := hlines ▸ reaches_lowerJump hjump horder hl (hclosed t ht)
    exact .inr (h.edge hc hfits ht rfl (.refl _) hreach fun _ => rfl)
  | branch v t e =>
    have hv : v ∈ (Ssa.Instr.branch v t e).operands := List.mem_singleton_self v
    have ht : t ∈ (Ssa.Instr.branch v t e).successors := List.mem_cons_self
    have he : e ∈ (Ssa.Instr.branch v t e).successors := List.mem_cons_of_mem t (List.mem_singleton_self e)
    obtain ⟨loc, hloc⟩ := hserves.operand v hv
    obtain ⟨lt, hlt⟩ := hserves.label t ht
    obtain ⟨le, hle⟩ := hserves.label e he
    have hw := hoperand v hv hloc
    obtain ⟨cpu₁, hrun, hlow, hch⟩ := stage_changes (.ofLocation loc) cpu
    let cpu₂ := cpu₁.withFlags (some (.ofSub (cpu₁.low (workReg (.ofLocation loc))) 0))
    have hrun₂ : runAll (stage (.ofLocation loc) ++ [.cmpImm (workReg (.ofLocation loc)) 0]) cpu = .next cpu₂ := by
      rw [runAll_append _ hrun]
      rfl
    have hflags : cpu₂.flags = some (.ofSub (cpu.read (.ofLocation loc)) 0) := by rw [← hlow]; rfl
    have hreach := reaches_lowerBranch hjump horder hlt hle (hclosed t ht) (hclosed e he) hflags
    have hread : ∀ {loc : Location}, loc.Fits → cpu₂.read (.ofLocation loc) = cpu.read (.ofLocation loc) := by
      intro loc' hfit
      refine (hch.withFlags _).read (by decide) fun r hr hmem => ?_
      exact (usable_ofLocation hfit).ne_reg (r := .r11) (by decide) (by rw [hr, List.mem_singleton.mp hmem])
    obtain rfl : rest = (stage (.ofLocation loc) ++ [Instr.cmpImm (workReg (.ofLocation loc)) 0]).map .instr ++
        ((Context.branchCode later.head? t e lt le).map .instr ++ (c.lowerBlocks later).lines) := by
      rw [hlines, Context.lowerInstr, Context.operand_eq hloc, Context.lowerBranch_whole hlt hle]
      exact List.append_assoc _ _ _
    refine .inr (h.edge hc hfits (t := if cpu.read (.ofLocation loc) != 0 then t else e) ?_ ?_
      (Machine.steps_runAll hrun₂) hreach hread)
    · split_ifs
      · exact ht
      · exact he
    · simp only [Func.step, Store.read_eq_ok hw]
      rfl
  | ret v =>
    have hv : v ∈ (Ssa.Instr.ret v).operands := List.mem_singleton_self v
    obtain ⟨loc, hloc⟩ := hserves.operand v hv
    have hw := hoperand v hv hloc
    obtain ⟨cpu', hrun, hlow, -⟩ := load_changes .rax (.ofLocation loc) cpu
    refine .inl ⟨.ok (cpu.read (.ofLocation loc)), ⟨0, _, .refl _, _, _, rfl, .inl ⟨_, ?_, rfl⟩⟩, ?_⟩
    · simp only [Func.step, Store.read_eq_ok hw]
      rfl
    · obtain rfl : rest = (load .rax (.ofLocation loc)).map .instr ++
          (c.frame.epilogue.map .instr ++ (c.lowerBlocks later).lines) := by
        rw [hlines, Context.lowerInstr, Context.operand_eq hloc, ← List.append_assoc, ← List.map_append]
        rfl
      rw [haltOf, ← hlow]
      exact (epilogue_returns c.placement cpu').prepend (Machine.steps_runAll hrun)
  | _ => cases hterm

include hfits hjump in
/-- Both stop with the same result, or go on. -/
theorem Follows.step {x : State} {m : Machine} (h : Follows c heads x m) :
    (∃ r, Ssa.Halts c.linear.func x (ofResult r) ∧ Machine.Halts program m (haltOf r)) ∨
      ∃ n k x' m', c.linear.func.Steps (n + 1) x x' ∧ Machine.Steps program k m m' ∧ Follows c heads x' m' ∧
        (0 < k ∨ x'.code.length < x.code.length) := by
  obtain ⟨b, code, store⟩ := x
  cases code with
  | nil => exact absurd rfl h.code
  | cons i rest =>
    by_cases hrest : rest = []
    · subst hrest
      rcases h.leave hc hfits hjump with hend | ⟨k, x', m', hx, hm, hrel⟩
      · exact .inl hend
      · exact .inr ⟨0, k + 1, x', m', hx, hm, hrel, .inl (Nat.succ_pos k)⟩
    · rcases h.inside hc hfits hrest with hend | ⟨k, x', m', hx, hm, hrel, hlt⟩
      · exact .inl hend
      · exact .inr ⟨0, k, x', m', hx, hm, hrel, .inr hlt⟩

end Run

/-! ### Whole functions -/

theorem runAll_pushes : ∀ (saved : List Reg) (m : Cpu), ∃ m', runAll (saved.map .push) m = .next m'
  | [], m => ⟨m, rfl⟩
  | _ :: saved, _ => runAll_pushes saved _

theorem prologue_runs (f : Frame) (m : Cpu) : ∃ m', runAll f.prologue m = .next m' :=
  runAll_pushes f.saved _

/-- The lines of a function. -/
theorem lowerFunc_lines (l : Ssa.Linear) (p : Placement) (entry : Label) (names : LabelTable) :
    (lowerFunc l p entry names).lines = .label entry :: (Frame.ofPlacement p).prologue.map .instr ++
      (Context.lowerBlocks ⟨l, p, (blockLabels l names).1⟩ l.order).lines := rfl

/-- In the code of a function labels lead to their blocks. -/
theorem labels_lowerFunc {entry : Label}
    (hc : (⟨l, p, (blockLabels l names).1⟩ : Context).Ready heads)
    (hentry : entry.id < names.length) :
    (⟨l, p, (blockLabels l names).1⟩ : Context).Labels (lowerFunc l p entry names).lines := by
  intro front b later lab horder hlab
  have hnd := hc.laid.nodup
  have hid := (id_of_blockLabel hnd hlab).2
  rw [lowerFunc_lines, after?_append, horder, Context.after?_lowerBlocks hlab]
  · exact horder ▸ hc.complete
  · intro a ha la hla heq
    have hida := (id_of_blockLabel hnd hla).2
    rw [heq] at hida
    have hab : a = b := (List.idxOf_inj (id_of_blockLabel hnd hla).1).mp (by omega)
    have hnd' : (front ++ b :: later).Nodup := horder ▸ hnd
    exact (List.nodup_append.mp hnd').2.2 a ha b List.mem_cons_self hab
  · intro k hk
    rcases List.mem_cons.mp hk with hk | hk
    · rw [Line.label.inj hk]
      refine mt Label.address_inj.mp fun heq => ?_
      rw [heq] at hentry
      omega
    · obtain ⟨j, -, hj⟩ := List.mem_map.mp hk
      cases hj

/-- A machine that runs a listing does what a function does: it returns what the
function returns, faults where a division of the function fails, and goes on
forever otherwise. It does not come to the end of the listing. -/
structure Computes (program : Listing) (m : Machine) (f : Func) : Prop where
  returned : ∀ w, Machine.Halts program m (.returned w) ↔ ∃ n, f.run n = .ok w
  faulted : Machine.Halts program m .fault ↔ ∃ n fault, f.run n = .error (.division fault)
  forever : Machine.RunsForever program m ↔ ∀ n, f.run n = .error (.stepLimit n)
  otherwise : (∃ w, Machine.Halts program m (.returned w)) ∨ Machine.Halts program m .fault ∨
    Machine.RunsForever program m
  not_ranOff : ¬ Machine.Halts program m .ranOff
  not_outside : ¬ Machine.Halts program m .outside

theorem computes_of_halts {x : State} {r : Except DivisionFault Word}
    (hx : f.enter none f.start (.undefined f.valueCount) = .ok x) (hf : Ssa.Halts f x (ofResult r))
    (hm : Machine.Halts program m (haltOf r)) : Computes program m f := by
  obtain ⟨hrun, hlimit⟩ := Ssa.run_iff_of_halts hx hf
  have hhalt : ∀ h, Machine.Halts program m h ↔ h = haltOf r := fun h =>
    ⟨fun hh => hh.unique hm, fun he => he ▸ hm⟩
  refine ⟨fun w => ?_, ?_, iff_of_false hm.not_runsForever hlimit, ?_, ?_, ?_⟩
  · rw [hhalt, show (∃ n, f.run n = .ok w) ↔ Except.ok w = r from hrun (.ok w)]
    cases r <;> simp [haltOf]
  · rw [hhalt]
    constructor
    · intro h
      cases r with
      | ok w => cases h
      | error fault =>
        obtain ⟨n, hn⟩ := (hrun (.error fault)).mpr rfl
        exact ⟨n, fault, hn⟩
    · rintro ⟨n, fault, hn⟩
      rw [← (hrun (.error fault)).mp ⟨n, hn⟩]
      rfl
  · cases r with
    | ok w => exact .inl ⟨w, hm⟩
    | error fault => exact .inr (.inl hm)
  · rw [hhalt]
    cases r <;> exact fun h => by cases h
  · rw [hhalt]
    cases r <;> exact fun h => by cases h

theorem computes_of_diverges {x : State}
    (hx : f.enter none f.start (.undefined f.valueCount) = .ok x)
    (hf : ∀ n, ∃ k y, n < k ∧ f.Steps k x y)
    (hm : ∀ n, ∃ k m', n < k ∧ Machine.Steps program k m m') : Computes program m f := by
  have hlimit := Ssa.run_of_diverges hx hf
  have hforever : Machine.RunsForever program m := by
    intro n
    obtain ⟨k, m', hlt, hk⟩ := hm n
    obtain ⟨j, rfl⟩ := Nat.exists_eq_add_of_lt hlt
    exact Machine.Steps.split (Nat.add_assoc n j 1 ▸ hk)
  have hnot : ∀ h, ¬ Machine.Halts program m h := fun h hh => hh.not_runsForever hforever
  refine ⟨fun w => iff_of_false (hnot _) ?_, iff_of_false (hnot _) ?_, iff_of_true hforever hlimit,
    .inr (.inr hforever), hnot _, hnot _⟩
  · rintro ⟨n, hn⟩
    rw [hlimit n] at hn
    cases hn
  · rintro ⟨n, fault, hn⟩
    rw [hlimit n] at hn
    cases hn

/-- The machine opens the frame and comes to the first block, where nothing is
live yet. -/
theorem follows_start (hc : (⟨l, p, (blockLabels l names).1⟩ : Context).Ready heads) (entry : Label)
    (cpu : Cpu) :
    ∃ n m, Machine.Steps (lowerFunc l p entry names).lines n ⟨cpu, (lowerFunc l p entry names).lines⟩ m ∧
      Follows ⟨l, p, (blockLabels l names).1⟩ heads
        ⟨l.func.start, l.func.code l.func.start, .undefined l.func.valueCount⟩ m := by
  obtain ⟨later, horder⟩ := hc.laid.first
  simp only at horder
  have hcomplete := hc.complete
  simp only [horder] at hcomplete
  obtain ⟨lab, hlab⟩ := hcomplete.label l.func.start List.mem_cons_self
  obtain ⟨cpu', hrun⟩ := prologue_runs (Frame.ofPlacement p) cpu
  have hentry : Machine.Steps (lowerFunc l p entry names).lines 1 ⟨cpu, (lowerFunc l p entry names).lines⟩
      ⟨cpu, (Frame.ofPlacement p).prologue.map .instr ++
        (Context.lowerBlocks ⟨l, p, (blockLabels l names).1⟩ l.order).lines⟩ := .one rfl
  refine ⟨_, ⟨cpu', _⟩, (hentry.trans (Machine.steps_runAll hrun)).trans (.one ?_),
    ⟨[], [], .start, rfl, hc.phis _, ?_⟩, Func.Ended.code_ne_nil hc.ended .start, ⟨[], later, horder, rfl⟩, ?_⟩
  · rw [horder, Context.lowerBlocks_cons hcomplete hlab]
    rfl
  · rintro id (hid | ⟨a, ha, -⟩)
    · cases hid
    · cases ha
  · intro id hid loc _
    have hmem : l.func.start ∈ l.order := horder ▸ List.mem_cons_self
    have hlive := hc.settled.live l.func.start id (hc.settled.headOf_eq hmem ▸ hid)
    rcases hc.strict.known_of_liveAt hc.phis hlive [] .start rfl with hid | ⟨a, ha, -⟩
    · cases hid
    · cases ha

/-- The code of a function computes what the function computes. -/
theorem lowerFunc_computes {entry : Label}
    (hc : (⟨l, p, (blockLabels l names).1⟩ : Context).Ready heads) (hfits : p.Fits)
    (hslots : p.stackSlots ≤ 2 ^ 28) (hentry : entry.id < names.length) (cpu : Cpu) :
    Computes (lowerFunc l p entry names).lines ⟨cpu, (lowerFunc l p entry names).lines⟩ l.func := by
  obtain ⟨n, m, hn, hfollows⟩ := follows_start hc entry cpu
  have hx : l.func.enter none l.func.start (.undefined l.func.valueCount) = .ok _ :=
    Func.enter_of_noPhis (Func.Ended.lt hc.ended .start) (hc.phis _) none _
  have hrun := Ssa.lockstep_of_measure (S := l.func.Steps)
    (T := Machine.Steps (lowerFunc l p entry names).lines) (H := fun x r => Ssa.Halts l.func x (ofResult r))
    (K := fun m r => Machine.Halts (lowerFunc l p entry names).lines m (haltOf r))
    Func.Steps.trans .refl Machine.Steps.trans .refl Ssa.Halts.prepend Machine.Halts.prepend
    (fun x : State => x.code.length)
    (fun _ _ h => h.step hc (hfits.location hslots) (labels_lowerFunc hc hentry)) hfollows
  rcases hrun with ⟨r, hf, hm⟩ | ⟨hf, hm⟩
  · exact computes_of_halts hx hf (hm.prepend hn)
  · refine computes_of_diverges hx hf fun j => ?_
    obtain ⟨k, m', hlt, hk⟩ := hm j
    exact ⟨n + k, m', Nat.lt_of_lt_of_le hlt (Nat.le_add_left k n), hn.trans hk⟩

/-- A function of this kind gets places for its values, with any number of registers, and
whole code, which begins at its entry and has all that is asked of a context. -/
theorem exists_allocated (hphi : f.hasPhis = false) (hlinked : f.Linked) (hended : f.Ended)
    (hstrict : f.Strict) (limit : Option Nat) (entry : Label) (names : LabelTable) :
    ∃ l live g a file, f.linear = .ok l ∧ l.func = f ∧ l.liveness = .ok live ∧ l.interference live = .ok g ∧
      (RegFile.ofLimit limit).allocate g = .ok (a, file) ∧
      (lowerFunc l a.placement entry names).toExcept = .ok (lowerFunc l a.placement entry names).lines ∧
      (lowerFunc l a.placement entry names).lines.after? entry.address =
        some (lowerFunc l a.placement entry names).lines ∧
      (⟨l, a.placement, (blockLabels l names).1⟩ : Context).Ready live.heads ∧ a.placement.Fits := by
  have hnone := Func.hasPhis_eq_false.mp hphi
  obtain ⟨order, horder, hlaid⟩ := Func.layout_laidOut hended
  obtain ⟨hnd, hpool⟩ := RegFile.ofLimit_pool limit
  obtain ⟨live, g, a, file, hlive, hg, ha, -, hsettled, hfits, hseparates⟩ :=
    RegFile.allocateLinear_ok (l := ⟨f, order⟩) hnd hpool hlaid hlinked hstrict hnone
  have hc : (⟨⟨f, order⟩, a.placement, (blockLabels ⟨f, order⟩ names).1⟩ : Context).Ready live.heads :=
    ⟨hlaid, hlinked, hended, hstrict, hnone, hsettled, hseparates, fun b => exists_blockLabel hlaid.nodup names⟩
  have hwhole : (lowerFunc ⟨f, order⟩ a.placement entry names).failure = none :=
    Context.lowerBlocks_whole hc.complete
  refine ⟨_, live, g, a, file, Func.linear_eq horder, rfl, hlive, hg, ha, ?_, ?_, hc, hfits⟩
  · rw [Emission.eq_whole hwhole]
    rfl
  · rw [lowerFunc_lines]
    exact after?_self entry _

/-- Every function without phis whose blocks end in terminators, whose lists of
edges agree with them, and in which no path comes to a use before a definition,
gets places for its values, with any number of registers, and then code. The code
computes what the function computes, whatever the state of the processor is in
which it is entered. -/
theorem allocated_code_computes {f : Func} (hphi : f.hasPhis = false) (hlinked : f.Linked) (hended : f.Ended)
    (hstrict : f.Strict) (limit : Option Nat) (entry : Label) (names : LabelTable) (hentry : entry.id < names.length) :
    ∃ l live g a file lines, f.linear = .ok l ∧ l.liveness = .ok live ∧ l.interference live = .ok g ∧
      (RegFile.ofLimit limit).allocate g = .ok (a, file) ∧
      (lowerFunc l a.placement entry names).toExcept = .ok lines ∧
      (a.placement.stackSlots < 2 ^ 28 - 1 →
        ∃ start, lines.after? entry.address = some start ∧ ∀ cpu, Computes lines ⟨cpu, start⟩ f) := by
  obtain ⟨l, live, g, a, file, hl, rfl, hlive, hg, ha, hcode, hstart, hc, hfits⟩ :=
    exists_allocated hphi hlinked hended hstrict limit entry names
  exact ⟨l, live, g, a, file, _, hl, hlive, hg, ha, hcode, fun hslots => ⟨_, hstart, fun cpu =>
    lowerFunc_computes hc hfits (by omega) hentry cpu⟩⟩

/-- Counts how often a hundred can be halved. Four values are live at once. -/
def halvings : Func where
  name := "main"
  returns := .int
  isEntry := true
  start := 0
  blocks := #[
    ⟨0, "entry", [.const ⟨0, .int⟩ 100, .const ⟨1, .int⟩ 0, .const ⟨2, .int⟩ 2, .const ⟨3, .int⟩ 1, .jump 1], [], [1]⟩,
    ⟨1, "loop", [.branch ⟨0, .int⟩ 2 3], [0, 2], [2, 3]⟩,
    ⟨2, "body", [.binary ⟨0, .int⟩ .div ⟨0, .int⟩ ⟨2, .int⟩, .binary ⟨1, .int⟩ .add ⟨1, .int⟩ ⟨3, .int⟩, .jump 1],
      [1], [1]⟩,
    ⟨3, "exit", [.ret ⟨1, .int⟩], [1], []⟩]
  valueCount := 4

theorem halvings_noPhis : halvings.hasPhis = false := by decide +kernel

theorem halvings_linked : halvings.Linked := .of_blocks (by decide)

theorem halvings_ended : halvings.Ended := Func.Ended.of_blocks (by decide) (by decide)

theorem halvings_strict : halvings.Strict := .of_first halvings_noPhis (by decide) (by decide)

/-- With two registers two of the four values are in the frame. A machine in any
state returns the seven that the function returns. -/
theorem halvings_returns : ∃ l live g a file lines start, halvings.linear = .ok l ∧ l.liveness = .ok live ∧
    l.interference live = .ok g ∧ (RegFile.ofLimit (some 2)).allocate g = .ok (a, file) ∧
    a.placement.stackSlots = 2 ∧ (lowerFunc l a.placement ⟨0⟩ ["_main"]).toExcept = .ok lines ∧
    lines.after? (Label.address ⟨0⟩) = some start ∧ ∀ cpu, Machine.Halts lines ⟨cpu, start⟩ (.returned 7) := by
  obtain ⟨l, live, g, a, file, lines, hl, hlive, hg, ha, hlines, hcode⟩ :=
    allocated_code_computes halvings_noPhis halvings_linked halvings_ended halvings_strict (some 2) ⟨0⟩ ["_main"]
      Nat.one_pos
  have hslots : (do
      let l ← halvings.linear
      let live ← l.liveness
      let g ← l.interference live
      let p ← (RegFile.ofLimit (some 2)).allocate g
      return p.1.placement.stackSlots) = .ok 2 := by decide +kernel
  simp only [hl, hlive, hg, ha, bind, Except.bind] at hslots
  have htwo : a.placement.stackSlots = 2 := Except.ok.inj hslots
  obtain ⟨start, hstart, hcomputes⟩ := hcode (by omega)
  refine ⟨l, live, g, a, file, lines, start, hl, hlive, hg, ha, htwo, hlines, hstart, fun cpu => ?_⟩
  exact ((hcomputes cpu).returned 7).mpr ⟨100, by decide +kernel⟩

end Chordal.Asm
