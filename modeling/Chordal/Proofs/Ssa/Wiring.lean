/-
# The edges of a flow graph in the making

A builder writes on in one block and makes edges from it when it leaves it, or it
begins a block that edges wait for. Either way it appends code to one block, and
the edges that are new leave that block (`Builder.Writes`). So between any two
operations the lists of edges agree with the terminators, every block that is
begun can be reached, and the edges to a block that is not begun are those that
wait for it (`Builder.Wired`).

Key definitions: `exits`, `Builder.Writes`, `Builder.Wired`.
Key theorems: `Builder.Wired.of_writes`, `Builder.Wired.congr`.
-/
import Mathlib
import Chordal.Proofs.Ssa.Flow
import Chordal.Proofs.Ssa.Stages

namespace Chordal.Ssa

/-! ### Where code sends control -/

/-- Where the last instruction of some code sends control. -/
def exits (c : List Instr) : List BlockId := (c.getLast?.map Instr.successors).getD []

@[simp] theorem exits_concat (c : List Instr) (i : Instr) : exits (c ++ [i]) = i.successors := by
  unfold exits
  rw [List.getLast?_concat]
  rfl

theorem Instr.successors_of_not_terminator {i : Instr} (h : i.isTerminator = false) : i.successors = [] := by
  cases i <;> first | rfl | cases h

/-- Code without a terminator sends control nowhere. -/
theorem exits_of_not_ended {c : List Instr} (h : ended c = false) : exits c = [] := by
  rcases List.eq_nil_or_concat' c with rfl | ⟨front, i, rfl⟩
  · rfl
  · rw [exits_concat]
    rw [ended_append, Bool.or_eq_false_iff] at h
    refine Instr.successors_of_not_terminator ?_
    simpa [ended] using h.2

theorem Func.targets_eq_exits (f : Func) (b : BlockId) : f.targets b = exits (f.code b) := f.targets_eq b

/-! ### Lists of edges under changes of a function -/

namespace Func

variable {l : List BlockId} {a b : BlockId} {f : Func}

theorem pushNew_of_notMem (h : a ∉ l) : pushNew l a = l ++ [a] := by
  unfold pushNew
  rw [if_neg (by simpa using h)]

theorem succs_push (f : Func) (b : BlockId) (i : Instr) (c : BlockId) : (f.push b i).succs c = f.succs c :=
  succs_modifyBlock_code f b (fun blk => blk.code ++ [i]) c

theorem preds_push (f : Func) (b : BlockId) (i : Instr) (c : BlockId) : (f.push b i).preds c = f.preds c :=
  preds_modifyBlock_code f b (fun blk => blk.code ++ [i]) c

theorem succs_addBlock (f : Func) (kind : String) (c : BlockId) : (f.addBlock kind).2.succs c = f.succs c :=
  held_addBlock Block.succs f c kind rfl

theorem preds_addBlock (f : Func) (kind : String) (c : BlockId) : (f.addBlock kind).2.preds c = f.preds c :=
  held_addBlock Block.preds f c kind rfl

/-- A list that grows at one block. -/
theorem held_modifyBlock_pushNew (field : Block → List BlockId) {g : Block → Block}
    (hg : ∀ blk, field (g blk) = pushNew (field blk) b) (ha : a < f.blocks.size)
    (hnew : b ∉ held field f a) (c : BlockId) :
    held field (f.modifyBlock a g) c = if c = a then held field f a ++ [b] else held field f c := by
  obtain ⟨blk, hblk, -⟩ := exists_block ha
  unfold held at hnew ⊢
  rw [block?_modifyBlock]
  split_ifs with hc
  · rw [hblk] at hnew ⊢
    exact (hg blk).trans (pushNew_of_notMem hnew)
  · rfl

/-- A new edge stands behind the others in the list of its source. -/
theorem succs_addEdge (ha : a < f.blocks.size) (hnew : b ∉ f.succs a) (c : BlockId) :
    (f.addEdge a b).succs c = if c = a then f.succs a ++ [b] else f.succs c := by
  unfold addEdge
  rw [if_pos ha]
  change held Block.succs (modifyBlock _ b _) c = _
  rw [held_modifyBlock]
  · exact held_modifyBlock_pushNew Block.succs (fun _ => rfl) ha hnew c
  · exact fun _ => rfl

/-- A new edge stands behind the others in the list of its target. -/
theorem preds_addEdge (ha : a < f.blocks.size) (hb : b < f.blocks.size) (hnew : a ∉ f.preds b)
    (c : BlockId) : (f.addEdge a b).preds c = if c = b then f.preds b ++ [a] else f.preds c := by
  have hkept : ∀ c, held Block.preds (f.modifyBlock a fun blk => { blk with succs := pushNew blk.succs b }) c =
      f.preds c := fun c => held_modifyBlock Block.preds f c a fun _ => rfl
  unfold addEdge
  rw [if_pos ha]
  change held Block.preds (modifyBlock _ b _) c = _
  rw [held_modifyBlock_pushNew Block.preds (fun _ => rfl) _ _ c, hkept, hkept]
  · rwa [size_modifyBlock]
  · rwa [hkept]

/-! ### Paths -/

/-- Where no edge goes away, paths stay. -/
theorem Path.mono {g : Func} (hstart : g.start = f.start)
    (hedge : ∀ a, ∀ b ∈ f.targets a, b ∈ g.targets a) (h : f.Path b l) : g.Path b l := by
  induction h with
  | start => exact hstart ▸ .start
  | step _ hb ih => exact .step ih (hedge _ _ hb)

/-- A path to a block contains a path to each block that it has left. -/
theorem Path.prior (h : f.Path b l) (ha : a ∈ l) : ∃ l', f.Path a l' ∧ a :: l' <:+ l := by
  induction h with
  | start => cases ha
  | @step c b l hc _ ih =>
    rcases List.mem_cons.mp ha with rfl | ha
    · exact ⟨l, hc, List.suffix_rfl⟩
    · obtain ⟨l', hl', hsuffix⟩ := ih ha
      exact ⟨l', hl', hsuffix.trans (List.suffix_cons _ _)⟩

end Func

/-! ### One step of a builder -/

namespace Builder

theorem begun_lt {s : Builder} (hs : s.Good) {b : BlockId} (hb : s.Begun b) : b < s.size := by
  rcases hb with hb | hb
  · exact (hs.current b hb).1
  · by_contra hge
    rw [code_of_size_le (Nat.not_lt.mp hge)] at hb
    cases hb

theorem Unbegun.not_begun {s : Builder} {b : BlockId} (hb : s.Unbegun b) : ¬ s.Begun b := by
  rintro (h | h)
  · exact hb.current h
  · rw [hb.code] at h
    cases h

/-- `tail` is written at the end of the block `a`, and edges are made from there
to `out`. Nothing else was being written. -/
structure Writes (a : BlockId) (tail : List Instr) (out : List BlockId) (s s' : Builder) : Prop where
  head : s'.func.head = s.func.head
  size : s'.size = s.size
  lt : a < s.size
  code : ∀ c, s'.code c = if c = a then s.code a ++ tail else s.code c
  preds : ∀ c, s'.func.preds c = if c ∈ out then s.func.preds c ++ [a] else s.func.preds c
  succs : ∀ c, s'.func.succs c = if c = a then s.func.succs a ++ out else s.func.succs c
  alone : s.current = none ∧ out = [] ∨ s.current = some a
  unended : ended (s.code a) = false
  begun : s'.current = some a ∨ s'.current = none ∧ ended tail = true
  last : ended tail.dropLast = false
  exits : exits (s.code a ++ tail) = out

namespace Writes

variable {a : BlockId} {tail : List Instr} {out : List BlockId} {s s' : Builder}

section

variable (h : Writes a tail out s s')

include h

theorem start : s'.func.start = s.func.start :=
  congrArg (fun head => head.2.2.2) h.head

theorem targets (c : BlockId) : s'.func.targets c = if c = a then out else s.func.targets c := by
  have hcode : s'.func.code c = _ := h.code c
  rw [Func.targets_eq_exits, Func.targets_eq_exits, hcode]
  split_ifs
  · exact h.exits
  · rfl

/-- The block that is written had no edges. -/
theorem targets_before : s.func.targets a = [] := by
  rw [Func.targets_eq_exits]
  exact exits_of_not_ended h.unended

theorem mem_targets {c b : BlockId} :
    b ∈ s'.func.targets c ↔ b ∈ s.func.targets c ∨ c = a ∧ b ∈ out := by
  rw [h.targets]
  split_ifs with hc
  · subst hc
    rw [h.targets_before]
    simp
  · simp [hc]

theorem begun_iff {c : BlockId} : s'.Begun c ↔ c = a ∨ s.Begun c := by
  unfold Begun
  rw [h.code]
  by_cases hc : c = a
  · subst hc
    simp only [if_true, true_or, iff_true]
    rcases h.begun with hb | ⟨-, hb⟩
    · exact Or.inl hb
    · right
      rw [ended_append, hb, Bool.or_true]
  · rw [if_neg hc]
    have hnot : s'.current ≠ some c := by
      rcases h.begun with hb | ⟨hb, -⟩
      · rw [hb]
        exact fun heq => hc (Option.some.inj heq).symm
      · rw [hb]
        simp
    have hnot' : s.current ≠ some c := by
      rcases h.alone with ⟨hb, -⟩ | hb
      · rw [hb]
        simp
      · rw [hb]
        exact fun heq => hc (Option.some.inj heq).symm
    simp [hc, hnot, hnot']

/-- Edges leave only blocks that are begun. -/
theorem begun_of_out {b : BlockId} (hb : b ∈ out) : s.Begun a := by
  rcases h.alone with ⟨-, hnil⟩ | hcur
  · rw [hnil] at hb
    cases hb
  · exact Or.inl hcur

theorem path {b : BlockId} {l : List BlockId} (hl : s.func.Path b l) : s'.func.Path b l :=
  hl.mono h.start fun _ _ hb => h.mem_targets.mpr (Or.inl hb)

end

end Writes

/-! ### Edges in order -/

/-- What holds of the edges of a builder between any two operations. -/
structure Wired (s : Builder) : Prop where
  succs : ∀ a, s.func.succs a = s.func.targets a
  nodup_succs : ∀ a, (s.func.succs a).Nodup
  preds : ∀ a b, a ∈ s.func.preds b ↔ b ∈ s.func.targets a
  nodup_preds : ∀ b, (s.func.preds b).Nodup
  target_lt : ∀ a b, b ∈ s.func.targets a → b < s.size
  idle : ∀ b, ¬ s.Begun b → s.code b = []
  last : ∀ b, ended (s.code b).dropLast = false
  start : s.Begun s.func.start
  preds_start : s.func.preds s.func.start = []
  reached : ∀ b, s.Begun b → ∃ l, s.func.Path b l
  waiting : ∀ b, s.Unbegun b → s.func.preds b = (s.edgesTo b).map Edge.source

namespace Wired

variable {s s' : Builder}

theorem begun_of_targets (hw : s.Wired) {a b : BlockId} (hb : b ∈ s.func.targets a) : s.Begun a := by
  by_contra hnot
  rw [Func.targets_eq_exits] at hb
  have hcode : s.func.code a = [] := hw.idle a hnot
  rw [hcode] at hb
  cases hb

theorem unbegun (hw : s.Wired) {b : BlockId} (hb : ¬ s.Begun b) (hlt : b < s.size) : s.Unbegun b :=
  ⟨hlt, hw.idle b hb, fun h => hb (Or.inl h)⟩

/-- One step keeps the edges in order. -/
theorem of_writes {a : BlockId} {tail : List Instr} {out : List BlockId} (hw : s.Wired)
    (h : Writes a tail out s s') (hnodup : out.Nodup) (hlt : ∀ b ∈ out, b < s.size)
    (hstart : s.func.start ∉ out) (hreach : ∃ l, s.func.Path a l)
    (hedges : ∀ b, s'.Unbegun b → (s'.edgesTo b).map Edge.source =
      (s.edgesTo b).map Edge.source ++ if b ∈ out then [a] else []) : s'.Wired where
  succs c := by
    rw [h.succs, h.targets]
    split_ifs with hc
    · rw [hw.succs, h.targets_before, List.nil_append]
    · exact hw.succs c
  nodup_succs c := by
    rw [h.succs]
    split_ifs with hc
    · rwa [hw.succs, h.targets_before, List.nil_append]
    · exact hw.nodup_succs c
  preds c b := by
    rw [h.preds, h.mem_targets, ← hw.preds]
    split_ifs with hb
    · simp [hb]
    · simp [hb]
  nodup_preds b := by
    rw [h.preds]
    split_ifs with hb
    · rw [List.nodup_append]
      refine ⟨hw.nodup_preds b, List.nodup_singleton a, fun x hx y hy => ?_⟩
      obtain rfl := List.mem_singleton.mp hy
      rintro rfl
      rw [hw.preds, h.targets_before] at hx
      cases hx
    · exact hw.nodup_preds b
  target_lt c b hb := by
    rw [h.size]
    rcases h.mem_targets.mp hb with hb | ⟨-, hb⟩
    · exact hw.target_lt c b hb
    · exact hlt b hb
  idle b hb := by
    rw [h.begun_iff, not_or] at hb
    rw [h.code, if_neg hb.1]
    exact hw.idle b hb.2
  last b := by
    rw [h.code]
    split_ifs with hb
    · rcases List.eq_nil_or_concat' tail with rfl | ⟨front, i, rfl⟩
      · rw [List.append_nil]
        exact hw.last a
      · have hlast := h.last
        rw [List.dropLast_concat] at hlast
        rw [← List.append_assoc, List.dropLast_concat, ended_append, h.unended, hlast]
        rfl
    · exact hw.last b
  start := by
    rw [h.start, h.begun_iff]
    exact Or.inr hw.start
  preds_start := by
    rw [h.start, h.preds, if_neg hstart]
    exact hw.preds_start
  reached b hb := by
    rcases h.begun_iff.mp hb with rfl | hb
    · obtain ⟨l, hl⟩ := hreach
      exact ⟨l, h.path hl⟩
    · obtain ⟨l, hl⟩ := hw.reached b hb
      exact ⟨l, h.path hl⟩
  waiting b hb := by
    have hnot := hb.not_begun
    rw [h.begun_iff, not_or] at hnot
    have hbs := hw.waiting b (hw.unbegun hnot.2 (h.size ▸ hb.lt))
    rw [hedges b hb, h.preds, hbs]
    split_ifs
    · rfl
    · rw [List.append_nil]

/-- Edges are in order where blocks and edges are the same, but for new blocks
that nothing leads to. -/
theorem congr (hw : s.Wired) (hhead : s'.func.head = s.func.head) (hsize : s.size ≤ s'.size)
    (hcode : ∀ c, exits (s'.code c) = exits (s.code c) ∧ (s.code c = [] → s'.code c = []) ∧
      ended (s'.code c) = ended (s.code c) ∧ ended (s'.code c).dropLast = ended (s.code c).dropLast)
    (hpreds : ∀ c, s'.func.preds c = s.func.preds c) (hsuccs : ∀ c, s'.func.succs c = s.func.succs c)
    (hcur : s'.current = s.current) (hedges : ∀ b, s'.edgesTo b = s.edgesTo b)
    (hnew : ∀ b, s.size ≤ b → s.edgesTo b = []) : s'.Wired := by
  have hstart : s'.func.start = s.func.start := congrArg (fun head => head.2.2.2) hhead
  have htargets : ∀ c, s'.func.targets c = s.func.targets c := fun c => by
    rw [Func.targets_eq_exits, Func.targets_eq_exits]
    exact (hcode c).1
  have hbegun : ∀ c, s'.Begun c ↔ s.Begun c := fun c => by
    unfold Begun
    rw [hcur, (hcode c).2.2.1]
  have hpath : ∀ {b l}, s.func.Path b l → s'.func.Path b l := fun hl =>
    hl.mono hstart fun a b hb => by rwa [htargets]
  refine ⟨fun a => ?_, fun a => ?_, fun a b => ?_, fun b => ?_, fun a b hb => ?_, fun b hb => ?_,
    fun b => ?_, ?_, ?_, fun b hb => ?_, fun b hb => ?_⟩
  · rw [hsuccs, htargets, hw.succs]
  · rw [hsuccs]
    exact hw.nodup_succs a
  · rw [hpreds, htargets, hw.preds]
  · rw [hpreds]
    exact hw.nodup_preds b
  · rw [htargets] at hb
    exact (hw.target_lt a b hb).trans_le hsize
  · rw [hbegun] at hb
    exact (hcode b).2.1 (hw.idle b hb)
  · rw [(hcode b).2.2.2]
    exact hw.last b
  · rw [hstart, hbegun]
    exact hw.start
  · rw [hstart, hpreds]
    exact hw.preds_start
  · obtain ⟨l, hl⟩ := hw.reached b ((hbegun b).mp hb)
    exact ⟨l, hpath hl⟩
  · have hnot : ¬ s.Begun b := (hbegun b).not.mp hb.not_begun
    rw [hpreds, hedges]
    rcases Nat.lt_or_ge b s.size with hlt | hge
    · exact hw.waiting b (hw.unbegun hnot hlt)
    · rw [hnew b hge]
      exact Func.preds_of_size_le hge

end Wired
end Builder
end Chordal.Ssa
