/-
# Flow graphs stay coherent

In a coherent graph the lists of edges say what the terminators say, a block is
reachable or empty, and a block that is reachable ends in its only terminator.
Built graphs are coherent, and taking the phis out keeps a graph so, step by
step: a block loses its phis, copies are put before a terminator, or a new block
is put on an edge. Copies only go into a block that has no other way to go on
than the edge they belong to.

Key definitions: `Func.Coherent`, `Func.Inserts`.
Key theorems: `Func.Coherent.splitEdge`, `Func.Coherent.removePhisOf`, `build_coherent`.
-/
import Mathlib
import Chordal.Proofs.Ssa.PhiRemoval
import Chordal.Proofs.Ssa.StrictForm

namespace Chordal.Ssa

/-- The code ends in its only terminator. -/
def EndsOnce (c : List Instr) : Prop :=
  ∃ front last, c = front ++ [last] ∧ last.isTerminator = true ∧ ∀ i ∈ front, i.isTerminator = false

theorem EndsOnce.ne_nil {c : List Instr} (h : EndsOnce c) : c ≠ [] := by
  obtain ⟨front, last, rfl, -⟩ := h
  simp

theorem Instr.isPhi_of_isTerminator {i : Instr} (h : i.isTerminator = true) : i.isPhi = false := by
  cases i <;> first | rfl | cases h

namespace Func

/-- The lists of edges agree with the terminators, without repeats, and a block is
reachable and ends in its only terminator, or is empty and has no edges. -/
structure Coherent (f : Func) : Prop where
  start_lt : f.start < f.blocks.size
  target_lt : ∀ {a b}, b ∈ f.targets a → b < f.blocks.size
  mem_succs : ∀ {a b}, b ∈ f.succs a ↔ b ∈ f.targets a
  mem_preds : ∀ {a b}, a ∈ f.preds b ↔ b ∈ f.targets a
  nodup_succs : ∀ a, (f.succs a).Nodup
  nodup_preds : ∀ b, (f.preds b).Nodup
  entered : ∀ b, f.preds b ≠ [] ∨ b = f.start ↔ f.Reachable b
  ended : ∀ b, f.Reachable b → EndsOnce (f.code b)
  empty : ∀ b, ¬ f.Reachable b → f.code b = [] ∧ f.preds b = [] ∧ f.succs b = []

variable {f g : Func}

/-- A graph is coherent if its edges are, and the blocks that are reachable are
those with code. -/
theorem Coherent.of_code (hstart : f.start < f.blocks.size) (hlt : ∀ {a b}, b ∈ f.targets a → b < f.blocks.size)
    (hsuccs : ∀ {a b}, b ∈ f.succs a ↔ b ∈ f.targets a) (hpreds : ∀ {a b}, a ∈ f.preds b ↔ b ∈ f.targets a)
    (hnodup : ∀ a, (f.succs a).Nodup) (hnodup' : ∀ b, (f.preds b).Nodup)
    (hreach : ∀ b, f.Reachable b ↔ f.code b ≠ []) (hended : ∀ b, f.code b ≠ [] → EndsOnce (f.code b)) :
    f.Coherent := by
  have hentered : ∀ b, f.preds b ≠ [] ∨ b = f.start ↔ f.Reachable b := by
    intro b
    constructor
    · rintro (hne | rfl)
      · obtain ⟨a, ha⟩ := List.exists_mem_of_ne_nil _ hne
        have hb := hpreds.mp ha
        obtain ⟨front, last, hcode, -⟩ := Func.exists_last hb
        obtain ⟨l, hl⟩ := (hreach a).mpr (by rw [hcode]; simp)
        exact ⟨a :: l, .step hl hb⟩
      · exact ⟨[], .start⟩
    · rintro ⟨l, hl⟩
      cases hl with
      | start => exact Or.inr rfl
      | step _ hb => exact Or.inl (List.ne_nil_of_mem (hpreds.mpr hb))
  refine ⟨hstart, hlt, hsuccs, hpreds, hnodup, hnodup', hentered, fun b hb => hended b ((hreach b).mp hb),
    fun b hb => ?_⟩
  have hcode : f.code b = [] := by
    by_contra hne
    exact hb ((hreach b).mpr hne)
  refine ⟨hcode, ?_, ?_⟩
  · by_contra hne
    exact hb ((hentered b).mp (Or.inl hne))
  · rw [List.eq_nil_iff_forall_not_mem]
    intro c hc
    have hmem := hsuccs.mp hc
    rw [targets_eq_exits, hcode] at hmem
    cases hmem

namespace Coherent

variable (h : f.Coherent)

include h

theorem reachable_iff {b : BlockId} : f.Reachable b ↔ f.code b ≠ [] := by
  refine ⟨fun hb => (h.ended b hb).ne_nil, fun hne => ?_⟩
  by_contra hnot
  exact hne (h.empty b hnot).1

theorem endsOnce {b : BlockId} (hb : f.code b ≠ []) : EndsOnce (f.code b) :=
  h.ended b (h.reachable_iff.mpr hb)

theorem reachable_of_targets {a b : BlockId} (hb : b ∈ f.targets a) : f.Reachable a ∧ f.Reachable b := by
  obtain ⟨front, last, hcode, -⟩ := Func.exists_last hb
  obtain ⟨l, hl⟩ := h.reachable_iff.mpr (show f.code a ≠ [] by rw [hcode]; simp)
  exact ⟨⟨l, hl⟩, ⟨a :: l, .step hl hb⟩⟩

/-- A change of code that keeps the terminators. -/
theorem congr (hstart : g.start = f.start) (hsize : g.blocks.size = f.blocks.size)
    (hpreds : ∀ b, g.preds b = f.preds b) (hsuccs : ∀ b, g.succs b = f.succs b)
    (hcode : ∀ b, f.code b = [] ∧ g.code b = [] ∨ EndsOnce (g.code b) ∧ exits (g.code b) = exits (f.code b) ∧
      f.code b ≠ []) : g.Coherent ∧ ∀ b, g.targets b = f.targets b := by
  have htargets : ∀ b, g.targets b = f.targets b := fun b => by
    rw [targets_eq_exits, targets_eq_exits]
    rcases hcode b with ⟨hf, hg⟩ | ⟨-, heq, -⟩
    · rw [hf, hg]
    · exact heq
  have hne : ∀ b, g.code b ≠ [] ↔ f.code b ≠ [] := fun b => by
    rcases hcode b with ⟨hf, hg⟩ | ⟨hg, -, hf⟩
    · rw [hf, hg]
    · exact ⟨fun _ => hf, fun _ => hg.ne_nil⟩
  have hreach : ∀ b, g.Reachable b ↔ f.Reachable b := fun b =>
    ⟨fun ⟨l, hl⟩ => ⟨l, hl.mono hstart.symm fun a c hc => by rwa [← htargets]⟩,
      fun ⟨l, hl⟩ => ⟨l, hl.mono hstart fun a c hc => by rwa [htargets]⟩⟩
  refine ⟨.of_code (by rw [hstart, hsize]; exact h.start_lt) ?_ ?_ ?_ ?_ ?_ (fun b => ?_) fun b hb => ?_, htargets⟩
  · intro a b hb
    rw [htargets] at hb
    rw [hsize]
    exact h.target_lt hb
  · intro a b
    rw [hsuccs, htargets]
    exact h.mem_succs
  · intro a b
    rw [hpreds, htargets]
    exact h.mem_preds
  · intro a
    rw [hsuccs]
    exact h.nodup_succs a
  · intro b
    rw [hpreds]
    exact h.nodup_preds b
  · rw [hreach, hne]
    exact h.reachable_iff
  · rcases hcode b with ⟨-, hg⟩ | ⟨hg, -⟩
    · exact absurd hg hb
    · exact hg

/-- A block loses its phis. -/
theorem strip {b : BlockId} (hb : b < f.blocks.size) :
    (f.modifyBlock b fun blk => { blk with code := blk.body }).Coherent ∧
      ∀ c, (f.modifyBlock b fun blk => { blk with code := blk.body }).targets c = f.targets c := by
  have hcode : ∀ c, (f.modifyBlock b fun blk => { blk with code := blk.body }).code c =
      if c = b then f.body b else f.code c := by
    intro c
    obtain ⟨blk, hblk, hblkcode⟩ := exists_block hb
    rw [code_modifyBlock f Block.body hb, hblk, Func.body, hblkcode]
    rfl
  have hbody : f.code b = [] ∧ f.body b = [] ∨
      EndsOnce (f.body b) ∧ exits (f.body b) = exits (f.code b) ∧ f.code b ≠ [] := by
    by_cases hnil : f.code b = []
    · exact Or.inl ⟨hnil, by rw [Func.body, hnil]; rfl⟩
    · obtain ⟨front, last, heq, hlast, hfront⟩ := h.endsOnce hnil
      have hdrop : f.body b = front.dropWhile Instr.isPhi ++ [last] := by
        rw [Func.body, heq, dropWhile_isPhi front [] (Instr.isPhi_of_isTerminator hlast)]
      refine Or.inr ⟨⟨_, last, hdrop, hlast, fun i hi => hfront i ((List.dropWhile_sublist _).subset hi)⟩, ?_, hnil⟩
      rw [hdrop, heq, exits_concat, exits_concat]
  have hcases : ∀ c, f.code c = [] ∧ (f.modifyBlock b fun blk => { blk with code := blk.body }).code c = [] ∨
      EndsOnce ((f.modifyBlock b fun blk => { blk with code := blk.body }).code c) ∧
        exits ((f.modifyBlock b fun blk => { blk with code := blk.body }).code c) = exits (f.code c) ∧
        f.code c ≠ [] := by
    intro c
    rw [hcode]
    split_ifs with hc
    · rw [hc]
      exact hbody
    · by_cases hnil : f.code c = []
      · exact Or.inl ⟨hnil, hnil⟩
      · exact Or.inr ⟨h.endsOnce hnil, rfl, hnil⟩
  exact h.congr rfl (size_modifyBlock ..) (preds_modifyBlock_code f b Block.body)
    (succs_modifyBlock_code f b Block.body) hcases

/-- Copies are put before the terminator of a block. -/
theorem withCopies {p : BlockId} (hp : f.Reachable p) (copies : List Copy) :
    (f.withCopies p copies).Coherent ∧ (∀ c, (f.withCopies p copies).targets c = f.targets c) ∧
      ∃ front last, (f.withCopies p copies).code p =
        front ++ (Copies.sequenceFresh f.valueCount copies).1.map Copy.instr ++ [last] := by
  obtain ⟨front, last, heq, hlast, hfront⟩ := h.ended p hp
  have hlt : p < f.blocks.size := by
    by_contra hge
    rw [code_of_size_le (Nat.not_lt.mp hge)] at heq
    simp at heq
  have hcode := f.code_withCopies copies hlt
  have hat : (f.withCopies p copies).code p =
      front ++ (Copies.sequenceFresh f.valueCount copies).1.map Copy.instr ++ [last] := by
    rw [hcode, if_pos rfl, heq]
    unfold beforeLast
    simp only [List.dropLast_concat, List.getLast?_concat]
    rfl
  have hcases : ∀ c, f.code c = [] ∧ (f.withCopies p copies).code c = [] ∨
      EndsOnce ((f.withCopies p copies).code c) ∧
        exits ((f.withCopies p copies).code c) = exits (f.code c) ∧ f.code c ≠ [] := by
    intro c
    by_cases hc : c = p
    · subst hc
      rw [hat]
      refine Or.inr ⟨⟨_, last, rfl, hlast, fun i hi => ?_⟩, ?_, by rw [heq]; simp⟩
      · rcases List.mem_append.mp hi with hi | hi
        · exact hfront i hi
        · obtain ⟨k, -, rfl⟩ := List.mem_map.mp hi
          rfl
      · rw [heq, exits_concat, exits_concat]
    · rw [hcode, if_neg hc]
      by_cases hnil : f.code c = []
      · exact Or.inl ⟨hnil, hnil⟩
      · exact Or.inr ⟨h.endsOnce hnil, rfl, hnil⟩
  have hsame : (f.withCopies p copies).Coherent ∧ ∀ c, (f.withCopies p copies).targets c = f.targets c :=
    h.congr rfl (size_withCopies ..) (preds_withCopies f p copies) (succs_withCopies f p copies) hcases
  exact ⟨hsame.1, hsame.2, front, last, hat⟩

end Coherent

/-! ### A block on an edge -/

theorem mem_replaceAll {old new a : BlockId} {l : List BlockId} :
    a ∈ replaceAll old new l ↔ a = new ∧ old ∈ l ∨ a ≠ old ∧ a ∈ l := by
  unfold replaceAll
  rw [List.mem_map]
  constructor
  · rintro ⟨c, hc, rfl⟩
    split_ifs with he
    · exact Or.inl ⟨rfl, he ▸ hc⟩
    · exact Or.inr ⟨he, hc⟩
  · rintro (⟨rfl, hold⟩ | ⟨hne, ha⟩)
    · exact ⟨old, hold, if_pos rfl⟩
    · exact ⟨a, ha, if_neg hne⟩

theorem nodup_replaceAll {old new : BlockId} {l : List BlockId} (h : l.Nodup) (hnew : new ∉ l) :
    (replaceAll old new l).Nodup := by
  refine List.Nodup.map_on (fun a ha b hb heq => ?_) h
  split_ifs at heq with hao hbo hbo
  · rw [hao, hbo]
  · exact absurd (heq ▸ hb) hnew
  · exact absurd (heq ▸ ha) hnew
  · exact heq

namespace Coherent

section Split

variable {p b : BlockId} (h : f.Coherent) (hb : b ∈ f.targets p)

include h hb

theorem targets_splitEdge (c : BlockId) : (f.splitEdge p b).2.targets c =
    if c = f.blocks.size then [b]
    else if c = p then replaceAll b f.blocks.size (f.targets p) else f.targets c := by
  have hp := lt_of_mem_targets hb
  rw [targets_eq_exits, code_splitEdge f hp (h.target_lt hb)]
  split_ifs with hc hcp
  · rfl
  · obtain ⟨front, last, hcode, -, -⟩ := Func.exists_last hb
    rw [targets_of_code hcode, hcode]
    unfold retargetLast
    simp only [List.getLast?_concat, List.dropLast_concat, exits_concat]
    cases last <;> rfl
  · exact (f.targets_eq_exits c).symm

/-- The edges after the split: those of the new block, and the others but for the
edge that it is put on. -/
theorem mem_targets_splitEdge {a c : BlockId} : c ∈ (f.splitEdge p b).2.targets a ↔
    a = f.blocks.size ∧ c = b ∨ a = p ∧ c = f.blocks.size ∨ ¬ (a = p ∧ c = b) ∧ c ∈ f.targets a := by
  have hp : p ≠ f.blocks.size := Nat.ne_of_lt (lt_of_mem_targets hb)
  rw [h.targets_splitEdge hb]
  by_cases ha : a = f.blocks.size
  · have hnone : ∀ c, c ∉ f.targets a := fun c hc => absurd (lt_of_mem_targets hc) (Nat.not_lt.mpr ha.ge)
    have hap : a ≠ p := fun he => hp (he ▸ ha)
    simp [ha, hp.symm, ha ▸ hnone c]
  · by_cases hap : a = p
    · subst hap
      simp only [if_neg ha, if_true, mem_replaceAll]
      simp [ha, hb]
    · simp [ha, hap]

theorem mem_preds_splitEdge {a c : BlockId} : a ∈ (f.splitEdge p b).2.preds c ↔
    a = f.blocks.size ∧ c = b ∨ a = p ∧ c = f.blocks.size ∨ ¬ (a = p ∧ c = b) ∧ c ∈ f.targets a := by
  have hp := lt_of_mem_targets hb
  have hbn : b ≠ f.blocks.size := Nat.ne_of_lt (h.target_lt hb)
  rw [preds_splitEdge f hp (h.target_lt hb)]
  by_cases hc : c = f.blocks.size
  · have hnone : c ∉ f.targets a := fun hmem => absurd (h.target_lt hmem) (Nat.not_lt.mpr hc.ge)
    simp [hc, hbn.symm, hc ▸ hnone]
  · by_cases hcb : c = b
    · subst hcb
      simp only [if_neg hc, if_true, mem_replaceAll, h.mem_preds]
      simp [hc, hb]
    · simp [hc, hcb, h.mem_preds]

theorem code_splitEdge_ne_nil {c : BlockId} :
    (f.splitEdge p b).2.code c ≠ [] ↔ c = f.blocks.size ∨ f.code c ≠ [] := by
  have hp := lt_of_mem_targets hb
  rw [code_splitEdge f hp (h.target_lt hb)]
  obtain ⟨front, last, hcode, -, -⟩ := Func.exists_last hb
  split_ifs with hc hcp
  · simp [hc]
  · rw [hcp, hcode]
    unfold retargetLast
    simp
  · simp [hc]

theorem endsOnce_splitEdge {c : BlockId} (hc : (f.splitEdge p b).2.code c ≠ []) :
    EndsOnce ((f.splitEdge p b).2.code c) := by
  have hp := lt_of_mem_targets hb
  have hcode := code_splitEdge f hp (h.target_lt hb) c
  rw [hcode]
  split_ifs with hn hcp
  · exact ⟨[], .jump b, rfl, rfl, by simp⟩
  · obtain ⟨front, last, heq, hlast, hfront⟩ := h.ended p (h.reachable_of_targets hb).1
    refine ⟨front, last.retarget b f.blocks.size, ?_, ?_, hfront⟩
    · rw [heq]
      unfold retargetLast
      simp only [List.getLast?_concat, List.dropLast_concat]
    · cases last <;> first | rfl | cases hlast
  · exact h.endsOnce (((h.code_splitEdge_ne_nil hb).mp hc).resolve_left hn)

/-- A path takes the new block where it took the edge. -/
theorem reachable_splitEdge {c : BlockId} (hc : f.Reachable c) : (f.splitEdge p b).2.Reachable c := by
  have hstart : (f.splitEdge p b).2.start = f.start := congrArg (fun head => head.2.2.2) (f.head_splitEdge p b)
  obtain ⟨l, hl⟩ := hc
  induction hl with
  | start => exact ⟨[], hstart ▸ .start⟩
  | @step a c l _ hstep ih =>
    obtain ⟨l', hl'⟩ := ih
    by_cases he : a = p ∧ c = b
    · obtain ⟨rfl, rfl⟩ := he
      refine ⟨f.blocks.size :: a :: l', .step (.step hl' ((h.mem_targets_splitEdge hb).mpr ?_))
        ((h.mem_targets_splitEdge hb).mpr ?_)⟩
      · exact Or.inr (Or.inl ⟨rfl, rfl⟩)
      · exact Or.inl ⟨rfl, rfl⟩
    · exact ⟨a :: l', .step hl' ((h.mem_targets_splitEdge hb).mpr (Or.inr (Or.inr ⟨he, hstep⟩)))⟩

/-- A new block is put on an edge. -/
theorem splitEdge : (f.splitEdge p b).2.Coherent := by
  have hp := lt_of_mem_targets hb
  have hb' := h.target_lt hb
  have hstart : (f.splitEdge p b).2.start = f.start := congrArg (fun head => head.2.2.2) (f.head_splitEdge p b)
  have hsize := f.size_splitEdge hp hb'
  have hnew : ∀ {l : List BlockId}, (∀ c ∈ l, c < f.blocks.size) → f.blocks.size ∉ l := fun hl hmem =>
    absurd (hl _ hmem) (lt_irrefl _)
  have hsuccs := f.succs_splitEdge hp hb'
  have hpreds := f.preds_splitEdge hp hb'
  -- the lists of successors are the targets
  refine .of_code ?_ (fun hc => ?_) ?_ ?_ (fun a => ?_) (fun c => ?_) (fun c => ?_) fun c hc =>
    h.endsOnce_splitEdge hb hc
  · rw [hstart, hsize]
    exact Nat.lt_succ_of_lt h.start_lt
  · rw [hsize]
    rcases (h.mem_targets_splitEdge hb).mp hc with ⟨-, rfl⟩ | ⟨-, rfl⟩ | ⟨-, hc⟩
    · exact Nat.lt_succ_of_lt hb'
    · exact Nat.lt_succ_self _
    · exact Nat.lt_succ_of_lt (h.target_lt hc)
  · intro a c
    rw [hsuccs, h.targets_splitEdge hb]
    split_ifs
    · exact Iff.rfl
    · rw [mem_replaceAll, mem_replaceAll, h.mem_succs, h.mem_succs]
    · exact h.mem_succs
  · intro a c
    rw [h.mem_preds_splitEdge hb, h.mem_targets_splitEdge hb]
  · rw [hsuccs]
    split_ifs
    · exact List.nodup_singleton b
    · exact nodup_replaceAll (h.nodup_succs p) (hnew fun c hc => h.target_lt (h.mem_succs.mp hc))
    · exact h.nodup_succs a
  · rw [hpreds]
    split_ifs
    · exact List.nodup_singleton p
    · exact nodup_replaceAll (h.nodup_preds b) (hnew fun a ha => lt_of_mem_targets (h.mem_preds.mp ha))
    · exact h.nodup_preds c
  · rw [h.code_splitEdge_ne_nil hb, ← h.reachable_iff]
    constructor
    · rintro ⟨l, hl⟩
      cases hl with
      | start => exact Or.inr (hstart ▸ ⟨[], .start⟩)
      | step _ hc =>
        rcases (h.mem_targets_splitEdge hb).mp hc with ⟨-, rfl⟩ | ⟨-, rfl⟩ | ⟨-, hc⟩
        · exact Or.inr (h.reachable_of_targets hb).2
        · exact Or.inl rfl
        · exact Or.inr (h.reachable_of_targets hc).2
    · rintro (rfl | hc)
      · obtain ⟨l, hl⟩ := h.reachable_splitEdge hb (h.reachable_of_targets hb).1
        exact ⟨p :: l, .step hl ((h.mem_targets_splitEdge hb).mpr (Or.inr (Or.inl ⟨rfl, rfl⟩)))⟩
      · exact h.reachable_splitEdge hb hc

end Split

/-! ### Copies on edges -/

section Copy

variable {p b : BlockId} (h : f.Coherent) (hb : b ∈ f.targets p) (copies : List Copy)

include h hb

/-- The copies of an edge go to a block that goes on to the end of the edge, and
nowhere else. Other edges to this end stay. -/
theorem copyOnEdge : (f.copyOnEdge b p copies).Coherent ∧
    (∀ q, q ≠ p → b ∈ f.targets q → b ∈ (f.copyOnEdge b p copies).targets q) ∧
    ∃ c front last, (c = p ∨ c = f.blocks.size) ∧ (f.copyOnEdge b p copies).code c =
        front ++ (Copies.sequenceFresh f.valueCount copies).1.map Copy.instr ++ [last] ∧
      (f.copyOnEdge b p copies).succs c = [b] := by
  have hp := lt_of_mem_targets hb
  rw [copyOnEdge_eq f b copies hp]
  split_ifs with hcrit
  · have hs := h.splitEdge hb
    have hsuccs := f.succs_splitEdge hp (h.target_lt hb)
    have hnew : (f.splitEdge p b).2.Reachable f.blocks.size :=
      hs.reachable_iff.mpr ((h.code_splitEdge_ne_nil hb).mpr (Or.inl rfl))
    obtain ⟨hg, htargets, front, last, hcode⟩ := hs.withCopies hnew copies
    refine ⟨hg, fun q hq hbq => ?_, f.blocks.size, front, last, Or.inr rfl, ?_, ?_⟩
    · rw [htargets, h.mem_targets_splitEdge hb]
      exact Or.inr (Or.inr ⟨fun he => hq he.1, hbq⟩)
    · rw [hcode, valueCount_splitEdge]
    · rw [succs_withCopies, hsuccs, if_pos rfl]
  · obtain ⟨hg, htargets, front, last, hcode⟩ := h.withCopies (h.reachable_of_targets hb).1 copies
    refine ⟨hg, fun q _ hbq => by rwa [htargets], p, front, last, Or.inl rfl, hcode, ?_⟩
    have hmem : b ∈ f.succs p := h.mem_succs.mpr hb
    obtain ⟨c, hc⟩ : ∃ c, f.succs p = [c] := List.length_eq_one_iff.mp
      (Nat.le_antisymm (Nat.not_lt.mp hcrit) (List.length_pos_of_mem hmem))
    rw [hc, List.mem_singleton] at hmem
    rw [succs_withCopies, hc, hmem]

end Copy

/-- The copies of edges into a block are made one after another. -/
theorem removeFrom {b : BlockId} {phis : List Instr} : ∀ (preds : List BlockId) {f g : Func}, f.Coherent →
    preds.Nodup → (∀ p ∈ preds, b ∈ f.targets p) → Func.removeFrom b phis preds f = .ok g →
      g.Coherent ∧ ∀ q, q ∉ preds → b ∈ f.targets q → b ∈ g.targets q
  | [], f, g, h, _, _, heq => by
    obtain rfl := Except.ok.inj heq
    exact ⟨h, fun _ _ hq => hq⟩
  | p :: preds, f, g, h, hnodup, hpreds, heq => by
    rw [List.nodup_cons] at hnodup
    have hstep : ∃ f₁, f₁.Coherent ∧ (∀ q, q ≠ p → b ∈ f.targets q → b ∈ f₁.targets q) ∧
        Func.removeFrom b phis preds f₁ = .ok g := by
      rw [Func.removeFrom] at heq
      split at heq
      · cases heq
      · exact ⟨f, h, fun _ _ hq => hq, heq⟩
      · obtain ⟨h₁, hkeep, -⟩ := h.copyOnEdge (hpreds p List.mem_cons_self) _
        exact ⟨_, h₁, hkeep, heq⟩
    obtain ⟨f₁, h₁, hkeep, heq₁⟩ := hstep
    obtain ⟨hg, hkeep'⟩ := removeFrom preds h₁ hnodup.2 (fun q hq =>
      hkeep q (fun he => hnodup.1 (he ▸ hq)) (hpreds q (List.mem_cons_of_mem p hq))) heq₁
    refine ⟨hg, fun q hq hbq => ?_⟩
    rw [List.mem_cons, not_or] at hq
    exact hkeep' q hq.2 (hkeep q hq.1 hbq)

/-- What taking the phis of a block out begins with: the block without its phis,
and the edges that lead to it. -/
theorem begin_removal (h : f.Coherent) {b : BlockId} {blk : Block} (hblk : f.block? b = some blk) :
    (f.modifyBlock b fun blk => { blk with code := blk.body }).Coherent ∧ blk.preds.Nodup ∧
      ∀ p ∈ blk.preds, b ∈ (f.modifyBlock b fun blk => { blk with code := blk.body }).targets p := by
  have hpreds : f.preds b = blk.preds := by
    unfold Func.preds
    rw [hblk]
    rfl
  obtain ⟨hs, htargets⟩ := h.strip (lt_of_block? hblk)
  refine ⟨hs, hpreds ▸ h.nodup_preds b, fun p hp => ?_⟩
  rw [htargets]
  exact h.mem_preds.mp (hpreds ▸ hp)

theorem removeBlockPhis (h : f.Coherent) {b : BlockId} (heq : f.removeBlockPhis b = .ok g) : g.Coherent := by
  rcases removeBlockPhis_cases heq with rfl | ⟨blk, hblk, heq⟩
  · exact h
  · obtain ⟨hs, hnodup, htargets⟩ := h.begin_removal hblk
    exact (removeFrom blk.preds hs hnodup htargets heq).1

/-- The phis of blocks are taken out one block after another. -/
theorem removePhisOf {n : Nat} (bs : List BlockId) (h : f.Coherent)
    (heq : Func.removePhisOf bs f = .ok (g, n)) : g.Coherent :=
  removePhisOf_keeps (fun h heq => h.removeBlockPhis heq) bs h heq

end Coherent

/-! ### Where copies go -/

/-- Taking the phis of a function out comes to the function `before`, when the
blocks before `b` and the edges to `b` before the one from `p` are done, and then
makes `copies`, at least one, on the edge from `p` to `b`. -/
def Inserts (f : Func) (b p : BlockId) (copies : List Copy) (before : Func) : Prop :=
  ∃ earlier later f₁ n blk done rest, f.blocks.toList.map Block.id = earlier ++ b :: later ∧
    removePhisOf earlier f = .ok (f₁, n) ∧ f₁.block? b = some blk ∧ blk.preds = done ++ p :: rest ∧
    removeFrom b blk.phis done (f₁.modifyBlock b fun blk => { blk with code := blk.body }) = .ok before ∧
    before.edgeCopies b p blk.phis = .ok copies ∧ copies ≠ []

theorem removeFrom_append (b : BlockId) (phis : List Instr) : ∀ (done rest : List BlockId) (f : Func),
    removeFrom b phis (done ++ rest) f = removeFrom b phis done f >>= removeFrom b phis rest
  | [], _, _ => rfl
  | p :: done, rest, f => by
    rw [List.cons_append, removeFrom, removeFrom]
    split
    · rfl
    · exact removeFrom_append b phis done rest f
    · exact removeFrom_append b phis done rest _

/-- The phis of two lists of blocks are taken out one after another. -/
theorem removePhisOf_append : ∀ (bs cs : List BlockId) {f g : Func} {n : Nat},
    removePhisOf (bs ++ cs) f = .ok (g, n) →
      ∃ f₁ n₁ n₂, removePhisOf bs f = .ok (f₁, n₁) ∧ removePhisOf cs f₁ = .ok (g, n₂)
  | [], cs, f, g, n, h => ⟨f, 0, n, rfl, h⟩
  | b :: bs, cs, f, g, n, h => by
    rw [List.cons_append, removePhisOf] at h
    obtain ⟨f', h₁, h⟩ := bind_eq_ok.mp h
    obtain ⟨⟨g', m⟩, h₂, h⟩ := bind_eq_ok.mp h
    cases h
    obtain ⟨f₁, n₁, n₂, h₃, h₄⟩ := removePhisOf_append bs cs h₂
    refine ⟨f₁, ((f.block? b).map fun blk => blk.phis.length).getD 0 + n₁, n₂, ?_, h₄⟩
    rw [removePhisOf, h₁]
    exact bind_eq_ok.mpr ⟨_, rfl, bind_eq_ok.mpr ⟨_, h₃, rfl⟩⟩

/-- A block with one successor keeps it: only edges of other blocks are split. -/
theorem succs_copyOnEdge {b p c d : BlockId} (copies : List Copy) (hc : f.succs c = [d]) (hb : b ∈ f.targets p)
    (h : f.Coherent) : (f.copyOnEdge b p copies).succs c = [d] := by
  have hp := lt_of_mem_targets hb
  rw [copyOnEdge_eq f b copies hp]
  split_ifs with hcrit
  · have hcp : c ≠ p := by
      rintro rfl
      rw [hc] at hcrit
      exact absurd hcrit (lt_irrefl _)
    have hcn : c ≠ f.blocks.size := by
      have hmem : d ∈ f.succs c := by rw [hc]; exact List.mem_singleton_self d
      exact Nat.ne_of_lt (lt_of_mem_targets (h.mem_succs.mp hmem))
    rw [succs_withCopies, succs_splitEdge f hp (h.target_lt hb), if_neg hcn, if_neg hcp, hc]
  · rw [succs_withCopies, hc]

theorem succs_removeFrom {b c d : BlockId} {phis : List Instr} : ∀ (preds : List BlockId) {f g : Func}, f.Coherent →
    preds.Nodup → (∀ p ∈ preds, b ∈ f.targets p) → removeFrom b phis preds f = .ok g → f.succs c = [d] →
      g.succs c = [d]
  | [], f, g, _, _, _, heq, hc => by
    obtain rfl := Except.ok.inj heq
    exact hc
  | p :: preds, f, g, h, hnodup, hpreds, heq, hc => by
    rw [List.nodup_cons] at hnodup
    have hp := hpreds p List.mem_cons_self
    rw [removeFrom] at heq
    split at heq
    · cases heq
    · exact succs_removeFrom preds h hnodup.2 (fun q hq => hpreds q (List.mem_cons_of_mem p hq)) heq hc
    · rename_i copies _ _
      obtain ⟨h₁, hkeep, -⟩ := h.copyOnEdge hp copies
      exact succs_removeFrom preds h₁ hnodup.2 (fun q hq => hkeep q (fun he => hnodup.1 (he ▸ hq))
        (hpreds q (List.mem_cons_of_mem p hq))) heq (succs_copyOnEdge copies hc hp h)

theorem succs_removeBlockPhis {b c d : BlockId} (h : f.Coherent) (hc : f.succs c = [d])
    (heq : f.removeBlockPhis b = .ok g) : g.succs c = [d] := by
  rcases removeBlockPhis_cases heq with rfl | ⟨blk, hblk, heq⟩
  · exact hc
  · obtain ⟨hs, hnodup, htargets⟩ := h.begin_removal hblk
    exact succs_removeFrom _ hs hnodup htargets heq ((succs_modifyBlock_code ..).trans hc)

/-- The copies of an edge are put into a block that has no other way to go on than
to the end of the edge, and it is so when all phis are out. -/
theorem Inserts.only_way {b p : BlockId} {copies : List Copy} {before : Func} {count : Nat}
    (hins : f.Inserts b p copies before) (hf : f.Coherent) (hrun : f.removePhis = .ok (g, count)) :
    ∃ c front last, (c = p ∨ c = before.blocks.size) ∧ (before.copyOnEdge b p copies).code c =
        front ++ (Copies.sequenceFresh before.valueCount copies).1.map Copy.instr ++ [last] ∧
      (before.copyOnEdge b p copies).succs c = [b] ∧ g.succs c = [b] := by
  obtain ⟨earlier, later, f₁, n, blk, done, rest, hids, h₁, hblk, hpreds, h₂, hcopies, hne⟩ := hins
  unfold removePhis at hrun
  rw [hids] at hrun
  obtain ⟨f₁', _, _, h₁', hrun⟩ := removePhisOf_append _ _ hrun
  obtain ⟨rfl, -⟩ := ok_pair_inj (h₁'.symm.trans h₁)
  obtain ⟨f₂, _, hblock, hlater⟩ := removePhisOf_cons hrun
  have hf₁ := hf.removePhisOf _ h₁
  have hf₂ := hf₁.removeBlockPhis hblock
  -- the edges to `b` that come after the one from `p`
  obtain ⟨hs, hnodup, htargets⟩ := hf₁.begin_removal hblk
  have hphis : ¬ blk.phis.isEmpty = true := by
    intro hnil
    rw [List.isEmpty_iff] at hnil
    rw [hnil] at hcopies
    exact hne (Except.ok.inj hcopies).symm
  unfold removeBlockPhis at hblock
  rw [hblk] at hblock
  simp only [if_neg hphis] at hblock
  rw [hpreds] at hblock hnodup htargets
  rw [removeFrom_append] at hblock
  obtain ⟨before', h₂', hblock⟩ := bind_eq_ok.mp hblock
  obtain rfl := Except.ok.inj (h₂'.symm.trans h₂)
  rw [removeFrom, hcopies] at hblock
  rw [List.nodup_append, List.nodup_cons] at hnodup
  obtain ⟨hdone, ⟨hp, hrest⟩, hapart⟩ := hnodup
  obtain ⟨hbefore, hkeep⟩ := Coherent.removeFrom done hs hdone
    (fun q hq => htargets q (List.mem_append_left _ hq)) h₂
  have hkept : ∀ q ∈ p :: rest, b ∈ before'.targets q := fun q hq =>
    hkeep q (fun hd => hapart q hd q hq rfl) (htargets q (List.mem_append_right _ hq))
  obtain ⟨hafter, hkeep', c, front, last, hc, hcode, hsuccs⟩ := hbefore.copyOnEdge (hkept p List.mem_cons_self) copies
  refine ⟨c, front, last, hc, hcode, hsuccs, (removePhisOf_keeps (P := fun f => f.Coherent ∧ f.succs c = [b])
    (fun h heq => ⟨h.1.removeBlockPhis heq, succs_removeBlockPhis h.1 h.2 heq⟩) _ ⟨hf₂, ?_⟩ hlater).2⟩
  cases copies with
  | nil => exact absurd rfl hne
  | cons =>
    refine succs_removeFrom rest hafter hrest (fun q hq => ?_) hblock hsuccs
    exact hkeep' q (fun he => hp (he ▸ hq)) (hkept q (List.mem_cons_of_mem p hq))

end Func

/-- A finished graph is coherent. -/
theorem Builder.Finished.coherent {s : Builder} (h : s.Finished) : s.func.Coherent := by
  have hcode : ∀ b, s.Begun b ↔ s.func.code b ≠ [] := by
    intro b
    refine ⟨fun hb hnil => ?_, fun hne => ?_⟩
    · obtain ⟨front, last, heq, -⟩ := h.exists_last hb
      rw [hnil] at heq
      simp at heq
    · by_contra hnot
      exact hne (h.sound.wired.idle b hnot)
  have hr := h.regular
  refine .of_code hr.start_lt hr.target_lt hr.linked.mem_succs (fun {a b} => ?_) hr.nodup_succs hr.nodup_preds
    (fun b => h.reachable_iff.trans (hcode b)) fun b hb => h.exists_last ((hcode b).mpr hb)
  rw [hr.linked.mem_preds, hr.linked.mem_succs]

/-- The graph of a function is coherent and its blocks bear the numbers of their
places. Its phis can be taken out, and then that is so too. Copies go only where
nothing but the end of their edge can follow. -/
theorem build_coherent {t : Typed.Func} {f : Func} (h : build t = .ok f) :
    f.Coherent ∧ f.Indexed ∧ ∃ g count, f.removePhis = .ok (g, count) ∧ g.Coherent ∧ g.Indexed ∧
      ∀ b p copies before, f.Inserts b p copies before → ∃ c front last, (c = p ∨ c = before.blocks.size) ∧
        (before.copyOnEdge b p copies).code c =
          front ++ (Copies.sequenceFresh before.valueCount copies).1.map Copy.instr ++ [last] ∧
        (before.copyOnEdge b p copies).succs c = [b] ∧ g.succs c = [b] := by
  obtain ⟨s, hs, rfl, -⟩ := Builder.finished_of_build h
  have hf := hs.coherent
  have hn : ∀ b, (definedIds (s.func.phis b)).Nodup := fun b =>
    (hs.wellFormed.nodup_definedIds b).sublist ((List.takeWhile_sublist _).filterMap _)
  obtain ⟨g, moves, ρ, hg, -⟩ := removePhis_shape hs.regular hn
  exact ⟨hf, hs.named.indexed, g, _, hg, hf.removePhisOf _ hg, (hs.named.removePhisOf _ hg).indexed,
    fun b p copies before hins => hins.only_way hf hg⟩

/-- In `powers`, copies are made on the edge from the condition of the loop, the
block 3, to its body, the block 1. -/
theorem powers_coherent : ∃ f copies before, build powers = .ok f ∧ f.Coherent ∧ f.Indexed ∧
    f.Inserts 1 3 copies before ∧ ∃ g count c, f.removePhis = .ok (g, count) ∧ g.Coherent ∧ g.Indexed ∧
      (c = 3 ∨ c = before.blocks.size) ∧ g.succs c = [1] := by
  have hrun : ((build powers).toOption.bind fun f => (Func.removePhisOf [0] f).toOption.bind fun x =>
      (x.1.block? 1).bind fun blk => if f.blocks.toList.map Block.id = [0, 1, 2, 3, 4, 5, 6] ∧ blk.preds = [0, 3] then
        (Func.removeFrom 1 blk.phis [0] (x.1.modifyBlock 1 fun blk => { blk with code := blk.body })).toOption.bind
          fun before => (before.edgeCopies 1 3 blk.phis).toOption.map List.length
      else none) = some 2 := by decide +kernel
  obtain ⟨f, hf, hrun⟩ := Option.bind_eq_some_iff.mp hrun
  obtain ⟨⟨f₁, n⟩, h₁, hrun⟩ := Option.bind_eq_some_iff.mp hrun
  obtain ⟨blk, hblk, hrun⟩ := Option.bind_eq_some_iff.mp hrun
  split_ifs at hrun with hif
  obtain ⟨before, hbefore, hrun⟩ := Option.bind_eq_some_iff.mp hrun
  obtain ⟨copies, hcopies, hlen⟩ := Option.map_eq_some_iff.mp hrun
  obtain ⟨hcoherent, hindexed, g, count, hg, hgc, hgi, hall⟩ := build_coherent (eq_ok_of_toOption hf)
  have hins : f.Inserts 1 3 copies before :=
    ⟨[0], [2, 3, 4, 5, 6], f₁, n, blk, [0], [], hif.1, eq_ok_of_toOption h₁, hblk, hif.2,
      eq_ok_of_toOption hbefore, eq_ok_of_toOption hcopies, by rintro rfl; cases hlen⟩
  obtain ⟨c, -, -, hc, -, -, hsuccs⟩ := hall 1 3 copies before hins
  exact ⟨f, copies, before, eq_ok_of_toOption hf, hcoherent, hindexed, hins, g, count, c, hg, hgc, hgi, hc, hsuccs⟩

end Chordal.Ssa
