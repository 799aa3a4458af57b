/-
# Built functions are in strict form

In the graph of a function every value has exactly one definition, and the
definition dominates every use: an operand is defined earlier in its block or in
another block that every path passes first, and what a phi reads is defined on
every path to the end of the block it is read from. Phis stand at the heads of
blocks, with one entry for each predecessor.

All of this is read off a sound builder whose work is done: no block is being
written, and no edge waits.

Key definitions: `Func.Reachable`, `Func.BlockDominates`, `Func.StrictForm`.
Key theorems: `wellFormed_of_build`, `build_strictForm`.
-/
import Mathlib
import Chordal.Proofs.Ssa.BlockKinds
import Chordal.Proofs.Ssa.SoundConstruction

namespace Chordal.Ssa

namespace Func

/-! ### Dominance of blocks -/

/-- A path from the start comes to the block. -/
def Reachable (f : Func) (b : BlockId) : Prop := ∃ l, f.Path b l

/-- Every path from the start to the block `b` passes the block `d`. -/
def BlockDominates (f : Func) (d b : BlockId) : Prop := ∀ l, f.Path b l → d ∈ b :: l

/-- Every value has one definition, which dominates its uses, and phis choose by
the predecessors of their block. -/
structure StrictForm (f : Func) : Prop where
  defined : ∀ id, id < f.valueCount ↔ ∃ b k, f.DefinesAt b k id
  once : ∀ {b k b' k' id}, f.DefinesAt b k id → f.DefinesAt b' k' id → b = b' ∧ k = k'
  use : ∀ {b : BlockId} {k : Nat} {i}, f.Reachable b → (f.code b)[k]? = some i → i.isPhi = false → ∀ v ∈ i.operands,
    (∃ j < k, f.DefinesAt b j v.id) ∨ ∃ d j, f.DefinesAt d j v.id ∧ d ≠ b ∧ f.BlockDominates d b
  leading : ∀ {b : BlockId} {k : Nat} {target entries}, (f.code b)[k]? = some (.phi target entries) →
    ∀ j < k, ∃ i, (f.code b)[j]? = some i ∧ i.isPhi = true
  entries : ∀ {b : BlockId} {k : Nat} {target entries}, (f.code b)[k]? = some (.phi target entries) →
    (entries.map Prod.snd).Nodup ∧ ∀ p, p ∈ entries.map Prod.snd ↔ p ∈ f.preds b
  read : ∀ {b : BlockId} {k : Nat} {target entries}, (f.code b)[k]? = some (.phi target entries) → ∀ e ∈ entries,
    ∃ d j, f.DefinesAt d j e.1.id ∧ f.BlockDominates d e.2

variable {f : Func}

/-- A block that can be reached is reached by a path that was not there before. -/
theorem Reachable.first {b : BlockId} (h : f.Reachable b) : ∃ l, f.Path b l ∧ b ∉ l := by
  obtain ⟨l, hl⟩ := h
  induction hn : l.length using Nat.strong_induction_on generalizing l with
  | _ n ih =>
    by_cases hb : b ∈ l
    · obtain ⟨l', hl', hsuffix⟩ := hl.prior hb
      have hlt : l'.length < n := by
        have := hsuffix.length_le
        rw [List.length_cons, hn] at this
        omega
      exact ih l'.length hlt l' hl' rfl
    · exact ⟨l, hl, hb⟩

/-- What dominates a place stands before it in its block, or in another block
that dominates it. -/
theorem Dominates.block {d b : BlockId} {j k : Nat} (h : f.Dominates d j b k) (hb : f.Reachable b) :
    d = b ∧ j < k ∨ d ≠ b ∧ f.BlockDominates d b := by
  by_cases hdb : d = b
  · obtain ⟨l, hl, hnot⟩ := hb.first
    rcases h l hl with hd | hd
    · exact absurd (hdb ▸ hd) hnot
    · exact Or.inl hd
  · refine Or.inr ⟨hdb, fun l hl => ?_⟩
    rcases h l hl with hd | ⟨hd, -⟩
    · exact List.mem_cons_of_mem _ hd
    · exact absurd hd hdb

theorem exists_definesAt {b : BlockId} {id : Nat} : id ∈ definedIds (f.code b) ↔ ∃ k, f.DefinesAt b k id := by
  rw [mem_definedIds]
  constructor
  · rintro ⟨i, hi, v, hv, hid⟩
    obtain ⟨k, hk⟩ := List.mem_iff_getElem?.mp hi
    exact ⟨k, definesAt_iff.mpr ⟨i, v, hk, hv, hid⟩⟩
  · rintro ⟨k, hk⟩
    exact mem_definedIds.mp hk.mem

/-- A well-formed graph in which every number below the count is that of a value
is in strict form. -/
theorem WellFormed.strictForm (h : f.WellFormed) (hall : ∀ id, id < f.valueCount → ∃ b k, f.DefinesAt b k id) :
    f.StrictForm where
  defined id := by
    refine ⟨hall id, ?_⟩
    rintro ⟨b, k, hk⟩
    obtain ⟨i, v, hi, hv, rfl⟩ := definesAt_iff.mp hk
    exact h.target_id_lt b i (List.mem_of_getElem? hi) v hv
  once := h.unique
  use := by
    intro b k i hb hk hphi v hv
    obtain ⟨d, j, hdef, hdom⟩ := h.dominated hk hphi v hv
    rcases hdom.block hb with ⟨rfl, hlt⟩ | ⟨hne, hdom⟩
    · exact Or.inl ⟨j, hlt, hdef⟩
    · exact Or.inr ⟨d, j, hdef, hne, hdom⟩
  leading := by
    intro b k target entries hk j hj
    have hlen : k < (f.code b).length := (List.getElem?_eq_some_iff.mp hk).1
    refine ⟨(f.code b)[j], List.getElem?_eq_getElem (hj.trans hlen), ?_⟩
    -- the instruction at `k` is a phi, so it stands among the phis at the head
    by_contra hnot
    have hlt : (f.phis b).length ≤ j := by
      by_contra hge
      have hmem : (f.code b)[j] ∈ f.phis b := by
        have hpre : f.phis b <+: f.code b := List.takeWhile_prefix _
        have hjlt := Nat.not_le.mp hge
        rw [← hpre.getElem hjlt]
        exact List.getElem_mem _
      exact hnot (List.mem_takeWhile_imp hmem)
    have hbody : Instr.phi target entries ∈ f.body b := by
      rw [← f.phis_append_body b, List.getElem?_append_right (hlt.trans hj.le)] at hk
      exact List.mem_of_getElem? hk
    cases h.phis_first b _ hbody
  entries := by
    intro b k target entries hk
    have hperm := h.entries (List.mem_of_getElem? hk)
    exact ⟨hperm.nodup_iff.mpr (h.nodup_preds b), fun p => hperm.mem_iff⟩
  read := by
    intro b k target entries hk e he
    obtain ⟨d, j, hdef, hdom⟩ := h.phi_dominated (List.mem_of_getElem? hk) e he
    refine ⟨d, j, hdef, fun l hl => ?_⟩
    rcases hdom l hl with hd | ⟨rfl, -⟩
    · exact List.mem_cons_of_mem _ hd
    · exact List.mem_cons_self

end Func

/-! ### The finished graph -/

namespace Builder

theorem sound_start (t : Typed.Func) : (Builder.start t).Sound := by
  have hpreds : ∀ b, (Builder.start t).func.preds b = [] := fun b =>
    (Func.preds_addBlock (Func.empty t.name t.returns t.isEntry) "entry" b).trans
      (Func.preds_of_size_le (Nat.zero_le b))
  have hsuccs : ∀ b, (Builder.start t).func.succs b = [] := fun b => by
    refine (Func.succs_addBlock (Func.empty t.name t.returns t.isEntry) "entry" b).trans ?_
    unfold Func.succs
    rw [Func.block?_of_size_le (Nat.zero_le b)]
    rfl
  have hcode := code_start t
  have htargets : ∀ b, (Builder.start t).func.targets b = [] := fun b => by
    rw [Func.targets_eq_exits]
    exact congrArg exits (hcode b)
  have hbegun : ∀ b, (Builder.start t).Begun b → b = 0 := by
    rintro b (hb | hb)
    · exact (Option.some.inj hb).symm
    · rw [hcode] at hb
      cases hb
  refine ⟨good_start t, ⟨fun b => ?_, fun b => ?_, fun a b => ?_, fun b => ?_, fun a b hb => ?_, fun b _ => hcode b,
      fun b => ?_, Or.inl rfl, hpreds _, fun b hb => ?_, fun b hb => ?_⟩,
    ⟨fun b => ?_, fun b c id hb => ?_, fun id => ?_⟩,
    ⟨fun b hb j v hv => ?_, fun e he => ?_, fun b done i rest h => ?_, fun b t es h => ?_⟩,
    ⟨fun b t es h => ?_, fun b i hi => ?_⟩⟩
  · rw [hsuccs, htargets]
  · rw [hsuccs]
    exact List.nodup_nil
  · rw [hpreds, htargets]
    simp
  · rw [hpreds]
    exact List.nodup_nil
  · rw [htargets] at hb
    cases hb
  · rw [hcode]
    rfl
  · rw [hbegun b hb]
    exact ⟨[], .start⟩
  · exact hpreds b
  · rw [hcode]
    exact List.nodup_nil
  · rw [hcode] at hb
    cases hb
  · simp only [hcode]
    exact ⟨fun h => absurd h (Nat.not_lt_zero _), fun ⟨_, h⟩ => absurd h List.not_mem_nil⟩
  · cases hv
  · cases he
  · rw [hcode] at h
    simp at h
  · rw [hcode] at h
    cases h
  · rw [hcode] at h
    cases h
  · rw [hcode] at hi
    cases hi

/-- A builder whose work is done. -/
structure Finished (s : Builder) : Prop where
  sound : s.Sound
  named : s.func.Named
  current : s.current = none
  pending : s.pending = []
  phis_start : ∀ i ∈ s.code s.func.start, i.isPhi = false

theorem finished_of_build {t : Typed.Func} {f : Func} (h : build t = .ok f) :
    ∃ s : Builder, s.Finished ∧ s.func = f ∧ s.func.head = (Builder.start t).func.head := by
  obtain ⟨s, hs, hf⟩ := bind_eq_ok.mp h
  cases hcur : s.current with
  | some b =>
    rw [hcur] at hf
    cases hf
  | none =>
    rw [hcur] at hf
    obtain ⟨hsound, -⟩ := lowerStmts_sound t.body (sound_start t) hs
    have hx := lowerStmts_extends t.body (good_start t) hs
    have hstart : s.func.start = 0 := congrArg (fun head => head.2.2.2) hx.grows.head
    have hnamed : s.func.Named := Except.ok.inj hf ▸ named_of_build h
    refine ⟨s, ⟨hsound, hnamed, hcur, ?_, ?_⟩, Except.ok.inj hf, hx.grows.head⟩
    · -- an edge that waits would have a target in a loop
      rw [List.eq_nil_iff_forall_not_mem]
      intro e he
      have hmem : e ∈ s.edgesTo e.target := mem_edgesTo.mpr ⟨he, rfl⟩
      have hnone : ¬ (Builder.start t).LoopTarget e.target := by
        rintro ⟨l, hl, -⟩
        cases hl
      rw [hx.edgesTo_eq (good_start t) hnone] at hmem
      cases hmem
    · rw [hstart]
      obtain ⟨d, tail, heq, hd, htail, -⟩ := hx.grows.code 0
      rw [code_start] at hd
      obtain rfl := List.forall₂_nil_left_iff.mp hd
      rw [heq]
      exact htail (Or.inl rfl)

namespace Finished

variable {s : Builder} (h : s.Finished)

include h

theorem begun_iff {b : BlockId} : s.Begun b ↔ ended (s.code b) = true := by
  unfold Begun
  rw [h.current]
  simp

/-- All blocks that edges lead to are begun. -/
theorem begun_of_path {b : BlockId} {l : List BlockId} (hl : s.func.Path b l) : s.Begun b := by
  cases hl with
  | start => exact h.sound.wired.start
  | @step a _ l _ hb =>
    by_contra hnot
    have hun := h.sound.wired.unbegun hnot (h.sound.wired.target_lt a b hb)
    have hmem := (h.sound.wired.preds a b).mpr hb
    have hnil : s.edgesTo b = [] := by
      unfold edgesTo
      rw [h.pending]
      rfl
    rw [h.sound.wired.waiting b hun, hnil] at hmem
    cases hmem

theorem reachable_iff {b : BlockId} : s.func.Reachable b ↔ s.Begun b :=
  ⟨fun ⟨_, hl⟩ => h.begun_of_path hl, fun hb => h.sound.wired.reached b hb⟩

/-- A block that is begun ends in its only terminator. -/
theorem exists_last {b : BlockId} (hb : s.Begun b) : ∃ front last, s.func.code b = front ++ [last] ∧
    last.isTerminator = true ∧ ∀ i ∈ front, i.isTerminator = false := by
  have hend : ended (s.func.code b) = true := h.begun_iff.mp hb
  have hlast : ended (s.func.code b).dropLast = false := h.sound.wired.last b
  rcases List.eq_nil_or_concat' (s.func.code b) with hnil | ⟨front, last, hcode⟩
  · rw [hnil] at hend
    cases hend
  · rw [hcode, List.dropLast_concat] at hlast
    rw [hcode, ended_append, hlast, Bool.false_or] at hend
    refine ⟨front, last, hcode, by simpa [ended] using hend, fun i hi => ?_⟩
    have hall := List.any_eq_false.mp hlast i hi
    simpa using hall

/-- The definition of what is known dominates the place. -/
theorem dominates_of_knows {b : BlockId} {done : List Instr} {id : Nat} (hb : s.Begun b)
    (hknown : s.Knows b done id) (hdone : done <+: s.func.code b) :
    ∃ d j, s.func.DefinesAt d j id ∧ s.func.Dominates d j b done.length := by
  have hn := h.sound.numbered
  have honly : ∀ {d d' j j'}, s.func.DefinesAt d j id → s.func.DefinesAt d' j' id → d = d' :=
    fun hd hd' => hn.only _ _ id hd.mem hd'.mem
  obtain ⟨l, hl⟩ := h.sound.wired.reached b hb
  by_cases hid : id ∈ definedIds done
  · -- it is defined in the part of the block that is run
    obtain ⟨i, hi, v, hv, rfl⟩ := mem_definedIds.mp hid
    obtain ⟨j, hj⟩ := List.mem_iff_getElem?.mp hi
    obtain ⟨hlt, -⟩ := List.getElem?_eq_some_iff.mp hj
    obtain ⟨rest, hrest⟩ := hdone
    refine ⟨b, j, Func.definesAt_iff.mpr ⟨i, v, ?_, hv, rfl⟩, fun _ _ => Or.inr ⟨rfl, hlt⟩⟩
    rw [← hrest, List.getElem?_append_left hlt, hj]
  · obtain ⟨d, -, hd⟩ := (hknown l hl).resolve_left hid
    obtain ⟨j, hj⟩ := Func.exists_definesAt.mp hd
    refine ⟨d, j, hj, fun l' hl' => Or.inl ?_⟩
    obtain ⟨d', hd', hmem⟩ := (hknown l' hl').resolve_left hid
    rwa [hn.only d d' id hd hmem]

theorem begun_of_mem {b : BlockId} {i : Instr} (hi : i ∈ s.func.code b) : s.Begun b := by
  by_contra hnot
  have hnil : s.func.code b = [] := h.sound.wired.idle b hnot
  rw [hnil] at hi
  cases hi

/-- No two instructions define the same value. -/
theorem unique {d d' : BlockId} {j j' id : Nat} (hd : s.func.DefinesAt d j id) (hd' : s.func.DefinesAt d' j' id) :
    d = d' ∧ j = j' := by
  have hn := h.sound.numbered
  obtain rfl := hn.only d d' id hd.mem hd'.mem
  refine ⟨rfl, ?_⟩
  obtain ⟨i, v, hi, hv, hid⟩ := Func.definesAt_iff.mp hd
  obtain ⟨i', v', hi', hv', hid'⟩ := Func.definesAt_iff.mp hd'
  obtain ⟨hlt, hget⟩ := List.getElem?_eq_some_iff.mp hi
  obtain ⟨hlt', hget'⟩ := List.getElem?_eq_some_iff.mp hi'
  have hpair := hn.nodup d
  unfold definedIds at hpair
  rw [List.nodup_iff_pairwise_ne, List.pairwise_filterMap, List.pairwise_iff_getElem] at hpair
  have htarget : ∀ {k : Nat} (hk : k < (s.func.code d).length) {w : Value}, (s.func.code d)[k].target? = some w →
      w.id = id → ((s.func.code d)[k].target?.map Value.id) = some id := fun hk w hw he => by
    rw [hw, ← he]
    rfl
  have hat := htarget hlt (hget ▸ hv) hid
  have hat' := htarget hlt' (hget' ▸ hv') hid'
  rcases Nat.lt_trichotomy j j' with hjj | rfl | hjj
  · exact absurd rfl (hpair j j' hlt hlt' hjj id hat id hat')
  · rfl
  · exact absurd rfl (hpair j' j hlt' hlt hjj id hat' id hat)

theorem regular : s.func.Regular where
  indexed := h.named.indexed
  start_lt := begun_lt h.sound.good h.sound.wired.start
  target_lt hb := h.sound.wired.target_lt _ _ hb
  nodup_preds := h.sound.wired.nodup_preds
  nodup_succs := h.sound.wired.nodup_succs
  linked :=
    { mem_succs := by
        intro a b
        rw [h.sound.wired.succs]
      mem_preds := by
        intro a b
        rw [h.sound.wired.preds, h.sound.wired.succs] }
  ended hl := h.exists_last (h.begun_of_path hl)
  phis_first := h.sound.headed.phis_first
  entries hmem := by
    rw [← h.sound.headed.entries _ _ _ hmem]
  preds_start := h.sound.wired.preds_start
  phis_start := h.phis_start
  target_id_lt b i hi v hv := (h.sound.numbered.mem v.id).mpr ⟨b, mem_definedIds.mpr ⟨i, hi, v, hv, rfl⟩⟩
  operand_id_lt b i hi v hv := by
    have hdef : ∃ d j, s.func.DefinesAt d j v.id := by
      cases hphi : i.isPhi with
      | true =>
        cases i with
        | phi t es =>
          obtain ⟨e, he, rfl⟩ := List.mem_map.mp hv
          obtain ⟨hb, hk⟩ := h.sound.informed.phi b t es hi e he
          obtain ⟨d, j, hd, -⟩ := h.dominates_of_knows hb hk List.prefix_rfl
          exact ⟨d, j, hd⟩
        | _ => cases hphi
      | false =>
        obtain ⟨done, rest, hcode⟩ := List.append_of_mem hi
        obtain ⟨d, j, hd, -⟩ := h.dominates_of_knows (h.begun_of_mem hi)
          (h.sound.informed.use b done i rest hcode hphi v hv) (hcode ▸ List.prefix_append _ _)
        exact ⟨d, j, hd⟩
    obtain ⟨d, j, hd⟩ := hdef
    exact (h.sound.numbered.mem v.id).mpr ⟨d, hd.mem⟩

theorem wellFormed : s.func.WellFormed where
  toRegular := h.regular
  unique := h.unique
  dominated := by
    intro b k i hk hphi v hv
    have hcode : s.func.code b = (s.func.code b).take k ++ i :: (s.func.code b).drop (k + 1) := by
      obtain ⟨hlt, hget⟩ := List.getElem?_eq_some_iff.mp hk
      rw [← hget, List.getElem_cons_drop, List.take_append_drop]
    obtain ⟨d, j, hd, hdom⟩ := h.dominates_of_knows (h.begun_of_mem (List.mem_of_getElem? hk))
      (h.sound.informed.use b _ i _ hcode hphi v hv) (List.take_prefix k _)
    refine ⟨d, j, hd, ?_⟩
    rwa [List.length_take, Nat.min_eq_left (List.getElem?_eq_some_iff.mp hk).1.le] at hdom
  phi_dominated := by
    intro b target entries hmem e he
    obtain ⟨hb, hk⟩ := h.sound.informed.phi b target entries hmem e he
    exact h.dominates_of_knows hb hk List.prefix_rfl

end Finished
end Builder

/-- The graph of a function is well formed. -/
theorem wellFormed_of_build {t : Typed.Func} {f : Func} (h : build t = .ok f) : f.WellFormed := by
  obtain ⟨s, hs, rfl, -⟩ := Builder.finished_of_build h
  exact hs.wellFormed

/-- The graph of a function is in strict form. -/
theorem build_strictForm {t : Typed.Func} {f : Func} (h : build t = .ok f) : f.StrictForm := by
  obtain ⟨s, hs, rfl, -⟩ := Builder.finished_of_build h
  refine hs.wellFormed.strictForm fun id hid => ?_
  obtain ⟨b, hb⟩ := (hs.sound.numbered.mem id).mp hid
  exact ⟨b, Func.exists_definesAt.mp hb⟩

/-- The graph of a loop with a step and a `continue` is in strict form. -/
theorem powers_strictForm : ∃ f, build powers = .ok f ∧ f.StrictForm := by
  have hok : (build powers).isOk = true := by decide +kernel
  cases hf : build powers with
  | error e =>
    rw [hf] at hok
    cases hok
  | ok f => exact ⟨f, rfl, build_strictForm hf⟩

end Chordal.Ssa
