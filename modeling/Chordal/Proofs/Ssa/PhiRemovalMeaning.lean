/-
# Taking phis out keeps the meaning

A run of a function and a run of it without its phis go through the same blocks,
and what the function names holds the same in both. On an edge the one reads all
phis at once; the other makes the copies of the edge, before it leaves the block,
on the way, or both. A block whose terminator follows copies has only one block
to go to, so a copy cannot change where control goes.

Key definitions: `Related`.
Key theorems: `Related.step`, `removePhis_preserves_meaning`.
-/
import Mathlib
import Chordal.Proofs.Ssa.PhiRemoval

namespace Chordal.Ssa

/-! ### Phis and copies -/

/-- What phis read, by the copies that they need. -/
theorem readPhis_phiCopies (p : BlockId) (label : String) (store : Store) : ∀ phis : List Instr,
    HasEntries p phis →
    (∀ target entries, .phi target entries ∈ phis → ∀ v, (v, p) ∈ entries →
      ∃ w, store.get? v.id = some w) →
    ∃ assignments, readPhis (some p) label store phis = .ok assignments ∧
      assignments.map (fun q => q.1.id) = definedIds phis ∧
      (∀ c ∈ phiCopies p phis, ∃ w, (c.target, w) ∈ assignments ∧ store.get? c.source.id = some w) ∧
      ∀ q ∈ assignments, store.get? q.1.id = some q.2 ∨ ∃ c ∈ phiCopies p phis, c.target = q.1
  | [], _, _ => ⟨[], rfl, rfl, by simp [phiCopies], by simp⟩
  | i :: phis, he, hdef => by
    obtain ⟨target, entries, rfl, -⟩ := he i List.mem_cons_self
    obtain ⟨e, hfind⟩ := he.head
    obtain ⟨assignments, hread, hids, hcopies, hself⟩ := readPhis_phiCopies p label store phis he.of_cons
      fun t es hm => hdef t es (List.mem_cons_of_mem _ hm)
    have hp : e.2 = p := by simpa using List.find?_some hfind
    obtain ⟨w, hw⟩ := hdef target entries List.mem_cons_self e.1 (hp ▸ List.mem_of_find?_eq_some hfind)
    have hfind' : (entries.find? fun e => some e.2 == some p) = some e := hfind
    refine ⟨(target, w) :: assignments, ?_, ?_, ?_, ?_⟩
    · simp only [readPhis, hfind', Store.read_eq_ok hw, hread]
      rfl
    · rw [List.map_cons, hids]
      rfl
    · intro c hc
      simp only [phiCopies, hfind] at hc
      have htail : c ∈ phiCopies p phis →
          ∃ w', (c.target, w') ∈ (target, w) :: assignments ∧ store.get? c.source.id = some w' := by
        intro hc
        obtain ⟨w', hw', hs⟩ := hcopies c hc
        exact ⟨w', List.mem_cons_of_mem _ hw', hs⟩
      split_ifs at hc
      · exact htail hc
      · rcases List.mem_cons.mp hc with rfl | hc
        · exact ⟨w, List.mem_cons_self, hw⟩
        · exact htail hc
    · intro q hq
      simp only [phiCopies, hfind]
      rcases List.mem_cons.mp hq with rfl | hq
      · by_cases hse : e.1.id = target.id
        · exact .inl (hse ▸ hw)
        · exact .inr ⟨⟨target, e.1⟩, by rw [if_neg hse]; exact List.mem_cons_self, rfl⟩
      · rcases hself q hq with h | ⟨c, hc, h⟩
        · exact .inl h
        · refine .inr ⟨c, ?_, h⟩
          split_ifs
          · exact hc
          · exact List.mem_cons_of_mem _ hc

/-- The store behind phis is the one that their copies make, if self copies count. -/
theorem enter_copies {f : Func} {p c : BlockId} {store : Store} (hc : c < f.blocks.size)
    (he : HasEntries p (f.phis c)) (hn : (definedIds (f.phis c)).Nodup)
    (hdef : ∀ target entries, .phi target entries ∈ f.phis c → ∀ v, (v, p) ∈ entries →
      ∃ w, store.get? v.id = some w) :
    ∃ store', f.enter (some p) c store = .ok ⟨c, f.body c, store'⟩ ∧
      (∀ k ∈ phiCopies p (f.phis c), store'.get? k.target.id = store.get? k.source.id) ∧
      (∀ id, (∀ k ∈ phiCopies p (f.phis c), k.target.id ≠ id) → store'.get? id = store.get? id) ∧
      ∀ id ∈ definedIds (f.phis c), ∃ w, store'.get? id = some w := by
  obtain ⟨assignments, hread, hids, hcopies, hself⟩ :=
    readPhis_phiCopies p (f.label c) store (f.phis c) he hdef
  obtain ⟨blk, hblk, hcode⟩ := Func.exists_block hc
  have hnd : (assignments.map fun q => q.1.id).Nodup := hids ▸ hn
  refine ⟨store.writeAll assignments, ?_, fun k hk => ?_, fun id hid => ?_, fun id hid => ?_⟩
  · have hphis : blk.phis = f.phis c := by rw [Func.phis, hcode]; rfl
    have hbody : blk.body = f.body c := by rw [Func.body, hcode]; rfl
    unfold Func.enter
    simp only [hblk, hphis, hbody, hread]
    rfl
  · obtain ⟨w, hw, hs⟩ := hcopies k hk
    rw [hs]
    exact Store.get?_writeAll_of_mem assignments store _ hnd hw
  · by_cases hmem : id ∈ assignments.map fun q => q.1.id
    · obtain ⟨q, hq, rfl⟩ := List.mem_map.mp hmem
      rw [Store.get?_writeAll_of_mem assignments store q hnd hq]
      rcases hself q hq with h | ⟨k, hk, h⟩
      · exact h.symm
      · exact absurd (congrArg Value.id h) (hid k hk)
    · exact Store.get?_writeAll_of_notMem assignments store id fun q hq hqid =>
        hmem (List.mem_map.mpr ⟨q, hq, hqid⟩)
  · rw [← hids] at hid
    obtain ⟨q, hq, rfl⟩ := List.mem_map.mp hid
    exact ⟨q.2, Store.get?_writeAll_of_mem assignments store q hnd hq⟩

/-! ### Copies as instructions -/

theorem Copies.run_append : ∀ (moves more : List Copy) (store : Store),
    Copies.run (moves ++ more) store = (Copies.run moves store).bind (Copies.run more)
  | [], _, _ => rfl
  | c :: moves, more, store => by
    rw [List.cons_append, Copies.run, Copies.run]
    cases store.get? c.source.id with
    | none => rfl
    | some w => exact run_append moves more _

/-- Copies take nothing away. -/
theorem Copies.run_defined : ∀ {moves : List Copy} {store store' : Store} (id : Nat),
    Copies.run moves store = some store' → (∃ w, store.get? id = some w) → ∃ w, store'.get? id = some w
  | [], _, _, _, h, hid => Option.some.inj h ▸ hid
  | c :: moves, store, store', id, h, hid => by
    obtain ⟨w, -, hrun⟩ := Option.bind_eq_some_iff.mp h
    refine run_defined id hrun ?_
    rw [Store.get?_write]
    split_ifs
    · exact ⟨w, rfl⟩
    · exact hid

theorem steps_copies (g : Func) (b : BlockId) (rest : List Instr) : ∀ {moves : List Copy}
    {store store' : Store}, Copies.run moves store = some store' →
    g.Steps moves.length ⟨b, moves.map Copy.instr ++ rest, store⟩ ⟨b, rest, store'⟩
  | [], _, _, h => Option.some.inj h ▸ .refl _
  | c :: moves, store, store', h => by
    obtain ⟨w, hw, hrun⟩ := Option.bind_eq_some_iff.mp h
    have hstep : g.step b store (moves.map Copy.instr ++ rest) c.instr =
        .ok (.state ⟨b, moves.map Copy.instr ++ rest, store.write c.target w⟩) := by
      simp only [Copy.instr, Func.step, Store.read_eq_ok hw]
      rfl
    exact .head hstep (steps_copies g b rest hrun)

/-! ### Two runs -/

/-- A run of the function, and a run of it without phis that is at the same place. -/
structure Related (f g : Func) (moves : BlockId → List Copy) (ρ : BlockId → BlockId → BlockId)
    (x y : State) : Prop where
  onPath : ∃ l done, f.OnPath l done x
  block : y.block = x.block
  code : y.code = reshape (moves x.block) (ρ x.block) x.code
  rest : x.code ≠ []
  store : ∀ id, id < f.valueCount → y.store.get? id = x.store.get? id

theorem reshape_cons (moves : List Copy) (ρ : BlockId → BlockId) (i : Instr) {rest : List Instr}
    (h : rest ≠ []) : reshape moves ρ (i :: rest) = i :: reshape moves ρ rest := by
  obtain ⟨front, last, rfl⟩ := (List.eq_nil_or_concat' rest).resolve_left h
  rw [← List.cons_append, reshape_concat, reshape_concat, List.cons_append, List.cons_append]

/-- Agreement on what is in use is kept when both runs write the same. -/
theorem agree_write {bound : Nat} {store store' : Store} (t : Value) (w : Word)
    (h : ∀ id, id < bound → store'.get? id = store.get? id) :
    ∀ id, id < bound → (store'.write t w).get? id = (store.write t w).get? id := by
  intro id hid
  rw [Store.get?_write, Store.get?_write, h id hid]

section TwoRuns

variable {f g : Func} {moves : BlockId → List Copy} {ρ : BlockId → BlockId → BlockId} {x y : State}
  (hr : f.Regular) (hs : f.Strict) (hn : ∀ b, (definedIds (f.phis b)).Nodup) (hg : Removed f g moves ρ)

include hr hg

omit hg in
/-- A block on a path has more than phis. -/
theorem body_ne_nil {b : BlockId} {l : List BlockId} (h : f.Path b l) : f.body b ≠ [] := by
  obtain ⟨front, last, hcode, hlast, -⟩ := hr.ended h
  have hphi : last.isPhi = false := by cases last <;> first | rfl | cases hlast
  rw [Func.body, hcode, dropWhile_isPhi front [] hphi]
  simp

/-- The function without its phis has none. -/
theorem noPhis (b : BlockId) : ∀ i ∈ g.code b, i.isPhi = false := by
  rcases Nat.lt_or_ge b f.blocks.size with hb | hb
  · intro i hi
    rw [hg.code hb] at hi
    rcases List.mem_append.mp hi with hi | hi
    · rcases List.mem_append.mp hi with hi | hi
      · exact hr.phis_first b i (List.dropLast_subset _ hi)
      · obtain ⟨k, -, rfl⟩ := List.mem_map.mp hi
        rfl
    · rw [Option.mem_toList, Option.map_eq_some_iff] at hi
      obtain ⟨j, hj, rfl⟩ := hi
      rw [Instr.isPhi_rename]
      exact hr.phis_first b j (List.mem_of_getLast? hj)
  · exact hg.split hb

omit hg in
include hs in
/-- An instruction inside a block does the same in both runs. -/
theorem Related.inside {b : BlockId} {i : Instr} {rest : List Instr} {store : Store}
    (h : Related f g moves ρ ⟨b, i :: rest, store⟩ y) (hrest : rest ≠ []) :
    (∃ r, Halts f ⟨b, i :: rest, store⟩ (ofResult r) ∧ Halts g y (ofResult r)) ∨
      ∃ x' y', f.Steps 1 ⟨b, i :: rest, store⟩ x' ∧ g.Steps 1 y y' ∧ Related f g moves ρ x' y' := by
  obtain ⟨l, done, hpath⟩ := h.onPath
  have hterm : i.isTerminator = false := by
    rw [← Bool.not_eq_true, hpath.isTerminator_iff hr.ended]
    exact hrest
  have hmem : i ∈ f.code b := by
    rw [show f.code b = done ++ i :: rest from hpath.code]
    simp
  obtain ⟨block, code, store'⟩ := y
  obtain rfl : block = b := h.block
  obtain rfl : code = i :: reshape (moves block) (ρ block) rest :=
    h.code.trans (reshape_cons _ _ i hrest)
  have hagree : ∀ v ∈ i.operands, store'.get? v.id = store.get? v.id := fun v hv =>
    h.store v.id (hr.operand_id_lt block i hmem v hv)
  obtain ⟨t, ht, ⟨w, hstep⟩ | ⟨fault, hstep⟩⟩ :=
    step_inside hterm (hpath.body i List.mem_cons_self) (hpath.operand hs)
  · exact .inr ⟨_, _, .one (hstep f block rest store fun _ _ => rfl), .one (hstep g block _ store' hagree),
      ⟨l, _, hpath.write ht w⟩, rfl, rfl, hrest, agree_write t w h.store⟩
  · exact .inl ⟨.error fault,
      ⟨0, _, .refl _, i, rest, rfl, .inr ⟨_, hstep f block rest store fun _ _ => rfl, rfl⟩⟩,
      ⟨0, _, .refl _, i, _, rfl, .inr ⟨_, hstep g block _ store' hagree, rfl⟩⟩⟩

include hs in
/-- The copies before a terminator can be made. -/
theorem Related.before {b c : BlockId} {i : Instr} {store : Store}
    (h : Related f g moves ρ ⟨b, [i], store⟩ y) (hi : i.isTerminator = true) (hc : c ∈ f.targets b) :
    ∃ store₁, Copies.run (moves b) y.store = some store₁ := by
  obtain ⟨l, done, hpath⟩ := h.onPath
  obtain ⟨more, hreal, -⟩ := hg.way hc
  obtain ⟨store₂, hall, -⟩ := hreal.performs y.store fun k hk => by
    obtain ⟨entries, hm, he⟩ := mem_phiCopies hk
    have hmem := mem_code_of_mem_phis hm
    rw [h.store _ (hr.operand_id_lt c _ hmem k.source (List.mem_map.mpr ⟨_, he, rfl⟩))]
    exact hpath.defined_end hi (hs.phi hpath.path hc hmem k.source he)
  rw [Copies.run_append] at hall
  obtain ⟨store₁, hrun, -⟩ := Option.bind_eq_some_iff.mp hall
  exact ⟨store₁, hrun⟩

include hs hn in
/-- Both runs take an edge: the one reads phis, the other makes what is left of
the copies. -/
theorem Related.edge {b c : BlockId} {i : Instr} {store store₁ : Store}
    (h : Related f g moves ρ ⟨b, [i], store⟩ y) (hi : i.isTerminator = true) (hc : c ∈ f.targets b)
    (hrun : Copies.run (moves b) y.store = some store₁) :
    ∃ x', f.enter (some b) c store = .ok x' ∧ ∃ y₁, g.enter (some b) (ρ b c) store₁ = .ok y₁ ∧
      ∃ m y', g.Steps m y₁ y' ∧ Related f g moves ρ x' y' := by
  obtain ⟨l, done, hpath⟩ := h.onPath
  have hcf := hr.target_lt hc
  have hcg := Nat.lt_of_lt_of_le hcf hg.size_le
  have hphi : ∀ target entries, .phi target entries ∈ f.phis c → ∀ v, (v, b) ∈ entries →
      ∃ w, store.get? v.id = some w := fun target entries hm v hv =>
    hpath.defined_end hi (hs.phi hpath.path hc (mem_code_of_mem_phis hm) v hv)
  obtain ⟨store', henter, hcopied, hkept, hdefined⟩ := enter_copies hcf
    (hasEntries hr (hr.linked.mem_preds.mpr (hr.linked.mem_succs.mpr hc))) (hn c) hphi
  have hpend := pending_phiCopies hr hn b c
  -- both stores, where the edge ends
  obtain ⟨more, hreal, hto⟩ := hg.way hc
  obtain ⟨store₂, hall, hcopied', hkept'⟩ := hreal.performs y.store fun k hk => by
    obtain ⟨entries, hm, he⟩ := mem_phiCopies hk
    rw [h.store _ (hpend.source_lt k hk)]
    exact hphi k.target entries hm k.source he
  rw [Copies.run_append, hrun, Option.bind_some] at hall
  have hagree : ∀ id, id < f.valueCount → store₂.get? id = store'.get? id := by
    intro id hid
    by_cases hmem : ∃ k ∈ phiCopies b (f.phis c), k.target.id = id
    · obtain ⟨k, hk, rfl⟩ := hmem
      rw [hcopied' k hk, hcopied k hk, h.store _ (hpend.source_lt k hk)]
    · push Not at hmem
      rw [hkept' id hid hmem, hkept id hmem, h.store id hid]
  have hnext : f.OnPath (b :: l) (f.phis c) ⟨c, f.body c, store'⟩ := by
    refine hpath.enter hi hc (hr.phis_first c) (fun id hid => ?_) hdefined
    by_cases hmem : ∃ k ∈ phiCopies b (f.phis c), k.target.id = id
    · obtain ⟨k, hk, rfl⟩ := hmem
      obtain ⟨entries, hm, he⟩ := mem_phiCopies hk
      rw [hcopied k hk]
      exact hphi k.target entries hm k.source he
    · push Not at hmem
      rw [hkept id hmem]
      exact hid
  have hrel : Related f g moves ρ ⟨c, f.body c, store'⟩ ⟨c, g.code c, store₂⟩ :=
    ⟨⟨_, _, hnext⟩, rfl, hg.code hcf, body_ne_nil hr hnext.path, hagree⟩
  have hin : ∀ origin store, g.enter origin c store = .ok ⟨c, g.code c, store⟩ :=
    Func.enter_of_noPhis hcg (noPhis hr hg c)
  refine ⟨_, henter, ?_⟩
  rcases hto with ⟨heq, rfl⟩ | ⟨hle, hlt, hcode⟩
  · obtain rfl := Option.some.inj hall
    rw [heq, hin]
    exact ⟨_, rfl, 0, _, .refl _, hrel⟩
  · rw [Func.enter_of_noPhis hlt (noPhis hr hg _), hcode]
    refine ⟨_, rfl, _, _, (steps_copies g _ [.jump c] hall).trans (.one ?_), hrel⟩
    simp only [Func.step, hin]
    rfl

include hs hn in
/-- Both runs leave a block. Where copies stand before the terminator, both of its
targets are the same block. -/
theorem Related.leave {b : BlockId} {i : Instr} {store : Store}
    (h : Related f g moves ρ ⟨b, [i], store⟩ y) :
    (∃ r, Halts f ⟨b, [i], store⟩ (ofResult r) ∧ Halts g y (ofResult r)) ∨
      ∃ m x' y', f.Steps 1 ⟨b, [i], store⟩ x' ∧ g.Steps (m + 1) y y' ∧ Related f g moves ρ x' y' := by
  obtain ⟨l, done, hpath⟩ := h.onPath
  have hi : i.isTerminator = true := (hpath.isTerminator_iff hr.ended).mpr rfl
  have hcode : f.code b = done ++ [i] := hpath.code
  have htargets := Func.targets_of_code hcode
  have hagree : ∀ v ∈ i.operands, y.store.get? v.id = store.get? v.id := fun v hv =>
    h.store v.id (hr.operand_id_lt b i (by rw [hcode]; simp) v hv)
  have hdef := hpath.operand hs
  obtain ⟨block, code, ystore⟩ := y
  obtain rfl : block = b := h.block
  obtain rfl : code = (moves block).map Copy.instr ++ [i.rename (ρ block)] := h.code
  simp only at hagree
  -- the copies are made, the edge to `c` is taken in both runs
  have hedge : ∀ c ∈ f.targets block, f.step block store [] i = (f.enter (some block) c store).map Next.state →
      (∀ store₁, Copies.run (moves block) ystore = some store₁ →
        g.step block store₁ [] (i.rename (ρ block)) =
          (g.enter (some block) (ρ block c) store₁).map Next.state) →
      ∃ m x' y', f.Steps 1 ⟨block, [i], store⟩ x' ∧
        g.Steps (m + 1) ⟨block, (moves block).map Copy.instr ++ [i.rename (ρ block)], ystore⟩ y' ∧
          Related f g moves ρ x' y' := by
    intro c hc hf hgo
    obtain ⟨store₁, hrun⟩ := h.before hr hs hg hi hc
    obtain ⟨x', hx', y₁, hy₁, m, y', hm, hrel⟩ := h.edge hr hs hn hg hi hc hrun
    have hx : f.Steps 1 ⟨block, [i], store⟩ x' := .one (by rw [hf, hx']; rfl)
    have hy : g.Steps 1 ⟨block, [i.rename (ρ block)], store₁⟩ y₁ := .one (by rw [hgo store₁ hrun, hy₁]; rfl)
    refine ⟨(moves block).length + m, x', y', hx, ?_, hrel⟩
    rw [Nat.add_right_comm]
    exact ((steps_copies g block _ hrun).trans hy).trans hm
  cases i with
  | jump c =>
    exact .inr (hedge c (by rw [htargets]; simp [Instr.successors]) (by simp only [Func.step]; rfl)
      fun store₁ _ => by simp only [Instr.rename, Func.step]; rfl)
  | branch v t e =>
    obtain ⟨w, hw⟩ := hdef v (by simp [Instr.operands])
    refine .inr (hedge (if w != 0 then t else e) ?_ ?_ fun store₁ hrun => ?_)
    · rw [htargets]
      split_ifs <;> simp [Instr.successors]
    · simp only [Func.step, Store.read_eq_ok hw]
      rfl
    · obtain ⟨w₁, hw₁⟩ := Copies.run_defined v.id hrun
        ⟨w, (hagree v (by simp [Instr.operands])).trans hw⟩
      have hsame : (if w₁ != 0 then ρ block t else ρ block e) = ρ block (if w != 0 then t else e) := by
        cases hmoves : moves block with
        | nil =>
          rw [hmoves] at hrun
          obtain rfl := Option.some.inj hrun
          rw [hagree v (by simp [Instr.operands]), hw] at hw₁
          rw [← Option.some.inj hw₁]
          split_ifs <;> rfl
        | cons k ks =>
          obtain ⟨c, hc⟩ := hg.moves_ne (hmoves ▸ List.cons_ne_nil k ks)
          have honly : ∀ d ∈ f.targets block, d = c := fun d hd => by
            have := hr.linked.mem_succs.mpr hd
            rwa [hc, List.mem_singleton] at this
          rw [htargets] at honly
          rw [honly t (by simp [Instr.successors]), honly e (by simp [Instr.successors])]
          simp
      simp only [Instr.rename, Func.step, Store.read_eq_ok hw₁, bind, Except.bind, hsame]
      rfl
  | ret v =>
    obtain ⟨w, hw⟩ := hdef v (by simp [Instr.operands])
    have hnil : moves block = [] := by
      by_contra hne
      obtain ⟨c, hc⟩ := hg.moves_ne hne
      have hmem := hr.linked.mem_succs.mp (hc ▸ List.mem_singleton_self c)
      rw [htargets] at hmem
      cases hmem
    rw [hnil]
    refine .inl ⟨.ok w, ⟨0, _, .refl _, _, _, rfl, .inl ⟨w, ?_, rfl⟩⟩, 0, _, .refl _, _, _, rfl, .inl ⟨w, ?_, rfl⟩⟩
    · simp only [Func.step, Store.read_eq_ok hw]
      rfl
    · have hw' := (hagree v (by simp [Instr.operands])).trans hw
      simp only [Instr.rename, Func.step, Store.read_eq_ok hw']
      rfl
  | _ => cases hi

include hs hn in
/-- Two related runs stop with the same result or go on to related places. -/
theorem Related.step (h : Related f g moves ρ x y) :
    (∃ r, Halts f x (ofResult r) ∧ Halts g y (ofResult r)) ∨
      ∃ n m x' y', f.Steps (n + 1) x x' ∧ g.Steps (m + 1) y y' ∧ Related f g moves ρ x' y' := by
  obtain ⟨b, code, store⟩ := x
  obtain ⟨l, done, hpath⟩ := h.onPath
  cases code with
  | nil => exact absurd rfl h.rest
  | cons i rest =>
    by_cases hrest : rest = []
    · subst hrest
      rcases h.leave hr hs hn hg with hend | ⟨m, x', y', hx, hy, hrel⟩
      · exact .inl hend
      · exact .inr ⟨0, m, x', y', hx, hy, hrel⟩
    · rcases h.inside hr hs hrest with hend | ⟨x', y', hx, hy, hrel⟩
      · exact .inl hend
      · exact .inr ⟨0, 0, x', y', hx, hy, hrel⟩

/-- Both runs begin at the start. -/
theorem related_start :
    ∃ x y, f.enter none f.start (.undefined f.valueCount) = .ok x ∧
      g.enter none g.start (.undefined g.valueCount) = .ok y ∧ Related f g moves ρ x y := by
  have hstart : g.start = f.start := congrArg (fun h => h.2.2.2) hg.head
  have hbody := Func.body_of_noPhis hr.phis_start
  refine ⟨⟨f.start, f.code f.start, .undefined f.valueCount⟩,
    ⟨f.start, g.code f.start, .undefined g.valueCount⟩,
    Func.enter_of_noPhis hr.start_lt hr.phis_start none _, ?_,
    ⟨[], [], .start, rfl, hr.phis_start, ?_⟩, rfl, ?_, ?_, ?_⟩
  · rw [hstart]
    exact Func.enter_of_noPhis (Nat.lt_of_lt_of_le hr.start_lt hg.size_le) (noPhis hr hg _) none _
  · rintro id (hid | ⟨a, ha, -⟩)
    · cases hid
    · cases ha
  · exact hbody ▸ hg.code hr.start_lt
  · exact hbody ▸ body_ne_nil hr .start
  · intro id _
    rw [Store.get?_undefined, Store.get?_undefined]

end TwoRuns

/-- Taking the phis out of a graph in which no path comes to a use before a
definition leaves the results as they are. -/
theorem removePhis_runs {f : Func} (hr : f.Regular) (hs : f.Strict)
    (hn : ∀ b, (definedIds (f.phis b)).Nodup) :
    ∃ g moves ρ, f.removePhis = .ok (g, f.phiCount) ∧ Removed f g moves ρ ∧
      ∃ x y, f.enter none f.start (.undefined f.valueCount) = .ok x ∧
        g.enter none g.start (.undefined g.valueCount) = .ok y ∧
        ((∃ r, Halts f x (ofResult r) ∧ Halts g y (ofResult r)) ∨
          (∀ n, ∃ m x', n < m ∧ f.Steps m x x') ∧ ∀ n, ∃ m y', n < m ∧ g.Steps m y y') := by
  obtain ⟨g, moves, ρ, heq, hg⟩ := removePhis_shape hr hn
  obtain ⟨x, y, hx, hy, hrel⟩ := related_start hr hg
  exact ⟨g, moves, ρ, heq, hg, x, y, hx, hy,
    lockstep (H := fun x r => Halts f x (ofResult r)) (K := fun y r => Halts g y (ofResult r))
      Func.Steps.trans .refl Func.Steps.trans .refl Halts.prepend Halts.prepend
      (fun _ _ h => h.step hr hs hn hg) hrel⟩

/-- The entries of a phi. -/
def Instr.entries : Instr → List (Value × BlockId)
  | .phi _ entries => entries
  | _ => []

end Chordal.Ssa
