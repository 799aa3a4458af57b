/-
# Runs along the edges of a builder

A run of a finished graph is where the builder was (`Here`) if it is at the place
in the block where the builder wrote next, and the values that hold variables
there hold what the variables hold in the source. It arrives at a block that was
not begun (`Arrives`) if it is about to take one of the edges that waited for it.
A run that arrives at a block is there one step later, where the builder began it.

Key definitions: `Consistent`, `Here`, `Arrives`, `Reach`.
Key theorems: `Arrives.enter`, `Here.jump`, `Here.branch`.
-/
import Mathlib
import Chordal.Proofs.Ssa.Lowering
import Chordal.Proofs.Ssa.Steps
import Chordal.Proofs.Typed.Meaning

namespace Chordal.Ssa

open Typed (Vars)

/-- Every variable that is bound holds what the value it is bound to holds. -/
def Consistent (bindings : Bindings) (σ : Vars) (store : Store) : Prop :=
  ∀ j v, bindings.get? j = some v → ∃ w, σ j = some w ∧ store.get? v.id = some w

variable {σ : Vars} {s x sN : Builder} {phis : List Instr} {l : LoopBlocks} {pre : BlockId}
  {guard : Value} {symbols : IdSet} {y : State}

theorem Consistent.keeps {bindings : Bindings} {store store' : Store} {bound : Nat}
    (h : Consistent bindings σ store) (hb : ∀ j v, bindings.get? j = some v → v.id < bound)
    (hk : Store.Keeps bound store store') : Consistent bindings σ store' := by
  intro j v hv
  obtain ⟨w, hw, hget⟩ := h j v hv
  exact ⟨w, hw, by rw [hk _ (hb j v hv), hget]⟩

/-- The run is where the builder was. -/
structure Here (F : Func) (s : Builder) (σ : Vars) (x : State) : Prop where
  current : s.current = some x.block
  code : x.code = (F.code x.block).drop (s.code x.block).length
  vars : Consistent s.bindings σ x.store

/-- The run is about to take an edge that waits for the block `b`. -/
def Arrives (F : Func) (s : Builder) (b : BlockId) (σ : Vars) (x : State) : Prop :=
  ∃ e ∈ s.edgesTo b, F.AtEdge x e.source b ∧ Consistent e.bindings σ x.store

theorem Arrives.mono {F : Func} {s' : Builder} {b : BlockId} {x : State} (h : Arrives F s b σ x)
    (he : ∀ e ∈ s.edgesTo b, e ∈ s'.edgesTo b) : Arrives F s' b σ x := by
  obtain ⟨e, hmem, h⟩ := h
  exact ⟨e, he e hmem, h⟩

/-- The run gets to a state with the property, and the values below `bound` stay. -/
def Reach (F : Func) (bound : Nat) (x : State) (P : State → Prop) : Prop :=
  ∃ n x', F.Steps n x x' ∧ Store.Keeps bound x.store x'.store ∧ P x'

section Reach

variable {F : Func} {bound : Nat} {x : State} {P Q : State → Prop}

theorem Reach.refl (h : P x) : Reach F bound x P := ⟨0, x, .refl x, .refl _ _, h⟩

theorem Reach.bind {bound' : Nat} (h : Reach F bound x P)
    (hle : bound ≤ bound') (hPQ : ∀ y, P y → Reach F bound' y Q) : Reach F bound x Q := by
  obtain ⟨n, y, hn, hk, hy⟩ := h
  obtain ⟨m, z, hm, hk', hz⟩ := hPQ y hy
  exact ⟨n + m, z, hn.trans hm, hk.trans hk' hle, hz⟩

theorem Reach.mono {bound' : Nat} (h : Reach F bound' x P) (hle : bound ≤ bound') : Reach F bound x P := by
  obtain ⟨n, y, hn, hk, hy⟩ := h
  exact ⟨n, y, hn, hk.mono hle, hy⟩

end Reach

/-! ### Taking an edge -/

/-- Taking an edge to a block reads its phis, in the store there was. -/
theorem enter_phis {F : Func} {a b : BlockId} {x : State} {bound : Nat} (hb : b < F.blocks.size)
    (hw : Widened phis ((F.code b).takeWhile Instr.isPhi))
    (hids : ((phis.filterMap Instr.target?).map Value.id).Nodup)
    (hge : ∀ t ∈ phis.filterMap Instr.target?, bound ≤ t.id)
    (hread : ∀ i ∈ phis, ∃ t es p w, i = .phi t es ∧
      es.find? (fun e => some e.2 == some a) = some p ∧ x.store.get? p.1.id = some w)
    (hx : F.AtEdge x a b) :
    ∃ x', F.Steps 1 x x' ∧ Store.Keeps bound x.store x'.store ∧ x'.block = b ∧
      x'.code = (F.code b).dropWhile Instr.isPhi ∧
      ∀ t es, .phi t es ∈ phis → ∃ p w, es.find? (fun e => some e.2 == some a) = some p ∧
        x.store.get? p.1.id = some w ∧ x'.store.get? t.id = some w := by
  obtain ⟨blk, hblk, hcode⟩ := Func.exists_block hb
  obtain ⟨l, hl, hmap, hmem⟩ := readPhis_eq_ok (F.label b) hw hread
  have hnodup : (l.map fun q => q.1.id).Nodup := by
    rw [← hmap, List.map_map] at hids
    exact hids
  have henter : F.enter (some a) b x.store =
      .ok ⟨b, (F.code b).dropWhile Instr.isPhi, x.store.writeAll l⟩ := by
    unfold Func.enter
    rw [hblk]
    simp only [Block.phis, Block.body, ← hcode, hl]
    rfl
  refine ⟨_, hx.steps henter, fun id hid => ?_, rfl, rfl, fun t es ht => ?_⟩
  · refine Store.get?_writeAll_of_notMem l x.store id fun p hp heq => ?_
    have : p.1 ∈ phis.filterMap Instr.target? := by
      rw [← hmap]
      exact List.mem_map.mpr ⟨p, hp, rfl⟩
    have := hge _ this
    omega
  · obtain ⟨p, w, hfind, hget, hin⟩ := hmem t es ht
    exact ⟨p, w, hfind, hget, Store.get?_writeAll_of_mem l x.store (t, w) hnodup hin⟩

namespace Builder

/-- What the phis and bindings of a block say along one of its edges. -/
theorem entry_edge {s : Builder} {b : BlockId} (hs : s.Good) {e : Edge} (he : e ∈ s.edgesTo b) :
    (∀ i ∈ (s.entry b).1, ∃ t es p j, i = .phi t es ∧
      es.find? (fun q => some q.2 == some e.source) = some p ∧ e.bindings.get? j = some p.1) ∧
    (∀ j v, (s.entry b).2.1.get? j = some v → e.bindings.get? j = some v ∨
      ∃ es p, .phi v es ∈ (s.entry b).1 ∧ es.find? (fun q => some q.2 == some e.source) = some p ∧
        e.bindings.get? j = some p.1) ∧
    ∃ k, (s.entry b).2.2 = s.count + k ∧
      ((s.entry b).1.filterMap Instr.target?).map Value.id = List.range' s.count k := by
  match h : s.edgesTo b with
  | [] =>
    rw [h] at he
    cases he
  | [e₁] =>
    rw [h] at he
    obtain rfl := List.mem_singleton.mp he
    rw [entry, h]
    exact ⟨by simp, fun j v hv => Or.inl hv, 0, rfl, rfl⟩
  | e₁ :: e₂ :: rest =>
    have hent : s.entry b = mergeBindings (s.edgesTo b) s.count e₁.bindings := by
      unfold entry
      simp only [h]
    obtain ⟨k, hk, hids, hphis, hget⟩ := mergeBindings_facts (s.edgesTo b) e₁.bindings s.count
    rw [hent]
    refine ⟨fun i hi => ?_, fun j v hv => ?_, k, hk, hids⟩
    · obtain ⟨t, es, symbol, rfl, hes⟩ := hphis i hi
      obtain ⟨v, hv, hfind⟩ := find?_edgeEntries hes (hs.distinct b) e he
      exact ⟨t, es, (v, e.source), symbol, rfl, hfind, hv⟩
    · rcases hget j v hv with hall | ⟨es, hes, hmem⟩
      · exact Or.inl (hall e he)
      · obtain ⟨w, hw, hfind⟩ := find?_edgeEntries hes (hs.distinct b) e he
        exact Or.inr ⟨es, (w, e.source), hmem, hfind, hw⟩

end Builder

open Builder

section Enter

variable {s s' sN : Builder} {b : BlockId} {σ : Vars} {x : State} {e : Edge}

/-- A run that takes an edge to a block is one step later where the builder began
the block, with the phis that its bindings need and perhaps more phis. -/
theorem enter_edge (extra : List Instr) (hs : s.Good) (he : e ∈ s.edgesTo b)
    (hedge : sN.func.AtEdge x e.source b) (hvars : Consistent e.bindings σ x.store)
    (hg : Grows s' sN) (hcur : s'.current = some b) (hlt : b < s'.size)
    (hcode : s'.code b = (s.entry b).1 ++ extra) (hbind : s'.bindings = (s.entry b).2.1)
    (hids : (extra.filterMap Instr.target?).map Value.id = List.range' (s.entry b).2.2 extra.length)
    (hextra : ∀ i ∈ extra, ∃ t es p w, i = .phi t es ∧
      es.find? (fun q => some q.2 == some e.source) = some p ∧ x.store.get? p.1.id = some w) :
    ∃ x', sN.func.Steps 1 x x' ∧ Store.Keeps s.count x.store x'.store ∧ Here sN.func s' σ x' ∧
      ∀ t es, .phi t es ∈ extra → ∃ p w, es.find? (fun q => some q.2 == some e.source) = some p ∧
        x.store.get? p.1.id = some w ∧ x'.store.get? t.id = some w := by
  obtain ⟨hphis, hmerged, k, hk, hids₀⟩ := entry_edge hs he
  have hall : ∀ i ∈ (s.entry b).1 ++ extra, i.isPhi = true := by
    intro i hi
    rcases List.mem_append.mp hi with hi | hi
    · exact (entry_facts hs b).1 i hi
    · obtain ⟨t, es, p, w, rfl, -⟩ := hextra i hi
      rfl
  obtain ⟨d, hw, htake, hdrop⟩ := hg.phis_eq hcur hcode hall
  have hread : ∀ i ∈ (s.entry b).1 ++ extra, ∃ t es p w, i = .phi t es ∧
      es.find? (fun q => some q.2 == some e.source) = some p ∧ x.store.get? p.1.id = some w := by
    intro i hi
    rcases List.mem_append.mp hi with hi | hi
    · obtain ⟨t, es, p, j, hi, hfind, hj⟩ := hphis i hi
      obtain ⟨w, -, hw⟩ := hvars j p.1 hj
      exact ⟨t, es, p, w, hi, hfind, hw⟩
    · exact hextra i hi
  have hrange : (((s.entry b).1 ++ extra).filterMap Instr.target?).map Value.id =
      List.range' s.count (k + extra.length) := by
    rw [List.filterMap_append, List.map_append, hids₀, hids, hk]
    simp
  have hge : ∀ t ∈ ((s.entry b).1 ++ extra).filterMap Instr.target?, s.count ≤ t.id := by
    intro t ht
    have : t.id ∈ List.range' s.count (k + extra.length) := hrange ▸ List.mem_map_of_mem ht
    exact (List.mem_range'_1.mp this).1
  obtain ⟨x', hstep, hkeep, rfl, hxcode, hget⟩ := enter_phis (hlt.trans_le hg.size_le) (htake ▸ hw)
    (by rw [hrange]; exact List.nodup_range') hge hread hedge
  refine ⟨x', hstep, hkeep, ⟨hcur, ?_, fun j v hv => ?_⟩,
    fun t es ht => hget t es (List.mem_append_right _ ht)⟩
  · rw [hxcode, hcode]
    exact hdrop
  · rw [hbind] at hv
    rcases hmerged j v hv with hj | ⟨es, p, hmem, hfind, hj⟩
    · obtain ⟨w, hw, hst⟩ := hvars j v hj
      exact ⟨w, hw, by rw [hkeep _ (hs.carried e (mem_edgesTo.mp he).1 j v hj), hst]⟩
    · obtain ⟨w, hw, hst⟩ := hvars j p.1 hj
      obtain ⟨p', w', hfind', hst', hx'⟩ := hget v es (List.mem_append_left _ hmem)
      rw [hfind] at hfind'
      cases hfind'
      rw [hst] at hst'
      cases hst'
      exact ⟨w, hw, hx'⟩

/-- A run that arrives at a block is there one step later, where the builder
began the block. -/
theorem Arrives.enter (hs : s.Good) (hb : s.Unbegun b) (hg : Grows (s.enter b) sN)
    (hx : Arrives sN.func s b σ x) :
    ∃ x', sN.func.Steps 1 x x' ∧ Store.Keeps s.count x.store x'.store ∧
      Here sN.func (s.enter b) σ x' := by
  obtain ⟨e, he, hedge, hvars⟩ := hx
  obtain ⟨x', hstep, hkeep, hhere, -⟩ := enter_edge [] hs he hedge hvars hg
    (by rw [current_enter, if_neg (List.ne_nil_of_mem he)]) (by rw [size_enter]; exact hb.lt)
    (by rw [code_enter hb, if_pos rfl, List.append_nil]) (bindings_enter s b) rfl (by simp)
  exact ⟨x', hstep, hkeep, hhere⟩

/-- Where a conditional expression ends, its phi has the value of the arm that
control comes from. -/
theorem enterPhi_edge {ty : Ty} {entries : List (Value × BlockId)} {p : Value × BlockId} {w : Word}
    (hs : s.Good) (hb : s.Unbegun b) (hg : Grows (s.enterPhi b ty entries) sN)
    (he : e ∈ s.edgesTo b) (hedge : sN.func.AtEdge x e.source b)
    (hvars : Consistent e.bindings σ x.store)
    (hfind : entries.find? (fun q => some q.2 == some e.source) = some p)
    (hw : x.store.get? p.1.id = some w) :
    ∃ x', sN.func.Steps 1 x x' ∧ Store.Keeps s.count x.store x'.store ∧
      Here sN.func (s.enterPhi b ty entries) σ x' ∧
      x'.store.get? (s.enter b).count = some w := by
  obtain ⟨x', hstep, hkeep, hhere, hget⟩ :=
    enter_edge [.phi ⟨(s.enter b).count, ty⟩ entries] hs he hedge hvars hg
      (by rw [current_enterPhi, current_enter, if_neg (List.ne_nil_of_mem he)])
      (by rw [size_enterPhi]; exact hb.lt) (by rw [code_enterPhi ty entries hs hb, if_pos rfl])
      ((bindings_enterPhi ty entries s b).trans (bindings_enter s b))
      (by rw [count_enter]; rfl) (by
        intro i hi
        rw [List.mem_singleton.mp hi]
        exact ⟨_, entries, p, w, rfl, hfind, hw⟩)
  obtain ⟨p', w', hfind', hw', hx'⟩ := hget _ _ (List.mem_singleton_self _)
  rw [hfind] at hfind'
  cases hfind'
  rw [hw] at hw'
  cases hw'
  exact ⟨x', hstep, hkeep, hhere, hx'⟩

end Enter

/-! ### Leaving a block -/

section Leave

variable {s sN : Builder} {a b : BlockId} {σ : Vars} {x : State}

/-- The instruction that was written next is the one the run is at. -/
theorem Here.fetch {s' : Builder} {i : Instr} (hx : Here sN.func s σ x) (hcur : s.current = some a)
    (hg : Grows s' sN) (hcode : s'.code a = s.code a ++ [i]) (hi : i.isPhi = false) :
    x = ⟨a, i :: (sN.func.code a).drop (s'.code a).length, x.store⟩ := by
  obtain ⟨block, code, store⟩ := x
  obtain ⟨hblock, hxcode, -⟩ := hx
  obtain rfl : a = block := Option.some.inj (hcur.symm.trans hblock)
  have hfetch := hg.fetch hcode hi
  simp only at hxcode ⊢
  rw [hxcode, hcode, List.length_append, List.length_singleton, hfetch]

theorem Here.atEdge_jump (hs : s.Good) (hx : Here sN.func s σ x) (hg : Grows (s.jump b) sN) :
    sN.func.AtEdge x x.block b := by
  have hcur := hx.current
  have hcode : (s.jump b).code x.block = s.code x.block ++ [.jump b] := by
    rw [jump_eq hcur, code_recordEdge, code_close hs hcur, if_pos rfl]
  refine ⟨rfl, .jump b, _, congrArg State.code (hx.fetch hcur hg hcode rfl), ?_⟩
  rw [Func.step]
  cases sN.func.enter (some x.block) b x.store <;> rfl

theorem Here.mem_exitEdge (hx : Here sN.func s σ x) : ⟨x.block, b, s.bindings⟩ ∈ s.exitEdge b := by
  unfold exitEdge
  rw [hx.current]
  exact List.mem_singleton_self _

theorem Here.jump (hs : s.Good) (hx : Here sN.func s σ x) (hg : Grows (s.jump b) sN) :
    Arrives sN.func (s.jump b) b σ x := by
  refine ⟨⟨x.block, b, s.bindings⟩, ?_, hx.atEdge_jump hs hg, hx.vars⟩
  rw [edgesTo_jump_self]
  exact List.mem_append_right _ hx.mem_exitEdge

/-- A branch leaves for the block that its condition says. -/
theorem Here.atEdge_branch {s' : Builder} {v : Value} {w : Word} {b' : BlockId}
    (hx : Here sN.func s σ x) (hcur : s.current = some a) (hg : Grows s' sN)
    (hcode : s'.code a = s.code a ++ [.branch v b b']) (hw : x.store.get? v.id = some w) :
    sN.func.AtEdge x a (if w != 0 then b else b') := by
  have hfetch := hx.fetch hcur hg hcode rfl
  refine ⟨congrArg State.block hfetch, .branch v b b', _, congrArg State.code hfetch, ?_⟩
  rw [Func.step, Store.read_eq_ok hw]
  change (sN.func.enter (some a) (if w != 0 then b else b') x.store >>= fun y => pure (Next.state y)) = _
  cases sN.func.enter (some a) (if w != 0 then b else b') x.store <;> rfl

end Leave

/-! ### The head of a loop -/

namespace Builder

theorem map_id_headerTargets : ∀ (carried : List (Nat × Value)) (fresh : Nat),
    ((headerTargets fresh carried).map Prod.snd).map Value.id = List.range' fresh carried.length
  | [], _ => rfl
  | (_, _) :: rest, fresh => by
    rw [headerTargets, List.map_cons, List.map_cons, map_id_headerTargets rest, List.length_cons,
      List.range'_succ]

theorem map_fst_headerTargets : ∀ (carried : List (Nat × Value)) (fresh : Nat),
    (headerTargets fresh carried).map Prod.fst = carried.map Prod.fst
  | [], _ => rfl
  | (_, _) :: rest, fresh => by
    rw [headerTargets, List.map_cons, List.map_cons, map_fst_headerTargets rest]

/-- The phi of each carried variable has the entry of the block before the loop. -/
theorem forall₂_headerPhis (pre : BlockId) : ∀ (carried : List (Nat × Value)) (fresh : Nat),
    List.Forall₂ (fun p i => ∃ v, (p.1, v) ∈ carried ∧ i = .phi p.2 [(v, pre)])
      (headerTargets fresh carried) (headerPhis pre fresh carried)
  | [], _ => .nil
  | (_, v) :: rest, fresh => by
    refine .cons ⟨v, List.mem_cons_self, rfl⟩ ((forall₂_headerPhis pre rest (fresh + 1)).imp ?_)
    rintro p i ⟨w, hw, rfl⟩
    exact ⟨w, List.mem_cons_of_mem _ hw, rfl⟩

/-- The phi of each carried variable has the entries of the block before the loop
and of the block at its end. -/
theorem forall₂_closedPhis (pre latch : BlockId) (bindings : Bindings) :
    ∀ (carried : List (Nat × Value)) (fresh : Nat),
      List.Forall₂ (fun p i => ∃ v, (p.1, v) ∈ carried ∧
          i = .phi p.2 [(v, pre), ((bindings.get? p.1).getD v, latch)])
        (headerTargets fresh carried) (closedPhis pre latch bindings fresh carried)
  | [], _ => .nil
  | (_, v) :: rest, fresh => by
    refine .cons ⟨v, List.mem_cons_self, rfl⟩
      ((forall₂_closedPhis pre latch bindings rest (fresh + 1)).imp ?_)
    rintro p i ⟨w, hw, rfl⟩
    exact ⟨w, List.mem_cons_of_mem _ hw, rfl⟩

theorem mem_carried {s : Builder} {symbols : IdSet} {p : Nat × Value} (h : p ∈ s.carried symbols) :
    s.bindings.get? p.1 = some p.2 ∧ p.1 ∈ symbols := by
  obtain ⟨j, hj, hp⟩ := List.mem_filterMap.mp h
  obtain ⟨v, hv, rfl⟩ := Option.map_eq_some_iff.mp hp
  exact ⟨hv, hj⟩

theorem mem_carried_of_bound {s : Builder} {symbols : IdSet} {j : Nat} {v : Value}
    (hv : s.bindings.get? j = some v) (hj : j ∈ symbols) : (j, v) ∈ s.carried symbols :=
  List.mem_filterMap.mpr ⟨j, hj, by rw [hv]; rfl⟩

end Builder

theorem forall₂_targets {targets : List (Nat × Value)}
    {R : Nat × Value → List (Value × BlockId) → Prop}
    (h : List.Forall₂ (fun p i => ∃ es, i = .phi p.2 es ∧ R p es) targets phis) :
    phis.filterMap Instr.target? = targets.map Prod.snd := by
  induction h with
  | nil => rfl
  | cons hp _ ih =>
    obtain ⟨es, rfl, -⟩ := hp
    rw [List.map_cons, ← ih]
    rfl

section

variable (hs : s.Good) (ho : Opened s l pre guard symbols x) (hg : Grows x sN)

include hs ho hg

/-- A run that enters the body of a loop is one step later where the builder
began the body, whichever edge it takes: the phis give the carried variables
what they hold, and the others are where they were. -/
theorem enter_head {a : BlockId} (hw : Widened phis ((sN.code l.body).takeWhile Instr.isPhi))
    (hedge : sN.func.AtEdge y a l.body)
    (hphis : List.Forall₂ (fun p i => ∃ es, i = .phi p.2 es ∧ ∃ q w,
        es.find? (fun e => some e.2 == some a) = some q ∧ y.store.get? q.1.id = some w ∧ σ p.1 = some w)
      (headerTargets s.count (s.carried symbols)) phis)
    (hframe : ∀ j v, s.bindings.get? j = some v → j ∉ symbols →
      ∃ w, σ j = some w ∧ y.store.get? v.id = some w) :
    ∃ y', sN.func.Steps 1 y y' ∧ Store.Keeps s.count y.store y'.store ∧ Here sN.func x σ y' := by
  have htargets := forall₂_targets hphis
  have hrange : (phis.filterMap Instr.target?).map Value.id =
      List.range' s.count (s.carried symbols).length := by
    rw [htargets, map_id_headerTargets]
  obtain ⟨d, hd, htake, hdrop⟩ := hg.phis_eq ho.current ho.phis (headerPhis_isPhi _ _ _)
  have hlt : l.body < sN.func.blocks.size := (ho.good.current _ ho.current).1.trans_le hg.size_le
  have hge : ∀ t ∈ phis.filterMap Instr.target?, s.count ≤ t.id := fun t ht => by
    have : t.id ∈ List.range' s.count (s.carried symbols).length := hrange ▸ List.mem_map_of_mem ht
    exact (List.mem_range'_1.mp this).1
  have hread : ∀ i ∈ phis, ∃ t es q w, i = .phi t es ∧
      es.find? (fun e => some e.2 == some a) = some q ∧ y.store.get? q.1.id = some w := fun i hi => by
    obtain ⟨p, -, es, rfl, q, w, hfind, hst, -⟩ := forall₂_mem_right hphis i hi
    exact ⟨p.2, es, q, w, rfl, hfind, hst⟩
  obtain ⟨y', hstep, hkeep, hblock, hcode, hget⟩ :=
    enter_phis hlt hw (by rw [hrange]; exact List.nodup_range') hge hread hedge
  refine ⟨y', hstep, hkeep, by rw [ho.current, hblock], ?_, fun j v hv => ?_⟩
  · rw [hcode, hblock, ho.phis]
    exact hdrop
  · rw [ho.bindings] at hv
    rcases get?_rebind _ _ j v hv with hmem | ⟨hv, hnot⟩
    · obtain ⟨i, hi, es, rfl, q, w, hfind, hst, hσ⟩ := forall₂_mem_right hphis.flip _ hmem
      obtain ⟨q', w', hfind', hst', hy'⟩ := hget v es hi
      rw [hfind] at hfind'
      cases hfind'
      rw [hst] at hst'
      cases hst'
      exact ⟨w, hσ, hy'⟩
    · obtain ⟨w, hσ, hst⟩ := hframe j v hv fun hj => by
        rw [map_fst_headerTargets] at hnot
        exact hnot (List.mem_map.mpr ⟨_, mem_carried_of_bound hv hj, rfl⟩)
      exact ⟨w, hσ, by rw [hkeep _ (hs.bindings j v hv), hst]⟩

/-- The body of a loop is entered from the block before it. -/
theorem enter_head_first (hedge : sN.func.AtEdge y pre l.body)
    (hvars : Consistent s.bindings σ y.store) :
    ∃ y', sN.func.Steps 1 y y' ∧ Store.Keeps s.count y.store y'.store ∧ Here sN.func x σ y' := by
  obtain ⟨d, hd, htake, -⟩ := hg.phis_eq ho.current ho.phis (headerPhis_isPhi _ _ _)
  refine enter_head hs ho hg (htake ▸ hd) hedge
    ((forall₂_headerPhis pre (s.carried symbols) s.count).imp ?_) fun j v hv _ => hvars j v hv
  rintro p i ⟨v, hv, rfl⟩
  obtain ⟨w, hσ, hst⟩ := hvars p.1 v (mem_carried hv).1
  exact ⟨_, rfl, (v, pre), w, by simp, hst, hσ⟩

/-- The body of a loop is entered again from the block at its end. -/
theorem enter_head_again {z z' : Builder} {latch : BlockId} (hc : Closed s l pre latch symbols z z')
    (hg' : Grows z' sN) (hne : pre ≠ latch) (hedge : sN.func.AtEdge y latch l.body)
    (hvars : Consistent z.bindings σ y.store)
    (hframe : ∀ j v, s.bindings.get? j = some v → j ∉ symbols →
      ∃ w, σ j = some w ∧ y.store.get? v.id = some w) :
    ∃ y', sN.func.Steps 1 y y' ∧ Store.Keeps s.count y.store y'.store ∧ Here sN.func x σ y' := by
  have hw : Widened (closedPhis pre latch z.bindings s.count (s.carried symbols))
      ((sN.code l.body).takeWhile Instr.isPhi) := by
    obtain ⟨d, hd, htake, -⟩ := hg.phis_eq ho.current ho.phis (headerPhis_isPhi _ _ _)
    -- both lists are as long as the list of carried variables
    obtain ⟨e, tail, heq, he, -, -⟩ := hg'.code l.body
    obtain ⟨rest, hrest⟩ := hc.phis
    rw [← hrest] at he
    obtain ⟨e₁, e₂, rfl, h₁, -⟩ := he.split
    have hlen : d.length = e₁.length := by
      rw [← hd.length_eq, ← h₁.length_eq]
      exact ((widened_closedPhis pre latch z.bindings _ _).length_eq)
    have hpre : d <+: sN.code l.body := htake ▸ List.takeWhile_prefix _
    have hpre' : e₁ <+: sN.code l.body := ⟨e₂ ++ tail, by rw [← List.append_assoc]; exact heq.symm⟩
    rw [htake, (List.prefix_of_prefix_length_le hpre hpre' hlen.le).eq_of_length hlen]
    exact h₁
  refine enter_head hs ho hg hw hedge
    ((forall₂_closedPhis pre latch z.bindings (s.carried symbols) s.count).imp ?_) hframe
  rintro p i ⟨v, hv, rfl⟩
  obtain ⟨u, hu⟩ := hc.bound _ hv
  obtain ⟨w, hσ, hst⟩ := hvars p.1 u hu
  refine ⟨_, rfl, (u, latch), w, ?_, hst, hσ⟩
  rw [hu, Option.getD_some, List.find?_cons_of_neg (by simpa using hne)]
  simp

end

end Chordal.Ssa
