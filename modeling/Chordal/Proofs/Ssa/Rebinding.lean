/-
# What statements bind anew

Building statements binds anew only the variables that `assigned` reports of them.
Where control goes on behind them, and on every edge that they make to the targets of
the loop around them, a variable that was bound before is bound, and to the same value
if the statements do not assign it.

The proof follows the builder from stage to stage. `Rebinds` says of a builder what has
become of the bindings since a piece began, and which of the piece's own blocks still
wait to be begun. Each operation of the builder keeps it, a block that is begun drops
out of the list of those that wait, and at the end of a piece none is left.

Key definitions: `Bindings.Keeps`, `Builder.Rebinds`, `Builder.Started`.
Key theorems: `Bindings.Keeps.enter`, `Builder.Rebinds.enter`, `Builder.Rebinds.closeLoop`,
`Builder.lowerStmts_rebinds`.
-/
import Mathlib
import Chordal.Proofs.Ssa.Conditionals
import Chordal.Proofs.Ssa.Progress

namespace Chordal.Ssa

open Typed (Expr Stmt)

/-! ### Bindings that are kept -/

/-- All that `m` binds is bound in `m'`, and what is not in `A` to the same value. -/
def Bindings.Keeps (A : IdSet) (m m' : Bindings) : Prop :=
  ∀ j v, m.get? j = some v → (∃ w, m'.get? j = some w) ∧ (j ∉ A → m'.get? j = some v)

namespace Bindings.Keeps

variable {A B : IdSet} {m m' m'' : Bindings}

theorem refl (A : IdSet) (m : Bindings) : Keeps A m m := fun _ v hv => ⟨⟨v, hv⟩, fun _ => hv⟩

theorem mono (h : Keeps A m m') (hsub : ∀ j ∈ A, j ∈ B) : Keeps B m m' := fun j v hv =>
  ⟨(h j v hv).1, fun hj => (h j v hv).2 fun hjA => hj (hsub j hjA)⟩

theorem trans (h : Keeps A m m') (h' : Keeps A m' m'') : Keeps A m m'' := by
  intro j v hv
  obtain ⟨⟨w, hw⟩, hsame⟩ := h j v hv
  exact ⟨(h' j w hw).1, fun hj => (h' j v (hsame hj)).2 hj⟩

/-- Variables in `A` may be bound anew. -/
theorem rebind {held : List (Nat × Value)} (hheld : ∀ p ∈ held, p.1 ∈ A) : Keeps A m (Builder.rebind m held) := by
  intro j v hv
  refine ⟨Bindings.subset_dom_rebind held m ⟨v, hv⟩, fun hj => ?_⟩
  rw [Builder.get?_rebind_of_notMem held m, hv]
  intro hmem
  obtain ⟨p, hp, rfl⟩ := List.mem_map.mp hmem
  exact hj (hheld p hp)

theorem insert {j : Nat} (hj : j ∈ A) (v : Value) : Keeps A m (m.insert j v) := by
  have hheld : ∀ p ∈ [(j, v)], p.1 ∈ A := fun p hp => List.mem_singleton.mp hp ▸ hj
  exact rebind hheld

/-- What all edges to a block keep is kept where it begins. -/
theorem enter {s : Builder} {b : BlockId} (h : ∀ e ∈ s.edgesTo b, Keeps A m e.bindings)
    (hcur : (s.enter b).current ≠ none) : Keeps A m (s.enter b).bindings := by
  intro j v hv
  refine ⟨?_, fun hj => ?_⟩
  · have hholds : Builder.Holds {j} (s.enter b) := .enter fun e he => by
      rintro _ rfl
      exact (h e he _ v hv).1
    exact hholds hcur rfl
  · have hsame : ∀ e ∈ s.edgesTo b, e.bindings.get? j = some v := fun e he => (h e he j v hv).2 hj
    rw [Builder.bindings_enter, Builder.entry]
    rcases hedges : s.edgesTo b with _ | ⟨e, _ | ⟨e', rest⟩⟩
    · rw [Builder.current_enter, if_pos hedges] at hcur
      exact absurd rfl hcur
    · exact hsame e (by rw [hedges]; exact List.mem_singleton_self e)
    · rw [hedges] at hsame
      exact get?_mergeBindings hsame _ _ (hsame e List.mem_cons_self)

end Bindings.Keeps

namespace Builder

open Bindings (Keeps)

-- The equations of the recursion, made once before the proofs that rewrite with them.
attribute [local simp] lowerStmt lowerStmts closeHeader assigned assignedBy

/-! ### Stages of a piece -/

/-- What has become of the builder `s`, where a piece began, in `x`. The piece assigns
variables in `A`. Edges that wait since then go to the targets of the loop around the
piece or to the blocks `ws` of the piece itself. -/
structure Rebinds (A : IdSet) (ws : List BlockId) (s x : Builder) : Prop where
  proper : x.Proper
  size_le : s.size ≤ x.size
  loops : x.loops = s.loops
  edges : ∃ new, x.pending = s.pending ++ new ∧
    ∀ e ∈ new, (s.LoopTarget e.target ∨ e.target ∈ ws) ∧ Keeps A s.bindings e.bindings
  through : x.current ≠ none → Keeps A s.bindings x.bindings
  kept : Kept (· < s.size) s x

theorem Proper.loopTarget_lt {s : Builder} (hs : s.Proper) {b : BlockId} (hb : s.LoopTarget b) : b < s.size := by
  obtain ⟨l, hl, hb⟩ := hb
  obtain ⟨h₁, h₂⟩ := hs.loops l (List.mem_of_mem_head? hl)
  rcases hb with rfl | rfl
  · exact h₁
  · exact h₂

namespace Rebinds

variable {A B : IdSet} {ws ws' : List BlockId} {s x y : Builder} {a b : BlockId} {e : Expr}

theorem refl (A : IdSet) (ws : List BlockId) (hs : s.Proper) : Rebinds A ws s s where
  proper := hs
  size_le := le_rfl
  loops := rfl
  edges := ⟨[], by simp⟩
  through _ := .refl A _
  kept := .refl _ s

theorem mono (h : Rebinds A ws s x) (hsub : ∀ j ∈ A, j ∈ B) (hw : ws ⊆ ws') : Rebinds B ws' s x where
  proper := h.proper
  size_le := h.size_le
  loops := h.loops
  edges := by
    obtain ⟨new, hnew, hall⟩ := h.edges
    exact ⟨new, hnew, fun e he => ⟨(hall e he).1.imp_right fun hmem => hw hmem, (hall e he).2.mono hsub⟩⟩
  through hcur := (h.through hcur).mono hsub
  kept := h.kept

theorem left (h : Rebinds A ws s x) (B : IdSet) : Rebinds (IdSet.union A B) ws s x :=
  h.mono IdSet.subset_union_left (List.Subset.refl ws)

theorem right (h : Rebinds B ws s x) (A : IdSet) : Rebinds (IdSet.union A B) ws s x :=
  h.mono IdSet.subset_union_right (List.Subset.refl ws)

/-- One piece after the other. -/
theorem trans (h : Rebinds A ws s x) (h' : Rebinds A ws' x y) (hx : x.current ≠ none) (hw : ws' ⊆ ws) :
    Rebinds A ws s y where
  proper := h'.proper
  size_le := h.size_le.trans h'.size_le
  loops := h'.loops.trans h.loops
  edges := by
    obtain ⟨new, hnew, hall⟩ := h.edges
    obtain ⟨new', hnew', hall'⟩ := h'.edges
    refine ⟨new ++ new', by rw [hnew', hnew, List.append_assoc], fun e he => ?_⟩
    rcases List.mem_append.mp he with he | he
    · exact hall e he
    · obtain ⟨htarget, hkeeps⟩ := hall' e he
      exact ⟨htarget.imp (loopTarget_congr h.loops) fun hmem => hw hmem, (h.through hx).trans hkeeps⟩
  through hcur := (h.through hx).trans (h'.through hcur)
  kept := h.kept.trans h'.kept fun _ hb => hb.trans_le h.size_le

/-- A change of the code, or of the bindings within `A`. -/
theorem congr (h : Rebinds A ws s x) (hy : y.Proper) (hsize : x.size ≤ y.size) (hloops : y.loops = x.loops)
    (hpend : y.pending = x.pending) (hcur : y.current = x.current) (hbind : Keeps A x.bindings y.bindings)
    (hkept : Kept (· < s.size) x y) : Rebinds A ws s y where
  proper := hy
  size_le := h.size_le.trans hsize
  loops := hloops.trans h.loops
  edges := by
    rw [hpend]
    exact h.edges
  through hne := (h.through (hcur ▸ hne)).trans hbind
  kept := h.kept.next hkept

theorem of_silent (hx : Silent e s x) : Rebinds A ws s x where
  proper := hx.proper
  size_le := hx.size_le
  loops := hx.loops
  edges := ⟨[], by rw [hx.pending, List.append_nil], fun _ he => absurd he List.not_mem_nil⟩
  through _ := hx.bindings ▸ .refl A _
  kept := hx.kept

/-- Control ends here. -/
theorem close (h : Rebinds A ws s x) (b : BlockId) (i : Instr) : Rebinds A ws s (x.close b i) where
  proper := h.proper.leave (size_close x b i).ge rfl rfl (fun _ he => Or.inl he) rfl
  size_le := h.size_le.trans (size_close x b i).ge
  loops := h.loops
  edges := h.edges
  through hne := absurd rfl hne
  kept := h.kept.next (kept_close x b i)

/-- Control leaves for a block. -/
theorem jump (h : Rebinds A ws s x) (hb : s.LoopTarget b ∨ b ∈ ws) (hlt : b < x.size) : Rebinds A ws s (x.jump b) where
  proper := h.proper.jump hlt
  size_le := by
    rw [size_jump]
    exact h.size_le
  loops := (loops_jump x b).trans h.loops
  edges := by
    obtain ⟨new, hnew, hall⟩ := h.edges
    refine ⟨new ++ x.exitEdge b, by rw [pending_jump, hnew, List.append_assoc], fun e he => ?_⟩
    rcases List.mem_append.mp he with he | he
    · exact hall e he
    · obtain ⟨c, hc, rfl⟩ := List.mem_map.mp he
      refine ⟨hb, h.through ?_⟩
      rw [Option.mem_toList.mp hc]
      exact Option.some_ne_none c
  through hne := absurd (current_jump x b) hne
  kept := h.kept.next (kept_jump x b)

/-- A block of the piece begins: it does not wait any more. -/
theorem enter (h : Rebinds A ws s x) (hs : s.Proper) (hb : s.size ≤ b) (hlt : b < x.size)
    (hw : ∀ c ∈ ws, c ≠ b → c ∈ ws') : Rebinds A ws' s (x.enter b) where
  proper := h.proper.enter hlt
  size_le := by
    rw [size_enter]
    exact h.size_le
  loops := (loops_enter x b).trans h.loops
  edges := by
    obtain ⟨new, hnew, hall⟩ := h.edges
    refine ⟨new.filter fun e => e.target != b, ?_, fun e he => ?_⟩
    · rw [pending_enter, hnew, List.filter_append, hs.targets.filter_ne hb]
    · obtain ⟨hmem, hne⟩ := List.mem_filter.mp he
      exact ⟨(hall e hmem).1.imp_right fun hw' => hw _ hw' (bne_iff_ne.mp hne), (hall e hmem).2⟩
  through hcur := by
    refine .enter (fun e he => ?_) hcur
    obtain ⟨new, hnew, hall⟩ := h.edges
    obtain ⟨hmem, htarget⟩ := mem_edgesTo.mp he
    rw [hnew] at hmem
    rcases List.mem_append.mp hmem with hmem | hmem
    · exact absurd (hs.targets e hmem) (Nat.not_lt.mpr (htarget ▸ hb))
    · exact (hall e hmem).2
  kept := h.kept.next (kept_enter x (Nat.not_lt.mpr hb))

/-- The first way of a fork. -/
theorem first (hs : s.Proper) (hcur : s.current = some a) (kinds : List String) (v : Value) (hk : 2 ≤ kinds.length) :
    Rebinds A [(s.size + 1 : Nat)] s ((s.fork kinds v).enter s.size) := by
  obtain ⟨hfirst, -⟩ := begins_first kinds v hs hcur hk
  refine ⟨hfirst.proper, ?_, hfirst.loops, ⟨_, hfirst.pending, ?_⟩, fun _ => hfirst.bindings ▸ .refl A _,
    (kept_fork hcur kinds v).next (kept_enter _ (Nat.lt_irrefl _))⟩
  · rw [size_enter, size_fork hcur]
    exact Nat.le_add_right _ _
  · intro e he
    obtain rfl := List.mem_singleton.mp he
    exact ⟨Or.inr List.mem_cons_self, .refl A _⟩

theorem size_of_first (hcur : s.current = some a) {kinds : List String} {v : Value}
    (h : Rebinds A ws ((s.fork kinds v).enter s.size) x) : s.size + kinds.length ≤ x.size := by
  have hle := h.size_le
  rwa [size_enter, size_fork hcur] at hle

/-- A way and its detour. -/
theorem detour (hs : s.Proper) (hcur : s.current = some a) {v : Value}
    (h : Rebinds A [] ((s.fork ifKinds v).enter s.size) x) :
    Rebinds A [] s ((x.jump (s.size + 1 : Nat)).enter (s.size + 1 : Nat)) := by
  obtain ⟨hfirst, -⟩ := begins_first ifKinds v hs hcur (by decide)
  have hlt : (s.size + 1 : Nat) < x.size := size_of_first hcur h
  have hx : Rebinds A [(s.size + 1 : Nat)] s x :=
    (first hs hcur ifKinds v (by decide)).trans h (by simp [hfirst.current]) (List.nil_subset _)
  refine (hx.jump (Or.inr List.mem_cons_self) hlt).enter hs (Nat.le_succ _) (by rwa [size_jump]) ?_
  intro c hc hne
  exact absurd (List.mem_singleton.mp hc) hne

/-- Control comes to the second way of a fork. -/
theorem current_second (hs : s.Proper) (hcur : s.current = some a) {kinds : List String} {v : Value}
    (hk : 2 ≤ kinds.length) (h : Rebinds A [] ((s.fork kinds v).enter s.size) x) :
    (s.secondWay x).current = some (s.size + 1 : Nat) := by
  obtain ⟨hfirst, -⟩ := begins_first kinds v hs hcur hk
  obtain ⟨new, hnew, -⟩ := h.edges
  have hmem : (⟨a, (s.size + 1 : Nat), s.bindings⟩ : Edge) ∈
      (x.jump (s.size + 2 : Nat)).edgesTo (s.size + 1 : Nat) := by
    refine mem_edgesTo.mpr ⟨?_, rfl⟩
    rw [pending_jump, hnew, hfirst.pending]
    simp
  unfold secondWay
  rw [current_enter, if_neg (List.ne_nil_of_mem hmem)]

theorem second_proper (hcur : s.current = some a) {v : Value}
    (h : Rebinds A [] ((s.fork ifElseKinds v).enter s.size) x) : (s.secondWay x).Proper := by
  have hlt : (s.size + 2 : Nat) < x.size := size_of_first hcur h
  refine (h.proper.jump hlt).enter ?_
  rw [size_jump]
  exact Nat.lt_of_succ_lt hlt

/-- Two ways that meet. -/
theorem diamond (hs : s.Proper) (hcur : s.current = some a) {v : Value}
    (h : Rebinds A [] ((s.fork ifElseKinds v).enter s.size) x) (h' : Rebinds A [] (s.secondWay x) y) :
    Rebinds A [] s ((y.jump (s.size + 2 : Nat)).enter (s.size + 2 : Nat)) := by
  obtain ⟨hfirst, -⟩ := begins_first ifElseKinds v hs hcur (by decide)
  have hlt : (s.size + 2 : Nat) < x.size := size_of_first hcur h
  have hlt' : (s.size + 2 : Nat) < y.size := hlt.trans_le ((size_secondWay s x).ge.trans h'.size_le)
  have hx : Rebinds A [(s.size + 1 : Nat), (s.size + 2 : Nat)] s x :=
    ((first hs hcur ifElseKinds v (by decide)).trans h (by simp [hfirst.current]) (List.nil_subset _)).mono
      (fun _ hj => hj) (by simp)
  have hsecond : Rebinds A [(s.size + 2 : Nat)] s (s.secondWay x) := by
    refine (hx.jump (Or.inr (by simp)) hlt).enter hs (Nat.le_succ _) ?_ ?_
    · rw [size_jump]
      exact Nat.lt_of_succ_lt hlt
    · intro c hc hne
      simpa [hne] using hc
  have hy := hsecond.trans h' (by simp [current_second hs hcur (by decide) h]) (List.nil_subset _)
  refine (hy.jump (Or.inr List.mem_cons_self) hlt').enter hs (Nat.le_add_right _ _) (by rwa [size_jump]) ?_
  intro c hc hne
  exact absurd (List.mem_singleton.mp hc) hne

end Rebinds

/-- Statements that control reaches, or that are not built. -/
theorem Rebinds.stmts {A : IdSet} {ws : List BlockId} {s x y : Builder} {stmts : List Stmt} (h : Rebinds A ws s x)
    (hy : lowerStmts stmts x = .ok y) (hx : Rebinds A [] x y) : Rebinds A ws s y := by
  cases hcur : x.current with
  | none =>
    rw [lowerStmts_of_none hcur] at hy
    exact Except.ok.inj hy ▸ h
  | some a => exact h.trans hx (by rw [hcur]; exact Option.some_ne_none a) (List.nil_subset _)

/-! ### Loops -/

/-- Control goes on from an expression. -/
theorem lowerExpr_goes (e : Expr) {s : Builder} {a : BlockId} (hs : s.Proper) (hcur : s.current = some a) (v : Value)
    (s' : Builder) (h : lowerExpr e s = .ok (v, s')) : ∃ b, s'.current = some b :=
  (lowerExpr_silent e hs hcur h).current.imp fun _ hb => hb.1

theorem kept_leaveFor {Q : BlockId → Prop} (s : Builder) (l : LoopBlocks) (a : BlockId) (c : Value) :
    Kept Q s (s.leaveFor l a c) := by
  unfold leaveFor
  refine (kept_close s a (.branch c l.body l.exit)).next (.of_code fun b _ => ?_)
  rw [code_recordEdge, code_wire]

theorem code_leaveFor_of_ne (s : Builder) (l : LoopBlocks) {a b : BlockId} (c : Value) (h : b ≠ a) :
    (s.leaveFor l a c).code b = s.code b := by
  unfold leaveFor
  rw [code_recordEdge, code_wire]
  exact Func.code_modifyBlock_of_ne _ h _

/-- The numbers of a loop's blocks. -/
theorem loopBlocks_lt (n : Nat) (hasStep : Bool) :
    (loopBlocks n hasStep).body = n ∧ (loopBlocks n hasStep).next < n + (loopKinds hasStep).length ∧
      (loopBlocks n hasStep).cond < n + (loopKinds hasStep).length ∧
      (loopBlocks n hasStep).exit < n + (loopKinds hasStep).length := by
  cases hasStep <;> simp [loopBlocks, loopKinds, LoopBlocks.next]

theorem ascending_rebind : ∀ (held : List (Nat × Value)) {m : Bindings}, m.Ascending →
    Bindings.Ascending (rebind m held)
  | [], _, h => h
  | (j, v) :: held, _, h => ascending_rebind held (IdMap.sorted_insert j v h)

/-- What is known of the builder `x` where the body of a loop begins that assigns the
variables `symbols`. -/
structure Started (s : Builder) (l : LoopBlocks) (pre : BlockId) (symbols : IdSet) (x : Builder) : Prop where
  proper : x.Proper
  current : x.current = some l.body
  size_le : s.size ≤ x.size
  next_lt : l.next < x.size
  cond_lt : l.cond < x.size
  exit_lt : l.exit < x.size
  loops : x.loops = ⟨l.next, l.exit⟩ :: s.loops
  pending : x.pending = s.pending ++ [⟨pre, l.exit, s.bindings⟩]
  bindings : x.bindings = rebind s.bindings (headerTargets s.count (s.carried symbols))
  head : x.code l.body = headerPhis pre s.count (s.carried symbols)
  kept : Kept (· < s.size) s x

section Loop

variable {s x y s' : Builder} {l : LoopBlocks} {pre : BlockId} {symbols : IdSet}

theorem started (guard : Value) (symbols : IdSet) (hs : s.Proper) (hcur : s.current = some pre) (hasStep : Bool) :
    (s.startLoop hasStep pre guard symbols).1 = headerTargets s.count (s.carried symbols) ∧
      Started s (loopBlocks s.size hasStep) pre symbols (s.startLoop hasStep pre guard symbols).2 := by
  obtain ⟨hbody, hnext, hcond, hexit⟩ := loopBlocks_lt s.size hasStep
  have hadd := hs.addBlocks (loopKinds hasStep)
  have hcur' : (s.addBlocks (loopKinds hasStep)).current = some pre := (current_addBlocks _ s).trans hcur
  rw [← size_addBlocks (loopKinds hasStep) s] at hnext hcond hexit
  set l := loopBlocks s.size hasStep
  set s₁ := s.addBlocks (loopKinds hasStep) with hs₁
  have hlt : l.body < s₁.size := by
    rw [hbody, hs₁, size_addBlocks]
    cases hasStep <;> simp [loopKinds]
  have hle : s.size ≤ s₁.size := by
    rw [hs₁, size_addBlocks]
    exact Nat.le_add_right _ _
  have hpre : l.body ≠ pre := by
    rw [hbody]
    exact Nat.ne_of_gt (hs.current pre hcur)
  obtain ⟨h₁, h₂, -, h₃, -, h₅, h₆, h₇, h₈⟩ := openLoop_onto hcur' hlt guard symbols
  rw [count_addBlocks, carried_addBlocks] at h₁ h₇ h₈
  rw [bindings_addBlocks] at h₅ h₇
  rw [pending_addBlocks] at h₅
  rw [loops_addBlocks] at h₆
  have hbind : Bindings.Ascending (s₁.openLoop l pre guard symbols).2.bindings := by
    rw [h₇]
    exact ascending_rebind _ hs.bindings
  unfold startLoop
  refine ⟨h₁, ⟨fun b hb => ?_, ?_, ?_, hbind, ?_⟩, h₂, ?_, h₃ ▸ hnext, h₃ ▸ hcond, h₃ ▸ hexit, h₆,
    h₅, h₇, ?_, fun b hb => ?_⟩
  · rw [h₂] at hb
    rw [h₃]
    exact Option.some.inj hb ▸ hlt
  · intro e he
    rw [h₃]
    rw [h₅] at he
    rcases List.mem_append.mp he with he | he
    · exact (hs.targets e he).trans_le hle
    · exact List.mem_singleton.mp he ▸ hexit
  · intro t ht
    rw [h₃]
    rw [h₆] at ht
    rcases List.mem_cons.mp ht with rfl | ht
    · exact ⟨hnext, hexit⟩
    · exact (hs.loops t ht).imp (fun h => h.trans_le hle) fun h => h.trans_le hle
  · intro e he
    rw [h₅] at he
    rcases List.mem_append.mp he with he | he
    · exact hs.carried e he
    · exact List.mem_singleton.mp he ▸ hs.bindings
  · rw [h₃]
    exact hle
  · rw [h₈, if_pos rfl, code_leaveFor_of_ne s₁ l guard hpre, hs₁, code_addBlocks, code_of_size_le hbody.ge,
      List.nil_append]
  · have hne : b ≠ l.body := by
      rw [hbody]
      exact Nat.ne_of_lt hb
    rw [h₈, if_neg hne, ← code_addBlocks (loopKinds hasStep) s]
    exact kept_leaveFor (Q := (· < s.size)) s₁ l pre guard b hb

/-- The phis at the head of a loop are for variables that it assigns. -/
theorem mem_of_headerTargets {j : Nat} (h : j ∈ (headerTargets s.count (s.carried symbols)).map Prod.fst) :
    j ∈ symbols := by
  rw [map_fst_headerTargets] at h
  obtain ⟨p, hp, rfl⟩ := List.mem_map.mp h
  exact (mem_carried hp).2

/-- Behind the body of a loop, control and the edges of the body wait for what comes next. -/
theorem Started.body (h : Started s l pre symbols x) (hy : Rebinds symbols [] x y) :
    Rebinds symbols [l.next, l.exit] s y.leaveLoop := by
  have hstart : Keeps symbols s.bindings x.bindings := by
    rw [h.bindings]
    exact .rebind fun p hp => mem_of_headerTargets (List.mem_map_of_mem hp)
  have hloops : y.loops.tail = s.loops := by rw [hy.loops, h.loops, List.tail_cons]
  refine ⟨⟨hy.proper.current, hy.proper.targets, fun t ht => hy.proper.loops t (List.mem_of_mem_tail ht),
    hy.proper.bindings, hy.proper.carried⟩, h.size_le.trans hy.size_le, hloops, ?_,
    fun hcur => hstart.trans (hy.through hcur), ?_⟩
  · obtain ⟨new, hnew, hall⟩ := hy.edges
    refine ⟨⟨pre, l.exit, s.bindings⟩ :: new, ?_, fun e he => ?_⟩
    · change y.pending = _
      rw [hnew, h.pending, List.append_assoc, List.singleton_append]
    · rcases List.mem_cons.mp he with rfl | he
      · exact ⟨Or.inr (by simp), .refl _ _⟩
      · obtain ⟨htarget, hkeeps⟩ := hall e he
        refine ⟨Or.inr ?_, hstart.trans hkeeps⟩
        obtain ⟨t, ht, htarget⟩ := htarget.resolve_right List.not_mem_nil
        rw [h.loops] at ht
        obtain rfl := Option.some.inj ht
        simpa using htarget
  · exact h.kept.trans hy.kept fun _ hb => hb.trans_le h.size_le

theorem Started.endBody (h : Started s l pre symbols x) (hy : Rebinds symbols [] x y) :
    Rebinds symbols [l.next, l.exit] s (y.endBody l) :=
  (h.body hy).jump (Or.inr List.mem_cons_self) (h.next_lt.trans_le hy.size_le)

theorem size_endBody (y : Builder) (l : LoopBlocks) : (y.endBody l).size = y.size := size_jump y.leaveLoop l.next

/-- Behind the step of a loop, control goes to the test. -/
theorem Started.step (hs : s.Proper) (hl : Apart l s.size) (h : Started s l pre symbols x) (hy : Rebinds symbols [] x y)
    {step : List Stmt} {z : Builder} (hstep : lowerStmts step ((y.endBody l).enter l.next) = .ok z)
    (hz : Rebinds symbols [] ((y.endBody l).enter l.next) z) : Rebinds symbols [l.cond, l.exit] s (z.jump l.cond) := by
  have hlt : ∀ b, b < x.size → b < (y.endBody l).size := fun b hb => by
    rw [size_endBody]
    exact hb.trans_le hy.size_le
  have hnext : Rebinds symbols [l.cond, l.exit] s ((y.endBody l).enter l.next) := by
    refine (h.endBody hy).enter hs hl.next_ge (hlt _ h.next_lt) fun c hc hne => ?_
    simp only [List.mem_cons, hne, false_or] at hc
    exact List.mem_cons_of_mem _ (List.mem_cons.mpr hc)
  have hcond : l.cond < z.size := (hlt _ h.cond_lt).trans_le ((size_enter _ _).ge.trans hz.size_le)
  exact (hnext.stmts hstep hz).jump (Or.inr List.mem_cons_self) hcond

/-- Closing the head of a loop changes nothing but the code of its body. -/
theorem closeHeader_frame {body latch : BlockId} : ∀ (targets : List (Nat × Value)) {s s' : Builder},
    closeHeader body latch targets s = .ok s' →
      s'.current = s.current ∧ s'.bindings = s.bindings ∧ s'.pending = s.pending ∧ s'.loops = s.loops ∧
        s'.size = s.size ∧ ∀ b, b ≠ body → s'.code b = s.code b
  | [], s, s', h => by
    rw [closeHeader] at h
    obtain rfl := Except.ok.inj h
    exact ⟨rfl, rfl, rfl, rfl, rfl, fun _ _ => rfl⟩
  | (symbol, phi) :: rest, s, s', h => by
    rw [closeHeader] at h
    cases hget : s.bindings.get? symbol with
    | none =>
      rw [hget] at h
      cases h
    | some v =>
      rw [hget] at h
      obtain ⟨h₁, h₂, h₃, h₄, h₅, h₆⟩ := closeHeader_frame rest h
      exact ⟨h₁, h₂, h₃, h₄, h₅.trans (Func.size_modifyBlock ..), fun b hb =>
        (h₆ b hb).trans (Func.code_modifyBlock_of_ne _ hb _)⟩

theorem Rebinds.leaveFor {A : IdSet} {ws : List BlockId} {a : BlockId} {c : Value} (h : Rebinds A ws s x)
    (hcur : x.current = some a) (hlt : l.exit < x.size) (hexit : l.exit ∈ ws) :
    Rebinds A ws s (x.leaveFor l a c) where
  proper := by
    refine h.proper.leave (size_leaveFor x l a c).ge rfl rfl (fun e he => ?_) rfl
    rw [pending_leaveFor] at he
    rcases List.mem_append.mp he with he | he
    · exact Or.inl he
    · rw [List.mem_singleton.mp he, size_leaveFor]
      exact Or.inr ⟨hlt, rfl⟩
  size_le := by
    rw [size_leaveFor]
    exact h.size_le
  loops := h.loops
  edges := by
    obtain ⟨new, hnew, hall⟩ := h.edges
    refine ⟨new ++ [⟨a, l.exit, x.bindings⟩], by rw [pending_leaveFor, hnew, List.append_assoc], fun e he => ?_⟩
    rcases List.mem_append.mp he with he | he
    · exact hall e he
    · obtain rfl := List.mem_singleton.mp he
      exact ⟨Or.inr hexit, h.through (by rw [hcur]; exact Option.some_ne_none a)⟩
  through hne := absurd rfl hne
  kept := h.kept.next (kept_leaveFor x l a c)

theorem closeLoop_cases {targets : List (Nat × Value)} {condition : Expr} (hx : (x.enter l.cond).Proper)
    (h : x.closeLoop l targets condition = .ok s') : LoopClosed l targets condition x s' :=
  (closeLoop_iff_of_goes fun c y hcur => lowerExpr_goes condition hx hcur c y).mp h

/-- The test at the end of a loop and what is behind it. -/
theorem Rebinds.closeLoop {A : IdSet} {targets : List (Nat × Value)} {condition : Expr} (hs : s.Proper)
    (hl : Apart l s.size) (h : Rebinds A [l.cond, l.exit] s x) (hcond : l.cond < x.size) (hexit : l.exit < x.size)
    (hclose : x.closeLoop l targets condition = .ok s') : Rebinds A [] s s' := by
  have htest : Rebinds A [l.exit] s (x.enter l.cond) := h.enter hs hl.cond_ge hcond fun c hc hne => by
    simpa [hne] using hc
  have hexit' : l.exit < (x.enter l.cond).size := by rwa [size_enter]
  have hdone : ∀ c ∈ [l.exit], c ≠ l.exit → c ∈ ([] : List BlockId) := fun c hc hne =>
    absurd (List.mem_singleton.mp hc) hne
  rcases closeLoop_cases htest.proper hclose with ⟨-, rfl⟩ | ⟨hne, c, y, latch, z, h₁, hlatch, h₂, rfl⟩
  · exact htest.enter hs hl.exit_ge hexit' hdone
  · have hcur : (x.enter l.cond).current = some l.cond := by rw [current_enter, if_neg hne]
    have hy := lowerExpr_silent condition htest.proper hcur h₁
    have hy' : Rebinds A [l.exit] s y :=
      htest.trans (.of_silent hy) (by rw [hcur]; exact Option.some_ne_none _) (List.Subset.refl _)
    obtain ⟨hz₁, hz₂, hz₃, hz₄, hz₅, hz₆⟩ := closeHeader_frame targets h₂
    have hz : Rebinds A [l.exit] s z :=
      hy'.congr (hy'.proper.congr hz₅.ge hz₁ hz₂ hz₃ hz₄) hz₅.ge hz₄ hz₃ hz₁ (hz₂ ▸ .refl A _)
        (.of_code fun b hb => hz₆ b (Nat.ne_of_lt (hb.trans_le hl.body_ge)))
    have hlt : l.exit < z.size := by
      rw [hz₅]
      exact hexit'.trans_le hy.size_le
    exact (hz.leaveFor (hz₁.trans hlatch) hlt List.mem_cons_self).enter hs hl.exit_ge
      (by rwa [size_leaveFor]) hdone

end Loop

/-! ### All statements -/

theorem assign_rebinds {s s' : Builder} {a : BlockId} {symbol : Nat} {value : Expr} (hs : s.Proper)
    (hcur : s.current = some a) (h : s.assign symbol value = .ok s') : Rebinds [symbol] [] s s' := by
  obtain ⟨v, s₁, h₁, rfl⟩ := assign_iff.mp h
  have hx := lowerExpr_silent value hs hcur h₁
  have hd : Rebinds [symbol] [] s (s₁.define v.ty fun target => .move target v).2 :=
    .of_silent (hx.define v.ty fun _ => rfl)
  exact hd.congr (hd.proper.bind symbol _) le_rfl rfl rfl rfl (.insert List.mem_cons_self _) (.refl _ _)

mutual

/-- Building a statement binds anew only what it assigns. -/
theorem lowerStmt_rebinds : ∀ (stmt : Stmt) {s s' : Builder} {a : BlockId}, s.Proper →
    s.current = some a → lowerStmt stmt s = .ok s' → Rebinds (assignedBy stmt) [] s s'
  | .declare _ none, s, s', a, hs, hcur, h => by
    rw [lowerStmt] at h
    exact Except.ok.inj h ▸ .refl _ _ hs
  | .declare symbol (some init), s, s', a, hs, hcur, h
  | .assign symbol value, s, s', a, hs, hcur, h => by
    rw [lowerStmt] at h
    rw [assignedBy]
    exact assign_rebinds hs hcur h
  | .ifElse condition ifTrue none, s, s', a, hs, hcur, h => by
    obtain ⟨c, s₁, s₂, h₁, h₂, rfl⟩ := lowerStmt_if.mp h
    have hx := lowerExpr_silent condition hs hcur h₁
    obtain ⟨b, hb, -⟩ := hx.current
    obtain ⟨hfirst, -⟩ := begins_first ifKinds c hx.proper hb (by decide)
    rw [assignedBy]
    exact (Rebinds.of_silent hx).trans (.detour hx.proper hb (lowerStmts_rebinds ifTrue hfirst.proper h₂))
      (by simp [hb]) (List.nil_subset _)
  | .ifElse condition ifTrue (some ifFalse), s, s', a, hs, hcur, h => by
    obtain ⟨c, s₁, s₂, s₃, h₁, h₂, h₃, rfl⟩ := lowerStmt_ifElse.mp h
    have hx := lowerExpr_silent condition hs hcur h₁
    obtain ⟨b, hb, -⟩ := hx.current
    obtain ⟨hfirst, -⟩ := begins_first ifElseKinds c hx.proper hb (by decide)
    have hy := lowerStmts_rebinds ifTrue hfirst.proper h₂
    have hz := lowerStmts_rebinds ifFalse (hy.second_proper hb) h₃
    rw [assignedBy]
    exact (Rebinds.of_silent hx).trans (.diamond hx.proper hb (hy.left _) (hz.right _)) (by simp [hb])
      (List.nil_subset _)
  | .while_ condition body none, s, s', a, hs, hcur, h => by
    obtain ⟨guard, s₁, pre, h₁, hpre, s₂, h₂, h₃⟩ :=
      (lowerStmt_while_of_goes (lowerExpr_goes condition hs hcur)).mp h
    have hx := lowerExpr_silent condition hs hcur h₁
    obtain ⟨-, ho⟩ := started guard (assigned body) hx.proper hpre false
    have hy := lowerStmts_rebinds body ho.proper h₂
    rw [assignedBy]
    have hl := apart_loopBlocks s₁.size false
    refine (Rebinds.of_silent hx).trans (Rebinds.closeLoop hx.proper hl (ho.endBody hy) ?_ ?_ h₃) (by simp [hpre])
      (List.nil_subset _)
    · rw [size_endBody]
      exact ho.cond_lt.trans_le hy.size_le
    · rw [size_endBody]
      exact ho.exit_lt.trans_le hy.size_le
  | .while_ condition body (some step), s, s', a, hs, hcur, h => by
    obtain ⟨guard, s₁, pre, h₁, hpre, s₂, s₃, h₂, h₃, h₄⟩ :=
      (lowerStmt_while_of_goes (lowerExpr_goes condition hs hcur)).mp h
    have hx := lowerExpr_silent condition hs hcur h₁
    have hl := apart_loopBlocks s₁.size true
    obtain ⟨-, ho⟩ := started guard (IdSet.union (assigned body) (assigned step)) hx.proper hpre true
    have hy := (lowerStmts_rebinds body ho.proper h₂).left (assigned step)
    have hnext := (ho.endBody hy).proper.enter ((size_endBody s₂ _).ge.trans_lt' (ho.next_lt.trans_le hy.size_le))
    have hz := (lowerStmts_rebinds step hnext h₃).right (assigned body)
    have hle : (s₁.startLoop true pre guard (IdSet.union (assigned body) (assigned step))).2.size ≤ s₃.size :=
      hy.size_le.trans ((size_endBody s₂ _).ge.trans ((size_enter _ _).ge.trans hz.size_le))
    rw [assignedBy]
    refine (Rebinds.of_silent hx).trans (Rebinds.closeLoop hx.proper hl (ho.step hx.proper hl hy h₃ hz) ?_ ?_ h₄)
      (by simp [hpre]) (List.nil_subset _)
    · rw [size_jump]
      exact ho.cond_lt.trans_le hle
    · rw [size_jump]
      exact ho.exit_lt.trans_le hle
  | .break_, s, s', a, hs, hcur, h => by
    obtain ⟨l, rest, hl, rfl⟩ := lowerStmt_break.mp h
    have htarget : s.LoopTarget l.onBreak := ⟨l, by rw [hl]; rfl, Or.inr rfl⟩
    exact (Rebinds.refl _ _ hs).jump (Or.inl htarget) (hs.loopTarget_lt htarget)
  | .continue_, s, s', a, hs, hcur, h => by
    obtain ⟨l, rest, hl, rfl⟩ := lowerStmt_continue.mp h
    have htarget : s.LoopTarget l.onContinue := ⟨l, by rw [hl]; rfl, Or.inl rfl⟩
    exact (Rebinds.refl _ _ hs).jump (Or.inl htarget) (hs.loopTarget_lt htarget)
  | .return_ value, s, s', a, hs, hcur, h => by
    obtain ⟨v, s₁, h₁, rfl⟩ := lowerStmt_return.mp h
    have hx := lowerExpr_silent value hs hcur h₁
    obtain ⟨b, hb, -⟩ := hx.current
    rw [ret_eq hb]
    exact (Rebinds.of_silent hx).close b (.ret v)
  | .block body, s, s', a, hs, hcur, h => by
    rw [lowerStmt] at h
    rw [assignedBy]
    exact lowerStmts_rebinds body hs h
  | .expr value, s, s', a, hs, hcur, h => by
    obtain ⟨v, h₁⟩ := lowerStmt_expr.mp h
    exact .of_silent (lowerExpr_silent value hs hcur h₁)

/-- Building statements binds anew only what they assign. -/
theorem lowerStmts_rebinds : ∀ (stmts : List Stmt) {s s' : Builder}, s.Proper →
    lowerStmts stmts s = .ok s' → Rebinds (assigned stmts) [] s s'
  | [], s, s', hs, h => by
    rw [lowerStmts] at h
    exact Except.ok.inj h ▸ .refl _ _ hs
  | stmt :: rest, s, s', hs, h => by
    cases hcur : s.current with
    | none =>
      rw [lowerStmts_of_none hcur] at h
      exact Except.ok.inj h ▸ .refl _ _ hs
    | some a =>
      obtain ⟨s₁, h₁, h₂⟩ := (lowerStmts_cons hcur).mp h
      have hx := lowerStmt_rebinds stmt hs hcur h₁
      have hy := lowerStmts_rebinds rest hx.proper h₂
      rw [assigned]
      exact (hx.left _).stmts h₂ (hy.right _)

end

end Builder
end Chordal.Ssa
