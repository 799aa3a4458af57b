/-
# The flow analysis of the checker is exact

The checker makes one pass, and yet what it knows at a point is exactly what holds
of all executions that come there. So it rejects a read if some execution makes
it with the variable unassigned, and it rejects the end of a function if some
execution comes there.

For a statement, checking either fails at a read that faults in some execution,
or gives a context for the states in which its executions end (`checkStmt_exact`).
The states at the tests of a loop's condition are those before the loop and more,
but no visible variable is lost in them, so the flow state before a loop is exact
for all of them.

Key definitions: `Collects`, `Checked`, `StmtExact`.
Key theorems: `checkLoop_bind`, `checkStmt_exact`, `checkFunc_exact`.
-/
import Mathlib
import Chordal.Proofs.Typed.FlowStates

namespace Chordal.Typed

open Syntax (Scope State Outcome Runs Passes Faults FaultsIn Fails Splits Skips nexts conts heads bodyEnds)

-- The equations of the recursion, made once before the proofs that rewrite with them.
attribute [local simp] checkStmt checkStmts

/-! ### Statements -/

/-- Flow states that stand for the states of a set when they are joined. -/
structure Collects (flows : List Flow) (visible : List Symbol) (next : Nat) (C : Set State) : Prop where
  assigned_lt : ∀ flow ∈ flows, ∀ id ∈ flow.assigned, id < next
  exact : ∀ {v flow Q}, v ⊆ visible → flow.Exact v Q → (flows.foldl Flow.join flow).Exact v (Q ∪ C)

namespace Collects

variable {flows flows' : List Flow} {visible visible' : List Symbol} {n m : Nat} {C D : Set State}

theorem nil : Collects [] visible n ∅ := by
  refine ⟨fun _ hf => absurd hf List.not_mem_nil, fun _ hQ => ?_⟩
  rw [Set.union_empty]
  exact hQ

theorem singleton {flow : Flow} (hlt : ∀ id ∈ flow.assigned, id < n) (h : flow.Exact visible C) :
    Collects [flow] visible n C := by
  refine ⟨fun f hf => ?_, fun hv hQ => hQ.join (h.of_subset hv)⟩
  obtain rfl := List.mem_singleton.mp hf
  exact hlt

theorem append (h : Collects flows visible n C) (h' : Collects flows' visible' m D) (hv : visible ⊆ visible')
    (hle : n ≤ m) : Collects (flows ++ flows') visible m (C ∪ D) := by
  refine ⟨fun flow hf => ?_, fun hsub hQ => ?_⟩
  · rcases List.mem_append.mp hf with hf | hf
    · exact fun id hid => (h.assigned_lt flow hf id hid).trans_le hle
    · exact h'.assigned_lt flow hf
  · rw [List.foldl_append, ← Set.union_assoc]
    exact h'.exact (List.Subset.trans hsub hv) (h.exact hsub hQ)

end Collects

/-- What is known behind a task. The flow states at its `continue` statements stand
for the states in which executions come there. -/
structure Checked (ctx : Context) (runs : State → Outcome → Prop) (P : Set State) (ctx' : Context) : Prop where
  tracks : ctx'.Tracks (nexts runs P)
  visible_subset : ctx.visible ⊆ ctx'.visible
  next_le : ctx.nextSymbol ≤ ctx'.nextSymbol
  continues : ∃ new, ctx'.continues = ctx.continues.map (· ++ new) ∧
    Collects new ctx.visible ctx'.nextSymbol (conts runs P)

section Statements

variable {ctx ctx' : Context} {P Q : Set State} {returns : Ty}

/-- Where no execution comes to a `continue`, the flow states stay as they are. -/
theorem continues_nil {runs : State → Outcome → Prop} (h : conts runs P = ∅) (heq : ctx'.continues = ctx.continues) :
    ∃ new, ctx'.continues = ctx.continues.map (· ++ new) ∧
      Collects new ctx.visible ctx'.nextSymbol (conts runs P) := by
  refine ⟨[], ?_, h ▸ .nil⟩
  rw [heq]
  cases ctx.continues <;> simp

/-- The `continue` statements of two tasks, one checked after the other. -/
theorem continues_append {ctx'' : Context} {new new' : List Flow} {visible' : List Symbol} {C D : Set State}
    (hnew : ctx'.continues = ctx.continues.map (· ++ new)) (hnew' : ctx''.continues = ctx'.continues.map (· ++ new'))
    (h : Collects new ctx.visible ctx'.nextSymbol C) (h' : Collects new' visible' ctx''.nextSymbol D)
    (hv : ctx.visible ⊆ visible') (hle : ctx'.nextSymbol ≤ ctx''.nextSymbol) :
    ∃ new, ctx''.continues = ctx.continues.map (· ++ new) ∧ Collects new ctx.visible ctx''.nextSymbol (C ∪ D) := by
  refine ⟨new ++ new', ?_, h.append h' hv hle⟩
  rw [hnew', hnew, Option.map_map]
  simp [Function.comp_def]

/-- Two flow states meet where a scope ends. -/
theorem Context.Tracks.join {a b : Flow} {visible : List Symbol} {n : Nat} {continues : Option (List Flow)}
    (ha : a.Exact visible P) (hb : b.Exact visible Q) (hp : Proper visible n) (ha' : ∀ id ∈ a.assigned, id < n)
    (hb' : ∀ id ∈ b.assigned, id < n) : Context.Tracks ⟨visible, n, continues, a.join b⟩ (P ∪ Q) :=
  ⟨ha.join hb, hp, fun id hid => (Flow.mem_assigned_join hid).elim (ha' id) (hb' id)⟩

/-- No execution goes on from here. -/
theorem Context.Tracks.leave (h : ctx.Tracks P) {runs : State → Outcome → Prop} {continues : Option (List Flow)}
    (hruns : ∀ {S S'}, ¬ runs S (.next S')) : ({ ctx.leave with continues }).Tracks (nexts runs P) := by
  rw [Syntax.nexts_eq_empty hruns]
  exact ⟨.dead, h.proper, fun _ hid => absurd hid List.not_mem_nil⟩

/-- Checking a statement fails at a read that faults in some execution, or follows all
executions to where they end. Behind the statement, its declaration is visible. -/
def StmtExact (returns : Ty) (s : Syntax.Stmt) (ctx : Context) (P : Set State) : Prop :=
  Exactly (checkStmt returns s ctx) (Fails (Runs (.stmt s)) P)
    fun r => Checked ctx (Runs (.stmt s)) P r.2 ∧ typesOf r.2.visible = s.scope (typesOf ctx.visible)

/-- Checking statements one after another fails or follows all executions in the same way. -/
def StmtsExact (returns : Ty) (body : List Syntax.Stmt) (ctx : Context) (P : Set State) : Prop :=
  Exactly (checkStmts returns body ctx) (Fails (Runs (.all body)) P) fun r => Checked ctx (Runs (.all body)) P r.2

/-! #### Simple statements -/

theorem checkStmt_simple (h : ctx.Tracks P) {s : Syntax.Simple} (hs : s.InOrder (typesOf ctx.visible)) :
    StmtExact returns (.simple s) ctx P := by
  have hfails : FaultsIn s.Reads P ↔ Fails (Runs (.stmt (.simple s))) P := by
    unfold FaultsIn Fails
    simp [Syntax.runs_simple_iff]
  unfold StmtExact
  rw [checkStmt]
  refine ((checkSimple_exact h hs).congr hfails).imp fun r hnot hr =>
    ⟨⟨?_, hr.visible_subset, hr.next_le, ?_⟩, hr.types⟩
  · have hnexts : nexts (Runs (.stmt (.simple s))) P = (fun S => Syntax.afterOf S (some s)) '' P := by
      ext S'
      change (∃ S ∈ P, _) ↔ ∃ S ∈ P, _
      refine exists_congr fun S => and_congr_right fun hS => ?_
      have hp : Passes s.Reads S := Syntax.passes_of_not_faultsIn s.exists_reads (fun hf => hnot (hfails.mp hf)) hS
      simp [Syntax.runs_simple_iff, hp, eq_comm, Syntax.afterOf]
    rw [hnexts]
    exact hr.tracks
  · exact continues_nil (Syntax.conts_eq_empty fun hrun => by simp [Syntax.runs_simple_iff] at hrun) hr.continues

/-! #### Conditions -/

section

variable {c : Syntax.Expr} (h : ctx.Tracks P) (hc : c.HasTy (typesOf ctx.visible) .bool)

include h hc

/-- A condition is checked, and then the two ways. -/
theorem checkTyped_bind {α : Type} {R R₁ R₂ : State → Outcome → Prop}
    {k : Expr → Except Diagnostic α} {ok : α → Prop}
    (hR : ∀ {S o}, R S o ↔ (∃ x, Faults c.Reads S x ∧ o = .faulted x) ∨ Passes c.Reads S ∧ (R₁ S o ∨ R₂ S o))
    (hk : ∀ c', Splits P R R₁ R₂ → Exactly (k c') (Fails R₁ P ∨ Fails R₂ P) ok) :
    Exactly (checkTyped ctx .bool c >>= k) (Fails R P) ok := by
  refine (checkTyped_exact h hc).bind (fun c' hnot _ => hk c' (Syntax.splits_of_not_faultsIn hR hnot)) ?_ fun hnot =>
    (Syntax.splits_of_not_faultsIn hR hnot).fails
  rintro ⟨S, hS, x, hx⟩
  exact ⟨S, hS, x, hR.mpr (Or.inl ⟨x, hx, rfl⟩)⟩

theorem checkStmt_if {p : Span} {t : Syntax.Stmt} (ht : StmtExact returns t ctx P) :
    StmtExact returns (.ifElse p c t none) ctx P := by
  unfold StmtExact
  rw [checkStmt]
  refine checkTyped_bind h hc Syntax.runs_if_iff fun c' hsplit => ?_
  refine ht.bind (fun r _ hr => ?_) Or.inl fun hnot =>
    (or_iff_right hnot).trans (iff_of_false Syntax.not_fails_skips not_false)
  obtain ⟨t', inner⟩ := r
  obtain ⟨hr, -⟩ := hr
  refine Exactly.pure ⟨⟨?_, List.Subset.refl _, hr.next_le, ?_⟩, rfl⟩
  · rw [hsplit.nexts, Syntax.nexts_skips]
    exact .join (hr.tracks.exact.of_subset hr.visible_subset) h.exact (h.proper.mono hr.next_le) hr.tracks.assigned_lt
      fun id hid => (h.assigned_lt id hid).trans_le hr.next_le
  · rw [hsplit.conts, Syntax.conts_skips, Set.union_empty]
    exact hr.continues

theorem checkStmt_ifElse {p : Span} {t e : Syntax.Stmt} (ht : StmtExact returns t ctx P)
    (he : ∀ {ctx' : Context}, ctx'.Tracks P → ctx'.visible = ctx.visible →
      ctx'.continues.isSome = ctx.continues.isSome → StmtExact returns e ctx' P) :
    StmtExact returns (.ifElse p c t (some e)) ctx P := by
  unfold StmtExact
  rw [checkStmt]
  refine checkTyped_bind h hc Syntax.runs_ifElse_iff fun c' hsplit => ?_
  refine ht.bind (fun r _ hr => ?_) Or.inl fun hnot => or_iff_right hnot
  obtain ⟨t', inner⟩ := r
  obtain ⟨hr, -⟩ := hr
  obtain ⟨new, hnew, hcollects⟩ := hr.continues
  have htracks : ({ inner with visible := ctx.visible, flow := ctx.flow }).Tracks P :=
    ⟨h.exact, h.proper.mono hr.next_le, fun id hid => (h.assigned_lt id hid).trans_le hr.next_le⟩
  have hsome : inner.continues.isSome = ctx.continues.isSome := by rw [hnew, Option.isSome_map]
  refine (he htracks rfl hsome).last fun r' hr' => ?_
  obtain ⟨e', outer⟩ := r'
  obtain ⟨hr', -⟩ := hr'
  obtain ⟨new', hnew', hcollects'⟩ := hr'.continues
  refine Exactly.pure ⟨⟨?_, List.Subset.refl _, hr.next_le.trans hr'.next_le, ?_⟩, rfl⟩
  · rw [hsplit.nexts]
    exact .join (hr.tracks.exact.of_subset hr.visible_subset) (hr'.tracks.exact.of_subset hr'.visible_subset)
      (h.proper.mono (hr.next_le.trans hr'.next_le))
      (fun id hid => (hr.tracks.assigned_lt id hid).trans_le hr'.next_le) hr'.tracks.assigned_lt
  · rw [hsplit.conts]
    exact continues_append hnew hnew' hcollects hcollects' (List.Subset.refl _) hr'.next_le

end

/-! #### Loops -/

section Loops

variable {c : Syntax.Expr} {step : Option Syntax.Simple} {body : Syntax.Stmt}

section Tracks

variable (h : ctx.Tracks P) (hbody : body.InOrder returns true (typesOf ctx.visible))
  (hstep : Syntax.InOrderOf (typesOf ctx.visible) step)

include h hbody hstep

/-- What is known before a loop is what is known at all its tests. -/
theorem Context.Tracks.heads : ctx.Tracks (heads c step body P) := by
  refine ⟨h.exact.grow Syntax.subset_heads fun S' ⟨S, hS, hturns⟩ => ⟨S, hS, fun s hs hmem => ?_⟩, h.proper,
    h.assigned_lt⟩
  have hname : s.name ∈ (typesOf ctx.visible).names := by
    rw [names_typesOf]
    exact List.mem_map_of_mem hs
  exact Syntax.kept_of_turns hbody hstep hturns hname hmem

/-- What is known before a loop is what is known behind it. -/
theorem Context.Tracks.exits (hc : ¬ FaultsIn c.Reads (Syntax.heads c step body P)) :
    ctx.Tracks (nexts (Runs (.loop c step body)) P) := by
  refine ⟨h.exact.grow (fun S hS => ⟨S, hS, .exit ?_⟩) fun S' ⟨S, hS, hrun⟩ => ⟨S, hS, fun s hs hmem => ?_⟩, h.proper,
    h.assigned_lt⟩
  · exact Syntax.passes_of_not_faultsIn c.exists_reads hc (Syntax.subset_heads hS)
  · have hname : s.name ∈ (typesOf ctx.visible).names := by
      rw [names_typesOf]
      exact List.mem_map_of_mem hs
    exact hrun.kept rfl true (typesOf ctx.visible) ⟨hbody, hstep⟩ hname hmem

end Tracks

theorem Context.Tracks.mono_next (h : ctx.Tracks P) {n : Nat} (hle : ctx.nextSymbol ≤ n) :
    ({ ctx with nextSymbol := n }).Tracks P :=
  ⟨h.exact, h.proper.mono hle, fun id hid => (h.assigned_lt id hid).trans_le hle⟩

theorem lt_of_mem_foldl_join {n : Nat} : ∀ {flows : List Flow} {flow : Flow}, (∀ id ∈ flow.assigned, id < n) →
    (∀ f ∈ flows, ∀ id ∈ f.assigned, id < n) → ∀ id ∈ (flows.foldl Flow.join flow).assigned, id < n
  | [], _, h, _ => h
  | f :: flows, flow, h, hall => by
    have hjoin : ∀ id ∈ (flow.join f).assigned, id < n := fun id hid =>
      (Flow.mem_assigned_join hid).elim (h id) (hall f List.mem_cons_self id)
    rw [List.foldl_cons]
    exact lt_of_mem_foldl_join hjoin fun g hg => hall g (List.mem_cons_of_mem f hg)

/-- What is known where the body of a loop ends. -/
theorem Checked.endOfBody {inner : Context} {H : Set State} (h : ctx.Tracks H)
    (hr : Checked { ctx with continues := some [] } (Runs (.stmt body)) H inner) :
    ({ ctx with nextSymbol := inner.nextSymbol, flow := inner.endOfBody }).Tracks (bodyEnds body H) := by
  obtain ⟨new, hnew, hcollects⟩ := hr.continues
  have hend : inner.endOfBody = new.foldl Flow.join inner.flow := by
    unfold Context.endOfBody
    rw [hnew]
    simp
  refine ⟨?_, h.proper.mono hr.next_le, ?_⟩
  · rw [hend]
    exact hcollects.exact (List.Subset.refl _) (hr.tracks.exact.of_subset hr.visible_subset)
  · rw [hend]
    exact lt_of_mem_foldl_join hr.tracks.assigned_lt hcollects.assigned_lt

/-- Checking a `for` loop, with its parts that may be missing as one. -/
theorem checkStmt_for_eq (returns : Ty) (p : Span) (init : Option Syntax.Simple) (c : Syntax.Expr)
    (step : Option Syntax.Simple) (body : Syntax.Stmt) (ctx : Context) :
    checkStmt returns (.for_ p init c step body) ctx = do
      let (i, head) ← checkOptional ctx init
      let c ← checkTyped head .bool c
      let (b, inner) ← checkStmt returns body { head with continues := some [] }
      let (st, tail) ← checkOptional { head with nextSymbol := inner.nextSymbol, flow := inner.endOfBody } step
      return (.block (i ++ [.while_ c (bodyOf body b) (step.map fun _ => st)]),
        { head with visible := ctx.visible, nextSymbol := tail.nextSymbol }) := by
  cases init <;> cases step <;> rw [checkStmt] <;> simp only [checkOptional, bind_assoc, pure_bind, Option.map]
  all_goals rfl

section

variable (ih : ∀ {ctx' : Context} {Q : Set State}, ctx'.Tracks Q →
  body.InOrder returns ctx'.continues.isSome (typesOf ctx'.visible) → StmtExact returns body ctx' Q)

include ih

section

variable (h : ctx.Tracks P) (hc : c.HasTy (typesOf ctx.visible) .bool)
  (hbody : body.InOrder returns true (typesOf ctx.visible))

include h hc hbody

/-- The condition and the body of a loop are checked for all turns at once. -/
theorem checkLoop_bind {α : Type} {k : Expr → Stmt × Context → Except Diagnostic α} {ok : α → Prop}
    (hstep : Syntax.InOrderOf (typesOf ctx.visible) step)
    (hk : ∀ c' r, ctx.Tracks (nexts (Runs (.loop c step body)) P) →
      Checked { ctx with continues := some [] } (Runs (.stmt body)) (heads c step body P) r.2 →
      Exactly (k c' r) (FaultsIn (Syntax.ReadsOf step) (bodyEnds body (heads c step body P))) ok) :
    Exactly (do
      let c' ← checkTyped ctx .bool c
      let r ← checkStmt returns body { ctx with continues := some [] }
      k c' r) (Fails (Runs (.loop c step body)) P) ok := by
  have hH := h.heads (c := c) hbody hstep
  refine (checkTyped_exact hH hc).bind (fun c' hnot _ => ?_) Syntax.fails_loop_of_test Syntax.fails_loop_iff
  have hin : ({ ctx with continues := some [] }).Tracks (heads c step body P) := ⟨hH.exact, hH.proper, hH.assigned_lt⟩
  exact (ih hin hbody).bind (fun r _ hr => hk c' r (h.exits hbody hstep hnot) hr.1) Or.inl
    fun hnot' => or_iff_right hnot'

theorem checkStmt_while {p : Span} : StmtExact returns (.while_ p c body) ctx P := by
  unfold StmtExact
  rw [checkStmt, Syntax.runs_while]
  have hstep : Syntax.InOrderOf (typesOf ctx.visible) none := trivial
  refine checkLoop_bind ih h hc hbody hstep fun c' r hexits hr => ?_
  obtain ⟨b, inner⟩ := r
  have hnone : ¬ FaultsIn (Syntax.ReadsOf none) (bodyEnds body (heads c none body P)) :=
    Syntax.not_faultsIn_nil fun _ h => h
  refine Or.inl ⟨_, rfl, hnone, ⟨hexits.mono_next hr.next_le, List.Subset.refl _, hr.next_le, ?_⟩, rfl⟩
  exact continues_nil Syntax.conts_loop rfl

end

theorem checkStmt_for {p : Span} {init : Option Syntax.Simple} (h : ctx.Tracks P)
    (hs : (Syntax.Stmt.for_ p init c step body).InOrder returns ctx.continues.isSome (typesOf ctx.visible)) :
    StmtExact returns (.for_ p init c step body) ctx P := by
  obtain ⟨hinit, hc, hbody, hstep⟩ := hs
  unfold StmtExact
  rw [checkStmt_for_eq]
  refine (checkOptional_exact h hinit).bind (fun r hnot hr => ?_) (fun ⟨S, hS, x, hx⟩ => ⟨S, hS, x, .forFault hx⟩)
    fun hnot => (Syntax.follows_for hnot).fails
  obtain ⟨i, head⟩ := r
  rw [← hr.types] at hc hbody hstep
  refine checkLoop_bind ih hr.tracks hc hbody hstep fun c' r' hexits hr' => ?_
  obtain ⟨b, inner⟩ := r'
  refine (checkOptional_exact (hr'.endOfBody (hr.tracks.heads hbody hstep)) hstep).last fun r'' hr'' => ?_
  obtain ⟨st, tail⟩ := r''
  have hle : head.nextSymbol ≤ tail.nextSymbol := hr'.next_le.trans hr''.next_le
  refine Exactly.pure ⟨⟨?_, List.Subset.refl _, hr.next_le.trans hle, continues_nil ?_ hr.continues⟩, rfl⟩
  · rw [(Syntax.follows_for hnot).nexts]
    exact (hexits.mono_next hle).restrict h.proper hr.visible_subset (hr.next_le.trans hle)
  · rw [(Syntax.follows_for hnot).conts, Syntax.conts_loop]

end

end Loops

/-! #### Statements that leave -/

theorem checkStmt_break {p : Span} (h : ctx.Tracks P) (hs : ctx.continues.isSome = true) :
    StmtExact returns (.break_ p) ctx P := by
  obtain ⟨flows, hflows⟩ := Option.isSome_iff_exists.mp hs
  have hconts : conts (Runs (.stmt (.break_ p))) P = ∅ := Syntax.conts_eq_empty fun hrun => by cases hrun
  unfold StmtExact
  rw [checkStmt, hflows]
  refine Or.inl ⟨_, rfl, ?_, ⟨h.leave fun hrun => ?_, List.Subset.refl _, le_rfl, continues_nil hconts rfl⟩, rfl⟩
  · rintro ⟨S, -, x, hrun⟩
    cases hrun
  · cases hrun

theorem checkStmt_continue {p : Span} (h : ctx.Tracks P) (hs : ctx.continues.isSome = true) :
    StmtExact returns (.continue_ p) ctx P := by
  obtain ⟨flows, hflows⟩ := Option.isSome_iff_exists.mp hs
  have hconts : conts (Runs (.stmt (.continue_ p))) P = P := by
    ext S'
    refine ⟨fun ⟨S, hS, hrun⟩ => ?_, fun hS => ⟨S', hS, .continue_⟩⟩
    cases hrun
    exact hS
  unfold StmtExact
  rw [checkStmt, hflows]
  refine Or.inl ⟨_, rfl, ?_, ⟨h.leave fun hrun => ?_, List.Subset.refl _, le_rfl, [ctx.flow], ?_, ?_⟩, rfl⟩
  · rintro ⟨S, -, x, hrun⟩
    cases hrun
  · cases hrun
  · rw [hflows]
    rfl
  · rw [hconts]
    exact .singleton h.assigned_lt h.exact

theorem checkStmt_return {p : Span} {value : Syntax.Expr} (h : ctx.Tracks P)
    (hv : value.HasTy (typesOf ctx.visible) returns) : StmtExact returns (.return_ p value) ctx P := by
  have hconts : conts (Runs (.stmt (.return_ p value))) P = ∅ := Syntax.conts_eq_empty fun hrun => by cases hrun
  have hfails : FaultsIn value.Reads P ↔ Fails (Runs (.stmt (.return_ p value))) P := by
    refine ⟨fun ⟨S, hS, x, hx⟩ => ⟨S, hS, x, .returnFault hx⟩, fun ⟨S, hS, x, hrun⟩ => ?_⟩
    cases hrun with
    | returnFault hx => exact ⟨S, hS, x, hx⟩
  unfold StmtExact
  rw [checkStmt]
  refine ((checkTyped_exact h hv).congr hfails).last fun e _ => ?_
  refine Exactly.pure ⟨⟨h.leave fun hrun => ?_, List.Subset.refl _, le_rfl, continues_nil hconts rfl⟩, rfl⟩
  cases hrun

/-! #### Sequences -/

section Sequences

variable {s : Syntax.Stmt} {rest : List Syntax.Stmt}

theorem checkStmts_nil (h : ctx.Tracks P) : StmtsExact returns [] ctx P := by
  unfold StmtsExact
  rw [checkStmts, Syntax.runs_nil]
  refine Or.inl ⟨_, rfl, Syntax.not_fails_skips, ?_, List.Subset.refl _, le_rfl, continues_nil Syntax.conts_skips rfl⟩
  rw [Syntax.nexts_skips]
  exact h

theorem checkStmts_cons (hs : StmtExact returns s ctx P)
    (hrest : ∀ {ctx' : Context} {Q : Set State}, ctx'.Tracks Q → typesOf ctx'.visible = s.scope (typesOf ctx.visible) →
      ctx'.continues.isSome = ctx.continues.isSome → StmtsExact returns rest ctx' Q) :
    StmtsExact returns (s :: rest) ctx P := by
  unfold StmtsExact
  rw [checkStmts]
  refine hs.bind (fun r _ hr => ?_) (fun hf => Syntax.fails_cons.mpr (Or.inl hf)) fun hnot =>
    Syntax.fails_cons.trans (or_iff_right hnot)
  obtain ⟨t, ctx'⟩ := r
  obtain ⟨hr, htypes⟩ := hr
  obtain ⟨new, hnew, hcollects⟩ := hr.continues
  have hsome : ctx'.continues.isSome = ctx.continues.isSome := by rw [hnew, Option.isSome_map]
  refine (hrest hr.tracks htypes hsome).last fun r' hr' => ?_
  obtain ⟨ts, ctx''⟩ := r'
  obtain ⟨new', hnew', hcollects'⟩ := hr'.continues
  refine Exactly.pure ⟨?_, List.Subset.trans hr.visible_subset hr'.visible_subset, hr.next_le.trans hr'.next_le, ?_⟩
  · rw [Syntax.nexts_cons]
    exact hr'.tracks
  · rw [Syntax.conts_cons]
    exact continues_append hnew hnew' hcollects hcollects' hr.visible_subset hr'.next_le

end Sequences

theorem checkStmt_block {p : Span} {body : List Syntax.Stmt} (h : ctx.Tracks P)
    (hbody : StmtsExact returns body ctx P) : StmtExact returns (.block p body) ctx P := by
  unfold StmtExact
  rw [checkStmt, Syntax.runs_block]
  refine hbody.last fun r hr => ?_
  obtain ⟨ts, inner⟩ := r
  exact Exactly.pure ⟨⟨hr.tracks.restrict h.proper hr.visible_subset hr.next_le, List.Subset.refl _, hr.next_le,
    hr.continues⟩, rfl⟩

end Statements

mutual

/-- Checking a statement reports an unassigned variable if some execution reads
one, and otherwise follows all executions. -/
theorem checkStmt_exact {returns : Ty} : ∀ (s : Syntax.Stmt) {ctx : Context} {P : Set State}, ctx.Tracks P →
    s.InOrder returns ctx.continues.isSome (typesOf ctx.visible) → StmtExact returns s ctx P
  | .simple s, ctx, P, h, hs => checkStmt_simple h hs
  | .block p body, ctx, P, h, hs => checkStmt_block h (checkStmts_exact body h hs)
  | .ifElse p c t none, ctx, P, h, hs => checkStmt_if h hs.1 (checkStmt_exact t h hs.2)
  | .ifElse p c t (some e), ctx, P, h, hs => by
    refine checkStmt_ifElse h hs.1 (checkStmt_exact t h hs.2.1) fun {ctx'} h' hv hsome => checkStmt_exact e h' ?_
    rw [hv, hsome]
    exact hs.2.2
  | .while_ p c body, ctx, P, h, hs => checkStmt_while (checkStmt_exact body) h hs.1 hs.2
  | .for_ p init c step body, ctx, P, h, hs => checkStmt_for (checkStmt_exact body) h hs
  | .break_ p, ctx, P, h, hs => checkStmt_break h hs
  | .continue_ p, ctx, P, h, hs => checkStmt_continue h hs
  | .return_ p value, ctx, P, h, hs => checkStmt_return h hs

theorem checkStmts_exact {returns : Ty} : ∀ (body : List Syntax.Stmt) {ctx : Context} {P : Set State}, ctx.Tracks P →
    Syntax.AllInOrder returns ctx.continues.isSome (typesOf ctx.visible) body → StmtsExact returns body ctx P
  | [], ctx, P, h, _ => checkStmts_nil h
  | s :: rest, ctx, P, h, hs => by
    refine checkStmts_cons (checkStmt_exact s h hs.1) fun {ctx'} Q h' htypes hsome => checkStmts_exact rest h' ?_
    rw [htypes, hsome]
    exact hs.2

end

/-! ### Functions -/

/-- Executions of a function begin with nothing assigned. -/
theorem tracks_start : Context.start.Tracks {∅} := by
  refine ⟨⟨?_, fun s hs => absurd hs List.not_mem_nil⟩, ⟨List.nodup_nil, List.nodup_nil, fun s hs => ?_⟩,
    fun id hid => absurd hid List.not_mem_nil⟩
  · simp [Context.start, Flow.start]
  · exact absurd hs List.not_mem_nil

/-- A function in order is rejected for an unassigned variable if and only if some
execution reads a variable that it has not assigned. If there is none, it is
rejected for its end if and only if some execution comes there, and otherwise
accepted. -/
theorem checkFunc_exact {f : Syntax.Func} (h : f.InOrder) :
    ((∃ p name, checkFunc f = .error (.semantic p (.unassigned name))) ↔ f.MayReadUnassigned) ∧
      (¬ f.MayReadUnassigned →
        (checkFunc f = .error (.semantic f.span (.mayNotReturn f.name)) ↔ f.MayFinish) ∧
        (¬ f.MayFinish → ∃ t, checkFunc f = .ok t)) := by
  have hbody := checkStmts_exact f.body tracks_start h
  unfold StmtsExact at hbody
  rw [Syntax.fails_start] at hbody
  unfold checkFunc
  obtain ⟨⟨body, ctx⟩, heq, hnot, hr⟩ | ⟨p, name, heq, hf⟩ := hbody
  · -- no execution faults, so the end of the body decides
    have hlive : ctx.flow.live = true ↔ f.MayFinish := hr.tracks.exact.live.trans Syntax.nexts_start
    rw [heq]
    simp only [bind, Except.bind]
    refine ⟨iff_of_false ?_ hnot, fun _ => ⟨?_, fun hend => ?_⟩⟩
    · rintro ⟨p, name, h⟩
      split_ifs at h <;> cases h
    · split_ifs with hend
      · exact iff_of_true rfl (hlive.mp hend)
      · refine iff_of_false ?_ fun hf => hend (hlive.mpr hf)
        rintro ⟨⟩
    · rw [if_neg fun hl => hend (hlive.mp hl)]
      exact ⟨_, rfl⟩
  · rw [heq]
    exact ⟨iff_of_true ⟨p, name, rfl⟩ hf, fun hnot => absurd hf hnot⟩

/-- A loop whose step reads a variable. Its body assigns the variable, before or
after a `continue`. -/
def countUp (early : Bool) : Syntax.Func :=
  let p := Span.start
  let assign : Syntax.Stmt := .simple (.assign p "x" none (.var p "i"))
  let skip : Syntax.Stmt := .ifElse p (.binary p .eq (.var p "i") (.int p 1)) (.continue_ p) none
  ⟨p, .int, "main",
    [.simple (.declare p .int "x" none),
      .for_ p (some (.declare p .int "i" (some (.int p 0)))) (.binary p .lt (.var p "i") (.int p 9))
        (some (.assign p "i" (some .add) (.var p "x")))
        (.block p (if early then [assign, skip] else [skip, assign])),
      .return_ p (.int p 0)]⟩

theorem countUp_inOrder (early : Bool) : (countUp early).InOrder := by
  have hvar : ∀ {name : String}, (name, Ty.int) ∈ ([("i", .int), ("x", .int)] : Scope) →
      (Syntax.Expr.var Span.start name).HasTy [("i", .int), ("x", .int)] .int := .var
  have hassign : (Syntax.Stmt.simple (.assign Span.start "x" none (.var Span.start "i"))).InOrder .int true
      [("i", .int), ("x", .int)] := ⟨.int, by simp, hvar (by simp)⟩
  have hskip : (Syntax.Stmt.ifElse Span.start (.binary Span.start .eq (.var Span.start "i") (.int Span.start 1))
      (.continue_ Span.start) none).InOrder .int true [("i", .int), ("x", .int)] :=
    ⟨.equality rfl (hvar (by simp)) .int, rfl⟩
  have hstep : Syntax.InOrderOf [("i", .int), ("x", .int)]
      (some (.assign Span.start "i" (some .add) (.var Span.start "x"))) := ⟨by simp, hvar (by simp)⟩
  refine ⟨List.not_mem_nil, ⟨⟨.int, by decide⟩, .comparison rfl rfl (hvar (by simp)) .int, ?_, hstep⟩, .int, trivial⟩
  cases early with
  | false => exact ⟨hskip, hassign, trivial⟩
  | true => exact ⟨hassign, hskip, trivial⟩

/-- The step of `countUp` may read the variable unassigned if the `continue` comes
first, and never otherwise. -/
theorem countUp_exact : (countUp true).InOrder ∧ (countUp false).InOrder ∧
    ¬ (countUp true).MayReadUnassigned ∧ ¬ (countUp true).MayFinish ∧ (countUp false).MayReadUnassigned := by
  have hok : (checkFunc (countUp true)).isOk = true := by decide +kernel
  have herr : checkFunc (countUp false) = .error (.semantic Span.start (.unassigned "x")) := by cbv
  obtain ⟨hread, hend⟩ := checkFunc_exact (countUp_inOrder true)
  have hnot : ¬ (countUp true).MayReadUnassigned := by
    rw [← hread]
    rintro ⟨p, name, heq⟩
    rw [heq] at hok
    cases hok
  refine ⟨countUp_inOrder true, countUp_inOrder false, hnot, fun hf => ?_,
    (checkFunc_exact (countUp_inOrder false)).1.mp ⟨_, _, herr⟩⟩
  rw [(hend hnot).1.mpr hf] at hok
  cases hok

end Chordal.Typed
