/-
# What a loop carries

The body of a loop begins with a phi for every variable that was bound before the loop
and that the loop assigns. These are all that are needed: since building the body and
the step binds anew only what they assign, a variable without a phi has one value where
the body begins, where it is entered from before the loop and where it is entered from
the end of the loop.

This is said of every loop in a list of statements, however deep, and of the graph that
is there when the whole list is built. `StmtCalls` is one step down the tree, from
statements and the builder that builds them to the statements in one of them and the
builder that builds those. What is built there stays in the graph.

Key definitions: `Builder.StmtCalls`, `Builder.ReachesEnd`, `Builder.Round`.
Key theorems: `Builder.loop_carries`, `Builder.calls_persist`, `Builder.proper_of_calls`,
`Builder.lowerStmts_rebinds_assigned`.
-/
import Mathlib
import Chordal.Proofs.Ssa.Rebinding

namespace Chordal.Ssa
namespace Builder

open Typed (Expr Stmt)
open Bindings (Keeps)

-- The equations of the recursion, made once before the proofs that rewrite with them.
attribute [local simp] lowerStmt assignedBy

/-! ### One round of a loop -/

/-- From the end `z` of a loop's body to the builder where its test is to begin: the
step, if there is one, is built on the way. -/
inductive ReachesEnd (l : LoopBlocks) : Option (List Stmt) → Builder → Builder → Prop
  | plain (z : Builder) (h : l.next = l.cond) : ReachesEnd l none z (z.endBody l)
  | step {stmts : List Stmt} {z z' : Builder} (h : lowerStmts stmts ((z.endBody l).enter l.next) = .ok z') :
      ReachesEnd l (some stmts) z (z'.jump l.cond)

/-- The builders of a loop that is met at `r`: `before` is behind the first test, in the
block `pre`; `inside` is where the body begins; `after` is behind the second test, in the
block `latch`, from where control goes back to the body. -/
structure Round (condition : Expr) (body : List Stmt) (step : Option (List Stmt)) (r before inside after : Builder)
    (pre latch : BlockId) : Prop where
  guard : ∃ v, lowerExpr condition r = .ok (v, before) ∧
    inside = (before.startLoop step.isSome pre v (assignedBy (.while_ condition body step))).2
  pre : before.current = some pre
  turn : ∃ z x c, lowerStmts body inside = .ok z ∧ ReachesEnd (loopBlocks before.size step.isSome) step z x ∧
    (x.enter (loopBlocks before.size step.isSome).cond).current ≠ none ∧
    lowerExpr condition (x.enter (loopBlocks before.size step.isSome).cond) = .ok (c, after)
  latch : after.current = some latch

section Loop

variable {condition : Expr} {body : List Stmt} {step : Option (List Stmt)} {s s₁ s' x y : Builder} {a pre : BlockId}
  {v : Value} {l : LoopBlocks} {symbols : IdSet}

/-- The stages of a loop behind its first test, with or without a step. -/
theorem lowerStmt_loop (hs : s.Proper) (hcur : s.current = some a) (h₁ : lowerExpr condition s = .ok (v, s₁))
    (hpre : s₁.current = some pre) (h : lowerStmt (.while_ condition body step) s = .ok s') :
    Silent condition s s₁ ∧
    Started s₁ (loopBlocks s₁.size step.isSome) pre (assignedBy (.while_ condition body step))
      (s₁.startLoop step.isSome pre v (assignedBy (.while_ condition body step))).2 ∧
    ∃ z x, lowerStmts body (s₁.startLoop step.isSome pre v (assignedBy (.while_ condition body step))).2 = .ok z ∧
      ReachesEnd (loopBlocks s₁.size step.isSome) step z x ∧
      x.closeLoop (loopBlocks s₁.size step.isSome)
        (headerTargets s₁.count (s₁.carried (assignedBy (.while_ condition body step)))) condition = .ok s' := by
  have hsilent := lowerExpr_silent condition hs hcur h₁
  obtain ⟨htargets, ho⟩ := started v (assignedBy (.while_ condition body step)) hsilent.proper hpre step.isSome
  refine ⟨hsilent, ho, ?_⟩
  rw [← htargets]
  obtain ⟨v', t, pre', h₁', hpre', hrest⟩ := (lowerStmt_while_of_goes (lowerExpr_goes condition hs hcur)).mp h
  obtain ⟨rfl, rfl⟩ := ok_pair_inj (h₁.symm.trans h₁')
  obtain rfl := Option.some.inj (hpre.symm.trans hpre')
  cases step with
  | none =>
    obtain ⟨z, h₂, h₃⟩ := hrest
    rw [assignedBy]
    exact ⟨z, _, h₂, .plain z rfl, h₃⟩
  | some stmts =>
    obtain ⟨z, z', h₂, h₃, h₄⟩ := hrest
    rw [assignedBy]
    exact ⟨z, _, h₂, .step h₃, h₄⟩

theorem assigned_body (condition : Expr) (body : List Stmt) (step : Option (List Stmt)) :
    ∀ j ∈ assigned body, j ∈ assignedBy (.while_ condition body step) := by
  intro j hj
  cases step with
  | none =>
    rw [assignedBy]
    exact hj
  | some stmts =>
    rw [assignedBy]
    exact IdSet.subset_union_left hj

theorem assigned_step (condition : Expr) (body stmts : List Stmt) :
    ∀ j ∈ assigned stmts, j ∈ assignedBy (.while_ condition body (some stmts)) := by
  intro j hj
  rw [assignedBy]
  exact IdSet.subset_union_right hj

/-- The step of a loop begins in a proper builder. -/
theorem Started.proper_next (h : Started s l pre symbols x) (hy : Rebinds symbols [] x y) :
    ((y.endBody l).enter l.next).Proper := by
  refine (h.endBody hy).proper.enter ?_
  rw [size_endBody]
  exact h.next_lt.trans_le hy.size_le

/-- What waits where the test at the end of a loop is to begin. -/
theorem Started.ends (hs : s.Proper) (hl : Apart l s.size)
    (h : Started s l pre (assignedBy (.while_ condition body step)) x) (hbody : lowerStmts body x = .ok y)
    {z : Builder} (hz : ReachesEnd l step y z) :
    Rebinds (assignedBy (.while_ condition body step)) [] x y ∧
      Rebinds (assignedBy (.while_ condition body step)) [l.cond, l.exit] s z ∧ y.size ≤ z.size ∧
      (z.enter l.cond).Proper := by
  have hy := (lowerStmts_rebinds body h.proper hbody).mono (assigned_body condition body step) (List.Subset.refl _)
  have hends : Rebinds (assignedBy (.while_ condition body step)) [l.cond, l.exit] s z ∧ y.size ≤ z.size := by
    cases hz with
    | plain z hnext => exact ⟨hnext ▸ h.endBody hy, (size_endBody y l).ge⟩
    | @step stmts _ z' hstmts =>
      have hz' := (lowerStmts_rebinds stmts (h.proper_next hy) hstmts).mono (assigned_step condition body stmts)
        (List.Subset.refl _)
      refine ⟨h.step hs hl hy hstmts hz', ?_⟩
      rw [size_jump]
      exact (size_endBody y l).ge.trans ((size_enter _ _).ge.trans hz'.size_le)
  exact ⟨hy, hends.1, hends.2, hends.1.proper.enter (h.cond_lt.trans_le (hy.size_le.trans hends.2))⟩

/-- From the end of the body to the test, code gets longer where no block begins. -/
theorem Started.ends_kept {Q : BlockId → Prop} (h : Started s l pre symbols x) (hy : Rebinds symbols [] x y)
    {z : Builder} (hz : ReachesEnd l step y z) (hQ : ∀ b, Q b → b < y.size) (hnext : ¬ Q l.next) : Kept Q y z := by
  have hend : Kept Q y (y.endBody l) := kept_jump y.leaveLoop l.next
  cases hz with
  | plain => exact hend
  | @step stmts _ z' hstmts =>
    have hz' := lowerStmts_rebinds stmts (h.proper_next hy) hstmts
    refine ((hend.next (kept_enter _ hnext)).trans hz'.kept fun b hb => ?_).next (kept_jump z' l.cond)
    rw [size_enter, size_endBody]
    exact hQ b hb

/-- At the end of a loop, code gets longer but in the loop's own blocks. -/
theorem closeLoop_kept {Q : BlockId → Prop} {targets : List (Nat × Value)} (hx : (x.enter l.cond).Proper)
    (hQ : ∀ b, Q b → b < x.size) (hcond : ¬ Q l.cond) (hexit : ¬ Q l.exit) (hbody : ¬ Q l.body)
    (h : x.closeLoop l targets condition = .ok s') : x.size ≤ s'.size ∧ Kept Q x s' := by
  have htest : Kept Q x (x.enter l.cond) := kept_enter x hcond
  rcases closeLoop_cases hx h with ⟨-, rfl⟩ | ⟨hne, c, y, latch, z, h₁, -, h₂, rfl⟩
  · exact ⟨by rw [size_enter, size_enter], htest.next (kept_enter _ hexit)⟩
  · have hy := lowerExpr_silent condition hx (by rw [current_enter, if_neg hne]) h₁
    obtain ⟨-, -, -, -, hsize, hcode⟩ := closeHeader_frame targets h₂
    have hyz : Kept Q y z := .of_code fun b hb => hcode b fun heq => hbody (heq ▸ hb)
    have hxy : Kept Q x y := htest.trans hy.kept fun b hb => by
      rw [size_enter]
      exact hQ b hb
    refine ⟨?_, ((hxy.next hyz).next (kept_leaveFor z l latch c)).next (kept_enter _ hexit)⟩
    rw [size_enter, size_leaveFor, hsize]
    exact (size_enter x l.cond).ge.trans hy.size_le

theorem ReachesEnd.unique {z x₁ x₂ : Builder} (h₁ : ReachesEnd l step z x₁) (h₂ : ReachesEnd l step z x₂) :
    x₁ = x₂ := by
  cases h₁ with
  | plain => cases h₂ with
    | plain => rfl
  | step h => cases h₂ with
    | step h' => rw [Except.ok.inj (h.symm.trans h')]

/-! ### The head of a loop -/

variable {before inside after : Builder} {latch : BlockId}

/-- Where control goes back, the variables are bound, and those that the loop does not
assign to what they were bound to before it; and the head of the body is as it was. -/
theorem Round.keeps (hs : s.Proper) (hcur : s.current = some a)
    (h : Round condition body step s before inside after pre latch) :
    Silent condition s before ∧
      Started before (loopBlocks before.size step.isSome) pre (assignedBy (.while_ condition body step)) inside ∧
      Keeps (assignedBy (.while_ condition body step)) before.bindings after.bindings ∧
      before.size < after.size ∧ Kept (· = before.size) inside after := by
  obtain ⟨v, h₁, hinside⟩ := h.guard
  obtain ⟨z, x, c, h₂, hx, hne, h₃⟩ := h.turn
  have hsilent := lowerExpr_silent condition hs hcur h₁
  have hl := apart_loopBlocks before.size step.isSome
  obtain ⟨hbody, -⟩ := loopBlocks_lt before.size step.isSome
  obtain ⟨-, ho⟩ := started v (assignedBy (.while_ condition body step)) hsilent.proper h.pre step.isSome
  rw [← hinside] at ho
  set l := loopBlocks before.size step.isSome
  obtain ⟨hy, hend, hzx, -⟩ := ho.ends hsilent.proper hl h₂ hx
  have hle : inside.size ≤ x.size := hy.size_le.trans hzx
  have htest : Rebinds (assignedBy (.while_ condition body step)) [l.exit] before (x.enter l.cond) :=
    hend.enter hsilent.proper hl.cond_ge (ho.cond_lt.trans_le hle) fun b hb hb' => by
      simpa [hb'] using hb
  obtain ⟨b, hb⟩ := Option.ne_none_iff_exists'.mp hne
  have hafter := lowerExpr_silent condition htest.proper hb h₃
  have hlt : before.size < inside.size := hbody ▸ ho.proper.current _ ho.current
  refine ⟨hsilent, ho, hafter.bindings ▸ htest.through hne,
    hlt.trans_le (hle.trans ((size_enter x l.cond).ge.trans hafter.size_le)), ?_⟩
  -- the body is none of the blocks that begin on the way
  have hbegin : Kept (· = before.size) inside z := fun b hb => hy.kept b (hb ▸ hlt)
  have hkept : Kept (· = before.size) inside x := by
    refine hbegin.next (ho.ends_kept hy hx (fun b hb => hb ▸ hlt.trans_le hy.size_le) ?_)
    exact fun heq => hl.body_next (hbody.trans heq.symm)
  refine (hkept.next (kept_enter x ?_)).trans hafter.kept fun b hb => ?_
  · exact fun heq => hl.body_cond (hbody.trans heq.symm)
  · rw [size_enter]
    exact hb ▸ hlt.trans_le hle

theorem closedPhis_isPhi (pre latch : BlockId) (bindings : Bindings) (carried : List (Nat × Value)) (fresh : Nat) :
    ∀ i ∈ closedPhis pre latch bindings fresh carried, i.isPhi = true := by
  intro i hi
  obtain ⟨p, -, v, -, rfl⟩ := forall₂_mem_right (forall₂_closedPhis pre latch bindings carried fresh) i hi
  rfl

/-- Phis that code begins with are among those at its head. -/
theorem mem_takeWhile_of_phis {phis code : List Instr} (h : phis <+: code) (hphis : ∀ i ∈ phis, i.isPhi = true)
    {i : Instr} (hi : i ∈ phis) : i ∈ code.takeWhile Instr.isPhi := by
  obtain ⟨tail, rfl⟩ := h
  rw [List.takeWhile_append_of_pos hphis]
  exact List.mem_append_left _ hi

/-- When a loop is built, the phis at its head have both entries. -/
theorem Round.closed (hs : s.Proper) (hcur : s.current = some a)
    (h : lowerStmt (.while_ condition body step) s = .ok s')
    (hround : Round condition body step s before inside after pre latch) :
    before.size < s'.size ∧ closedPhis pre latch after.bindings before.count
      (before.carried (assignedBy (.while_ condition body step))) <+: s'.code before.size := by
  obtain ⟨-, ho, -, hlt, hkept⟩ := hround.keeps hs hcur
  obtain ⟨v, h₁, hinside⟩ := hround.guard
  obtain ⟨z, x, c, h₂, hx, hne, h₃⟩ := hround.turn
  -- the loop was built by the builders of the round
  obtain ⟨hsilent, -, z', x', h₂', hx', hclose⟩ := lowerStmt_loop hs hcur h₁ hround.pre h
  obtain ⟨hbody, -⟩ := loopBlocks_lt before.size step.isSome
  have hl := apart_loopBlocks before.size step.isSome
  rw [← hinside] at h₂'
  obtain rfl := Except.ok.inj (h₂.symm.trans h₂')
  obtain rfl := hx.unique hx'
  set l := loopBlocks before.size step.isSome
  obtain ⟨-, -, -, htest⟩ := ho.ends hsilent.proper hl h₂ hx
  rcases closeLoop_cases htest hclose with ⟨hnil, -⟩ | ⟨-, c', y, latch', w, h₃', hlatch, h₄, rfl⟩
  · rw [current_enter, if_pos hnil] at hne
    exact absurd rfl hne
  obtain ⟨rfl, rfl⟩ := ok_pair_inj (h₃.symm.trans h₃')
  obtain rfl := Option.some.inj (hround.latch.symm.trans hlatch)
  -- the phis at the head get their entries, and then the block only gets longer
  obtain ⟨tail, htail⟩ := hkept before.size rfl
  rw [← hbody] at hlt htail
  rw [ho.head] at htail
  obtain ⟨-, -, -, -, -, -, hsize, -, hcode⟩ := closeHeader_facts l.body pre latch tail _ before.count [] after w h₄ hlt
    htail.symm fun i hi => absurd hi List.not_mem_nil
  have hw := hcode l.body
  rw [if_pos rfl, List.nil_append] at hw
  have hexit : Kept (· = l.body) w ((w.leaveFor l latch c).enter l.exit) :=
    (kept_leaveFor w l latch c).next (kept_enter _ fun heq => hl.body_exit heq.symm)
  rw [← hbody]
  constructor
  · rw [size_enter, size_leaveFor, hsize]
    exact hlt
  · refine (List.prefix_append _ tail).trans ?_
    rw [← hw]
    exact hexit l.body rfl

/-- A variable that is bound before a loop is bound where control goes back to the body.
It has one value all the way, or there is a phi for it at the head of the body. -/
theorem loop_carries (hs : s.Proper) (hcur : s.current = some a)
    (hround : Round condition body step s before inside after pre latch) {j : Nat} {v : Value}
    (hv : s.bindings.get? j = some v) :
    ∃ w, after.bindings.get? j = some w ∧
      (inside.bindings.get? j = some v ∧ w = v ∨
        ∃ p, inside.bindings.get? j = some p ∧
          .phi p [(v, pre), (w, latch)] ∈ closedPhis pre latch after.bindings before.count
            (before.carried (assignedBy (.while_ condition body step)))) := by
  obtain ⟨hsilent, ho, hkeeps, -, -⟩ := hround.keeps hs hcur
  rw [← hsilent.bindings] at hv
  obtain ⟨⟨w, hw⟩, hsame⟩ := hkeeps j v hv
  refine ⟨w, hw, ?_⟩
  rw [ho.bindings]
  by_cases hj : j ∈ assignedBy (.while_ condition body step)
  · refine Or.inr ?_
    obtain ⟨p, hp⟩ := Bindings.subset_dom_rebind
      (headerTargets before.count (before.carried (assignedBy (.while_ condition body step)))) before.bindings ⟨v, hv⟩
    have hkey : j ∈ (headerTargets before.count
        (before.carried (assignedBy (.while_ condition body step)))).map Prod.fst := by
      rw [map_fst_headerTargets]
      exact List.mem_map.mpr ⟨(j, v), mem_carried_of_bound hv hj, rfl⟩
    have hmem := (get?_rebind _ _ j p hp).resolve_right fun hold => hold.2 hkey
    obtain ⟨i, hi, v', hv', rfl⟩ := forall₂_mem_right
      (forall₂_closedPhis pre latch after.bindings _ before.count).flip (j, p) hmem
    obtain rfl : v' = v := Option.some.inj ((mem_carried hv').1.symm.trans hv)
    rw [hw] at hi
    exact ⟨p, hp, hi⟩
  · refine Or.inl ⟨?_, Option.some.inj (hw.symm.trans (hsame hj))⟩
    rw [get?_rebind_of_notMem _ _ fun hmem => hj (mem_of_headerTargets hmem), hv]

end Loop

/-! ### Statements within statements -/

/-- One step down the tree: from statements and the builder that builds them to the rest
of them, or to the statements in the first of them, and the builder that builds those. -/
inductive StmtCalls : List Stmt × Builder → List Stmt × Builder → Prop
  | rest {stmt : Stmt} (rest : List Stmt) {s s₁ : Builder} {a : BlockId} (hcur : s.current = some a)
      (h : lowerStmt stmt s = .ok s₁) : StmtCalls (stmt :: rest, s) (rest, s₁)
  | block (body rest : List Stmt) {s : Builder} {a : BlockId} (hcur : s.current = some a) :
      StmtCalls (.block body :: rest, s) (body, s)
  | ifTrue {c : Expr} (t rest : List Stmt) {s s₁ : Builder} {a : BlockId} {v : Value} (hcur : s.current = some a)
      (h : lowerExpr c s = .ok (v, s₁)) :
      StmtCalls (.ifElse c t none :: rest, s) (t, (s₁.fork ifKinds v).enter s₁.size)
  | thenWay {c : Expr} (t e rest : List Stmt) {s s₁ : Builder} {a : BlockId} {v : Value} (hcur : s.current = some a)
      (h : lowerExpr c s = .ok (v, s₁)) :
      StmtCalls (.ifElse c t (some e) :: rest, s) (t, (s₁.fork ifElseKinds v).enter s₁.size)
  | elseWay {c : Expr} {t : List Stmt} (e rest : List Stmt) {s s₁ s₂ : Builder} {a : BlockId} {v : Value}
      (hcur : s.current = some a) (h : lowerExpr c s = .ok (v, s₁))
      (h' : lowerStmts t ((s₁.fork ifElseKinds v).enter s₁.size) = .ok s₂) :
      StmtCalls (.ifElse c t (some e) :: rest, s) (e, s₁.secondWay s₂)
  | loopBody {c : Expr} (body : List Stmt) (step : Option (List Stmt)) (rest : List Stmt) {s s₁ : Builder}
      {a pre : BlockId} {v : Value} (hcur : s.current = some a) (h : lowerExpr c s = .ok (v, s₁))
      (hpre : s₁.current = some pre) :
      StmtCalls (.while_ c body step :: rest, s)
        (body, (s₁.startLoop step.isSome pre v (assignedBy (.while_ c body step))).2)
  | loopStep {c : Expr} {body : List Stmt} (step rest : List Stmt) {s s₁ s₂ : Builder} {a pre : BlockId} {v : Value}
      (hcur : s.current = some a) (h : lowerExpr c s = .ok (v, s₁)) (hpre : s₁.current = some pre)
      (h' : lowerStmts body (s₁.startLoop true pre v (assignedBy (.while_ c body (some step)))).2 = .ok s₂) :
      StmtCalls (.while_ c body (some step) :: rest, s)
        (step, (s₂.endBody (loopBlocks s₁.size true)).enter (loopBlocks s₁.size true).next)

/-- The statements `stmts`, built at `r`, are part of what is built from `s` to `s'`:
what is built there is in the graph of `s'`. -/
structure Persists (stmts : List Stmt) (s r s' : Builder) : Prop where
  proper : r.Proper
  size_le : s.size ≤ r.size
  built : ∃ r', lowerStmts stmts r = .ok r' ∧ r'.size ≤ s'.size ∧ Kept (fun b => r.size ≤ b ∧ b < r'.size) r' s'

namespace Persists

variable {stmts stmts' : List Stmt} {s r q t s' r' : Builder}

theorem refl (hs : s.Proper) (h : lowerStmts stmts s = .ok s') : Persists stmts s s s' :=
  ⟨hs, le_rfl, s', h, le_rfl, .refl _ s'⟩

/-- A part of a part. -/
theorem trans (h : Persists stmts s r s') (hr : lowerStmts stmts r = .ok r') (h' : Persists stmts' r q r') :
    Persists stmts' s q s' := by
  obtain ⟨t, ht, hsize, hkept⟩ := h.built
  obtain rfl := Except.ok.inj (hr.symm.trans ht)
  obtain ⟨q', hq, hsize', hkept'⟩ := h'.built
  refine ⟨h'.proper, h.size_le.trans h'.size_le, q', hq, hsize'.trans hsize, hkept'.trans hkept ?_⟩
  rintro b ⟨hb, hb'⟩
  exact ⟨h'.size_le.trans hb, hb'.trans_le hsize'⟩

/-- The part of the first statement, when the rest is built too. -/
theorem first {stmt : Stmt} {rest : List Stmt} {a : BlockId} (hs : s.Proper) (hcur : s.current = some a)
    (h : lowerStmts (stmt :: rest) s = .ok s') (hstmt : ∀ {t}, lowerStmt stmt s = .ok t → Persists stmts s r t) :
    Persists stmts s r s' := by
  obtain ⟨t, ht, hrest⟩ := (lowerStmts_cons hcur).mp h
  obtain ⟨hproper, hle, r', hr, hsize, hkept⟩ := hstmt ht
  have hx := lowerStmts_rebinds rest (lowerStmt_rebinds stmt hs hcur ht).proper hrest
  exact ⟨hproper, hle, r', hr, hsize.trans hx.size_le, hkept.trans hx.kept fun b hb => hb.2.trans_le hsize⟩

end Persists

section Parts

variable {condition : Expr} {t e body : List Stmt} {step : Option (List Stmt)} {s s₁ s' : Builder} {a : BlockId}
  {v : Value}

section

variable (hs : s.Proper) (hcur : s.current = some a) (h₁ : lowerExpr condition s = .ok (v, s₁))

include hs hcur h₁

theorem persists_if (h : lowerStmt (.ifElse condition t none) s = .ok s') :
    Persists t s ((s₁.fork ifKinds v).enter s₁.size) s' := by
  obtain ⟨v', s₁', s₂, h₁', h₂, rfl⟩ := lowerStmt_if.mp h
  obtain ⟨rfl, rfl⟩ := ok_pair_inj (h₁.symm.trans h₁')
  have hx := lowerExpr_silent condition hs hcur h₁
  obtain ⟨b, hb, -⟩ := hx.current
  obtain ⟨hfirst, -⟩ := begins_first ifKinds v hx.proper hb (by decide)
  have hsize : ((s₁.fork ifKinds v).enter s₁.size).size = s₁.size + 2 := by
    rw [size_enter, size_fork hb]
    rfl
  refine ⟨hfirst.proper, ?_, s₂, h₂, ?_, (kept_jump s₂ _).next (kept_enter _ ?_)⟩
  · rw [hsize]
    exact hx.size_le.trans (Nat.le_add_right _ _)
  · rw [size_enter, size_jump]
  · rintro ⟨hle, -⟩
    rw [hsize] at hle
    omega

theorem persists_then (h : lowerStmt (.ifElse condition t (some e)) s = .ok s') :
    Persists t s ((s₁.fork ifElseKinds v).enter s₁.size) s' := by
  obtain ⟨v', s₁', s₂, s₃, h₁', h₂, h₃, rfl⟩ := lowerStmt_ifElse.mp h
  obtain ⟨rfl, rfl⟩ := ok_pair_inj (h₁.symm.trans h₁')
  have hx := lowerExpr_silent condition hs hcur h₁
  obtain ⟨b, hb, -⟩ := hx.current
  obtain ⟨hfirst, -⟩ := begins_first ifElseKinds v hx.proper hb (by decide)
  have hsize : ((s₁.fork ifElseKinds v).enter s₁.size).size = s₁.size + 3 := by
    rw [size_enter, size_fork hb]
    rfl
  have hy := lowerStmts_rebinds t hfirst.proper h₂
  have hz := lowerStmts_rebinds e (hy.second_proper hb) h₃
  have hle := hz.size_le
  rw [size_secondWay] at hle
  have hnot : ∀ k, k < 3 → ¬ (((s₁.fork ifElseKinds v).enter s₁.size).size ≤ (s₁.size + k : Nat) ∧
      (s₁.size + k : Nat) < s₂.size) := by
    rintro k hk ⟨hge, -⟩
    rw [hsize] at hge
    omega
  have hsecond : Kept (fun b => ((s₁.fork ifElseKinds v).enter s₁.size).size ≤ b ∧ b < s₂.size) s₂ s₃ := by
    refine ((kept_jump s₂ _).next (kept_enter _ (hnot 1 (by decide)))).trans hz.kept fun b hb' => ?_
    rw [size_secondWay]
    exact hb'.2
  refine ⟨hfirst.proper, ?_, s₂, h₂, ?_, (hsecond.next (kept_jump s₃ _)).next (kept_enter _ (hnot 2 (by decide)))⟩
  · rw [hsize]
    exact hx.size_le.trans (Nat.le_add_right _ _)
  · rw [size_enter, size_jump]
    exact hle

theorem persists_else {s₂ : Builder}
    (h₂ : lowerStmts t ((s₁.fork ifElseKinds v).enter s₁.size) = .ok s₂)
    (h : lowerStmt (.ifElse condition t (some e)) s = .ok s') : Persists e s (s₁.secondWay s₂) s' := by
  obtain ⟨v', s₁', s₂', s₃, h₁', h₂', h₃, rfl⟩ := lowerStmt_ifElse.mp h
  obtain ⟨rfl, rfl⟩ := ok_pair_inj (h₁.symm.trans h₁')
  obtain rfl := Except.ok.inj (h₂.symm.trans h₂')
  have hx := lowerExpr_silent condition hs hcur h₁
  obtain ⟨b, hb, -⟩ := hx.current
  obtain ⟨hfirst, -⟩ := begins_first ifElseKinds v hx.proper hb (by decide)
  have hy := lowerStmts_rebinds t hfirst.proper h₂
  have hsize : s₁.size + 3 ≤ s₂.size := Rebinds.size_of_first hb hy
  refine ⟨hy.second_proper hb, ?_, s₃, h₃, ?_, (kept_jump s₃ _).next (kept_enter _ ?_)⟩
  · rw [size_secondWay]
    exact hx.size_le.trans ((Nat.le_add_right _ _).trans hsize)
  · rw [size_enter, size_jump]
  · rintro ⟨hle, -⟩
    rw [size_secondWay] at hle
    omega

theorem persists_body {pre : BlockId} (hpre : s₁.current = some pre)
    (h : lowerStmt (.while_ condition body step) s = .ok s') :
    Persists body s (s₁.startLoop step.isSome pre v (assignedBy (.while_ condition body step))).2 s' := by
  obtain ⟨hsilent, ho, z, x, h₂, hx, hclose⟩ := lowerStmt_loop hs hcur h₁ hpre h
  obtain ⟨hy, -, hle, htest⟩ := ho.ends hsilent.proper (apart_loopBlocks s₁.size step.isSome) h₂ hx
  have hbody := ho.proper.current _ ho.current
  set inside := (s₁.startLoop step.isSome pre v (assignedBy (.while_ condition body step))).2
  have hnot : ∀ b, b < inside.size → ¬ (inside.size ≤ b ∧ b < z.size) := fun b hb hQ =>
    absurd hb (Nat.not_lt.mpr hQ.1)
  have hzx : Kept (fun b => inside.size ≤ b ∧ b < z.size) z x :=
    ho.ends_kept hy hx (fun b hb => hb.2) (hnot _ ho.next_lt)
  obtain ⟨hsize, hxs⟩ := closeLoop_kept (Q := fun b => inside.size ≤ b ∧ b < z.size) htest
    (fun b hb => hb.2.trans_le hle) (hnot _ ho.cond_lt) (hnot _ ho.exit_lt) (hnot _ hbody) hclose
  exact ⟨ho.proper, hsilent.size_le.trans ho.size_le, z, h₂, hle.trans hsize, hzx.next hxs⟩

theorem persists_step {stmts : List Stmt} {z : Builder} {pre : BlockId}
    (hpre : s₁.current = some pre)
    (h₂ : lowerStmts body (s₁.startLoop true pre v (assignedBy (.while_ condition body (some stmts)))).2 = .ok z)
    (h : lowerStmt (.while_ condition body (some stmts)) s = .ok s') :
    Persists stmts s ((z.endBody (loopBlocks s₁.size true)).enter (loopBlocks s₁.size true).next) s' := by
  obtain ⟨hsilent, ho, z', x, h₂', hx, hclose⟩ := lowerStmt_loop hs hcur h₁ hpre h
  obtain rfl := Except.ok.inj (h₂.symm.trans h₂')
  obtain ⟨hy, -, -, htest⟩ := ho.ends hsilent.proper (apart_loopBlocks s₁.size true) h₂ hx
  have hbody := ho.proper.current _ ho.current
  cases hx with
  | @step _ _ y hstmts =>
    set l := loopBlocks s₁.size true
    have hnext := ho.proper_next hy
    have hz := lowerStmts_rebinds stmts hnext hstmts
    have hsize : ((z.endBody l).enter l.next).size = z.size := by rw [size_enter, size_endBody]
    have hle : (s₁.startLoop true pre v (assignedBy (.while_ condition body (some stmts)))).2.size ≤
        ((z.endBody l).enter l.next).size := hsize ▸ hy.size_le
    have hnot : ∀ b, b < (s₁.startLoop true pre v (assignedBy (.while_ condition body (some stmts)))).2.size →
        ¬ (((z.endBody l).enter l.next).size ≤ b ∧ b < y.size) := fun b hb hQ =>
      absurd (hb.trans_le hle) (Nat.not_lt.mpr hQ.1)
    obtain ⟨hsize', hxs⟩ := closeLoop_kept (Q := fun b => ((z.endBody l).enter l.next).size ≤ b ∧ b < y.size) htest
      (fun b hb => by rw [size_jump]; exact hb.2) (hnot _ ho.cond_lt) (hnot _ ho.exit_lt) (hnot _ hbody) hclose
    rw [size_jump] at hsize'
    exact ⟨hnext, hsilent.size_le.trans (ho.size_le.trans hle), y, hstmts, hsize', (kept_jump y _).next hxs⟩

end

end Parts

/-- What is built one step down the tree is in the graph in the end. -/
theorem StmtCalls.persists {p q : List Stmt × Builder} {s' : Builder} (hcalls : StmtCalls p q) (hp : p.2.Proper)
    (h : lowerStmts p.1 p.2 = .ok s') : Persists q.1 p.2 q.2 s' := by
  cases hcalls with
  | rest rest hcur h₁ =>
    obtain ⟨s₁, h₁', h₂⟩ := (lowerStmts_cons hcur).mp h
    obtain rfl := Except.ok.inj (h₁.symm.trans h₁')
    have hx := lowerStmt_rebinds _ hp hcur h₁
    exact ⟨hx.proper, hx.size_le, s', h₂, le_rfl, .refl _ s'⟩
  | block body rest hcur =>
    refine .first hp hcur h fun ht => ?_
    rw [lowerStmt] at ht
    exact .refl hp ht
  | ifTrue t rest hcur h₁ => exact .first hp hcur h (persists_if hp hcur h₁)
  | thenWay t e rest hcur h₁ => exact .first hp hcur h (persists_then hp hcur h₁)
  | elseWay e rest hcur h₁ h₁' => exact .first hp hcur h (persists_else hp hcur h₁ h₁')
  | loopBody body step rest hcur h₁ hpre => exact .first hp hcur h (persists_body hp hcur h₁ hpre)
  | loopStep step rest hcur h₁ hpre h₁' => exact .first hp hcur h (persists_step hp hcur h₁ hpre h₁')

/-- What is built anywhere down the tree is in the graph in the end. -/
theorem calls_persist {p q : List Stmt × Builder} {s' : Builder} (hcalls : Relation.ReflTransGen StmtCalls p q)
    (hp : p.2.Proper) (h : lowerStmts p.1 p.2 = .ok s') : Persists q.1 p.2 q.2 s' := by
  induction hcalls with
  | refl => exact .refl hp h
  | tail _ hlast ih =>
    obtain ⟨r', hr, -⟩ := ih.built
    exact ih.trans hr (hlast.persists ih.proper hr)

/-- All builders that a function is built by are proper. -/
theorem proper_of_calls {f : Typed.Func} {stmts : List Stmt} {r s' : Builder}
    (h : lowerStmts f.body (Builder.start f) = .ok s')
    (hcalls : Relation.ReflTransGen StmtCalls (f.body, Builder.start f) (stmts, r)) : r.Proper :=
  (calls_persist hcalls (proper_start f) h).proper

/-- **Statements bind anew only what they assign.** If statements are built from a proper
builder, then where control goes on behind them, and on each edge that they make to a
target of the loop around them, every variable that was bound is bound, and to the same
value if `assigned` does not report it. Hence, in the graph in the end, a variable that is
bound before a loop in these statements has one value where the loop's body is entered
and where control goes back to it, or else a phi at the head of the body. -/
theorem lowerStmts_rebinds_assigned (stmts : List Stmt) {s s' : Builder} (hs : s.Proper)
    (h : lowerStmts stmts s = .ok s') :
    (s'.current ≠ none → Keeps (assigned stmts) s.bindings s'.bindings) ∧
      (∃ new, s'.pending = s.pending ++ new ∧
        ∀ e ∈ new, s.LoopTarget e.target ∧ Keeps (assigned stmts) s.bindings e.bindings) ∧
      ∀ condition body step rest r a,
        Relation.ReflTransGen StmtCalls (stmts, s) (.while_ condition body step :: rest, r) → r.current = some a →
        ∀ before inside after pre latch, Round condition body step r before inside after pre latch →
        ∀ j v, r.bindings.get? j = some v → ∃ w, after.bindings.get? j = some w ∧
          (inside.bindings.get? j = some v ∧ w = v ∨
            ∃ p, inside.bindings.get? j = some p ∧
              .phi p [(v, pre), (w, latch)] ∈ (s'.code before.size).takeWhile Instr.isPhi) := by
  have hx := lowerStmts_rebinds stmts hs h
  obtain ⟨new, hnew, hall⟩ := hx.edges
  refine ⟨hx.through, ⟨new, hnew, fun e he => (hall e he).imp_left fun ht => ht.resolve_right List.not_mem_nil⟩, ?_⟩
  intro condition body step rest r a hcalls hcur before inside after pre latch hround j v hv
  have hpersists := calls_persist hcalls hs h
  obtain ⟨r', hr', -, hkept⟩ := hpersists.built
  obtain ⟨t, ht, hrest⟩ := (lowerStmts_cons hcur).mp hr'
  obtain ⟨hsilent, -⟩ := hround.keeps hpersists.proper hcur
  obtain ⟨hlt, hclosed⟩ := hround.closed hpersists.proper hcur ht
  -- from the end of the loop on, its head only gets longer
  have ht' := lowerStmts_rebinds rest (lowerStmt_rebinds _ hpersists.proper hcur ht).proper hrest
  have hhead := (hclosed.trans (ht'.kept _ hlt)).trans (hkept _ ⟨hsilent.size_le, hlt.trans_le ht'.size_le⟩)
  obtain ⟨w, hw, hcase⟩ := loop_carries hpersists.proper hcur hround hv
  refine ⟨w, hw, hcase.imp_right ?_⟩
  rintro ⟨p, hp, hmem⟩
  exact ⟨p, hp, mem_takeWhile_of_phis hhead (closedPhis_isPhi _ _ _ _ _) hmem⟩

/-- A builder in the body of a loop, with two variables. -/
def insideLoop : Builder :=
  ⟨⟨"f", .int, false, 0,
      #[⟨0, "body", [.const ⟨0, .int⟩ 1, .const ⟨1, .int⟩ 9], [], []⟩, .empty 1 "cond", .empty 2 "exit"], 2⟩,
    some 0, [(7, ⟨0, .int⟩), (8, ⟨1, .int⟩)], [], [⟨1, 2⟩]⟩

theorem proper_insideLoop : insideLoop.Proper :=
  ⟨by decide, fun _ he => absurd he List.not_mem_nil, by decide, by simp [insideLoop, Bindings.Ascending, IdMap.keys],
    fun _ he => absurd he List.not_mem_nil⟩

/-- The condition of a loop that compares the two variables. -/
def smaller : Expr := .binary .lt (.var ⟨7, "x", .int⟩) (.var ⟨8, "y", .int⟩)

/-- The body of that loop, which assigns the first of them. -/
def doubling : List Stmt := [.assign ⟨7, "x", .int⟩ (.binary .add (.var ⟨7, "x", .int⟩) (.var ⟨7, "x", .int⟩))]

/-- That loop, and then a `break` of the loop around it. -/
def doublings : List Stmt := [.while_ smaller doubling none, .ifElse (.bool true) [.break_] none]

theorem lowerStmts_doublings : ((lowerStmts doublings insideLoop).toOption.map fun s' =>
    (s'.current.isSome, s'.pending.map Edge.target)) = some (true, [2]) := by
  decide +kernel

theorem round_doublings : ((lowerExpr smaller insideLoop).toOption.bind fun g => g.2.current.bind fun pre =>
    (lowerStmts doubling (g.2.startLoop false pre g.1 (assignedBy (.while_ smaller doubling none))).2).toOption.bind
      fun z =>
    (lowerExpr smaller ((z.endBody (loopBlocks g.2.size false)).enter (loopBlocks g.2.size false).cond)).toOption.bind
      fun k => k.2.current.map fun latch => (pre, latch, g.2.size,
        ((z.endBody (loopBlocks g.2.size false)).enter (loopBlocks g.2.size false).cond).current.isSome,
        (g.2.startLoop false pre g.1 (assignedBy (.while_ smaller doubling none))).2.bindings.get? 7)) =
    some (0, 4, 3, true, some ⟨3, .int⟩) := by
  decide +kernel

/-- Behind the statements and on the edge of the `break` the second variable is what it
was, and the loop's body, the block 3, begins with a phi for the first. -/
theorem doublings_rebinds : insideLoop.Proper ∧ ∃ s' e w, lowerStmts doublings insideLoop = .ok s' ∧
    s'.bindings.get? 8 = some ⟨1, .int⟩ ∧ e ∈ s'.pending ∧ e.target = 2 ∧ e.bindings.get? 8 = some ⟨1, .int⟩ ∧
    .phi ⟨3, .int⟩ [(⟨0, .int⟩, 0), (w, 4)] ∈ (s'.code 3).takeWhile Instr.isPhi := by
  refine ⟨proper_insideLoop, ?_⟩
  obtain ⟨s', hs', hedges⟩ := Option.map_eq_some_iff.mp lowerStmts_doublings
  obtain ⟨hcur, htargets⟩ := Prod.mk.inj hedges
  obtain ⟨hthrough, ⟨new, hnew, hall⟩, hloops⟩ :=
    lowerStmts_rebinds_assigned doublings proper_insideLoop (eq_ok_of_toOption hs')
  have hbound : insideLoop.bindings.get? 8 = some ⟨1, .int⟩ := rfl
  have hnot : 8 ∉ assigned doublings := by decide
  -- the edge of the `break`
  obtain ⟨e, he, htarget⟩ : ∃ e ∈ s'.pending, e.target = 2 := by
    have hmem : (2 : BlockId) ∈ s'.pending.map Edge.target := htargets ▸ List.mem_singleton_self _
    exact List.mem_map.mp hmem
  have hedge : e ∈ new := by
    rw [hnew] at he
    exact he
  -- the round of the loop
  obtain ⟨⟨g, before⟩, hg, hround⟩ := Option.bind_eq_some_iff.mp round_doublings
  obtain ⟨pre, hpre, hround⟩ := Option.bind_eq_some_iff.mp hround
  obtain ⟨z, hz, hround⟩ := Option.bind_eq_some_iff.mp hround
  obtain ⟨⟨c, after⟩, hc, hround⟩ := Option.bind_eq_some_iff.mp hround
  obtain ⟨latch, hlatch, htuple⟩ := Option.map_eq_some_iff.mp hround
  simp only [Prod.mk.injEq] at htuple
  obtain ⟨rfl, rfl, hsize, htest, hphi⟩ := htuple
  obtain ⟨w, -, hcase⟩ := hloops smaller doubling none _ insideLoop 0 .refl rfl before _ after 0 4
    ⟨⟨g, eq_ok_of_toOption hg, rfl⟩, hpre, ⟨z, _, c, eq_ok_of_toOption hz, .plain z rfl,
      Option.isSome_iff_ne_none.mp htest, eq_ok_of_toOption hc⟩, hlatch⟩ 7 ⟨0, .int⟩ rfl
  rcases hcase with ⟨hsame, -⟩ | ⟨p, hp, hmem⟩
  · cases hphi.symm.trans hsame
  · obtain rfl := Option.some.inj (hphi.symm.trans hp)
    rw [hsize] at hmem
    exact ⟨s', e, w, eq_ok_of_toOption hs', (hthrough (Option.isSome_iff_ne_none.mp hcur) 8 _ hbound).2 hnot, he,
      htarget, ((hall e hedge).2 8 _ hbound).2 hnot, hmem⟩

end Builder
end Chordal.Ssa
