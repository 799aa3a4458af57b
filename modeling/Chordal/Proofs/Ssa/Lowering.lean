/-
# What building a piece of a tree does

Building an expression or statements extends a flow graph: it writes on where
control is, in blocks of its own, and makes edges to the targets of the
innermost loop. An equation for each kind of piece names the builders it goes
through.

Key theorems: `Builder.lowerExpr_extends`, `Builder.lowerStmts_extends`.
-/
import Mathlib
import Chordal.Proofs.Finite
import Chordal.Proofs.Ssa.Stages

namespace Chordal.Ssa
namespace Builder

open Typed (Expr Stmt)

-- The equations of the recursion, made once before the proofs that rewrite with them.
attribute [local simp] lowerExpr lowerStmt lowerStmts closeHeader

/-! ### Expressions -/

section Expr

variable {s : Builder} {r : Value × Builder}

theorem lowerExpr_var {symbol : Typed.Symbol} : lowerExpr (.var symbol) s = .ok r ↔
    ∃ v, s.bindings.get? symbol.id = some v ∧ r = (v, s) := by
  rw [lowerExpr]
  cases s.bindings.get? symbol.id with
  | none => simp
  | some v => simp [eq_comm]

theorem lowerExpr_unary {op : UnaryOp} {operand : Expr} : lowerExpr (.unary op operand) s = .ok r ↔
    ∃ v s₁, lowerExpr operand s = .ok (v, s₁) ∧
      r = s₁.define operand.ty fun target => .unary target op v := by
  rw [lowerExpr, bind_pair_eq_ok]
  exact exists₂_congr fun _ _ => and_congr_right fun _ => ok_eq_ok

theorem lowerExpr_binary {op : BinaryOp} {left right : Expr} :
    lowerExpr (.binary op left right) s = .ok r ↔
      ∃ v s₁ w s₂, lowerExpr left s = .ok (v, s₁) ∧ lowerExpr right s₁ = .ok (w, s₂) ∧
        r = s₂.define (Expr.binary op left right).ty fun target => .binary target op v w := by
  rw [lowerExpr, bind_eq_ok]
  constructor
  · rintro ⟨⟨v, s₁⟩, h₁, h⟩
    obtain ⟨⟨w, s₂⟩, h₂, hr⟩ := bind_eq_ok.mp h
    exact ⟨v, s₁, w, s₂, h₁, h₂, (Except.ok.inj hr).symm⟩
  · rintro ⟨v, s₁, w, s₂, h₁, h₂, rfl⟩
    exact ⟨(v, s₁), h₁, bind_eq_ok.mpr ⟨(w, s₂), h₂, rfl⟩⟩

/-- The blocks of a conditional expression. -/
def ternaryKinds : List String := ["tern_true", "tern_false", "tern_merge"]

theorem fork_eq_three (s : Builder) (k₀ k₁ k₂ : String) (v : Value) :
    (((s.addBlock k₀).2.addBlock k₁).2.addBlock k₂).2.branch v (s.addBlock k₀).1
      ((s.addBlock k₀).2.addBlock k₁).1 = s.fork [k₀, k₁, k₂] v := by
  have h : ((s.addBlock k₀).2.addBlock k₁).1 = (s.size + 1 : Nat) := size_addBlock s k₀
  rw [h]
  rfl

theorem third_addBlock (s : Builder) (k₀ k₁ k₂ : String) :
    (((s.addBlock k₀).2.addBlock k₁).2.addBlock k₂).1 = (s.size + 2 : Nat) :=
  (size_addBlock (s.addBlock k₀).2 k₁).trans (congrArg (· + 1) (size_addBlock s k₀))

theorem lowerExpr_ternary {condition ifTrue ifFalse : Expr} :
    lowerExpr (.ternary condition ifTrue ifFalse) s = .ok r ↔
      ∃ c s₁ t s₂ e s₃, lowerExpr condition s = .ok (c, s₁) ∧
        lowerExpr ifTrue ((s₁.fork ternaryKinds c).enter s₁.size) = .ok (t, s₂) ∧
        lowerExpr ifFalse (s₁.secondWay s₂) = .ok (e, s₃) ∧
        r = (⟨((s₃.jump (s₁.size + 2 : Nat)).enter (s₁.size + 2 : Nat)).count, ifTrue.ty⟩,
          (s₃.jump (s₁.size + 2 : Nat)).enterPhi (s₁.size + 2 : Nat) ifTrue.ty
            (s₂.armEntry t ++ s₃.armEntry e)) := by
  rw [lowerExpr, bind_eq_ok]
  have hsnd : ∀ s₁ : Builder, ((s₁.addBlock "tern_true").2.addBlock "tern_false").1 = (s₁.size + 1 : Nat) :=
    fun s₁ => size_addBlock s₁ _
  constructor
  · rintro ⟨⟨c, s₁⟩, h₁, h⟩
    simp only [fork_eq_three, third_addBlock] at h
    obtain ⟨⟨t, s₂⟩, h₂, h⟩ := bind_eq_ok.mp h
    obtain ⟨⟨e, s₃⟩, h₃, hr⟩ := bind_eq_ok.mp h
    rw [hsnd] at h₃
    exact ⟨c, s₁, t, s₂, e, s₃, h₁, h₂, h₃, (Except.ok.inj hr).symm⟩
  · rintro ⟨c, s₁, t, s₂, e, s₃, h₁, h₂, h₃, rfl⟩
    refine ⟨(c, s₁), h₁, ?_⟩
    simp only [fork_eq_three, third_addBlock]
    exact bind_eq_ok.mpr ⟨(t, s₂), h₂, bind_eq_ok.mpr ⟨(e, s₃), by rw [hsnd]; exact h₃, rfl⟩⟩

end Expr

variable {s s' x : Builder} {b : BlockId}

/-- Defining a value extends the graph. -/
theorem define_extends {a : BlockId} {v : Value} {ty : Ty} {make : Value → Instr} (hs : s.Good)
    (hcur : s.current = some a) (hphi : ∀ t, (make t).isPhi = false)
    (hterm : ∀ t, (make t).isTerminator = false) (h : s.define ty make = (v, s')) :
    Extends (fun _ => False) s s' ∧ (∃ b, s'.current = some b) ∧ v.id < s'.count := by
  obtain rfl := congrArg Prod.fst h
  obtain rfl := congrArg Prod.snd h
  refine ⟨extends_define hs hcur ty make (hphi _) (hterm _), ⟨a, ?_⟩, ?_⟩
  · rw [define_snd hcur]
    exact hcur
  · rw [define_snd hcur]
    exact Nat.lt_succ_self _

/-- Building an expression extends the graph, control goes on from it, and its
value is one that is defined. -/
theorem lowerExpr_extends : ∀ (e : Expr) {s s' : Builder} {a : BlockId} {v : Value}, s.Good →
    s.current = some a → lowerExpr e s = .ok (v, s') →
      Extends (fun _ => False) s s' ∧ (∃ b, s'.current = some b) ∧ v.id < s'.count
  | .int value, s, s', a, v, hs, hcur, h | .bool value, s, s', a, v, hs, hcur, h => by
    rw [lowerExpr] at h
    exact define_extends hs hcur (fun _ => rfl) (fun _ => rfl) (Except.ok.inj h)
  | .var symbol, s, s', a, v, hs, hcur, h => by
    obtain ⟨w, hw, heq⟩ := lowerExpr_var.mp h
    obtain ⟨rfl, rfl⟩ := Prod.mk.inj heq
    exact ⟨.refl _ hs, ⟨a, hcur⟩, hs.bindings _ _ hw⟩
  | .unary op operand, s, s', a, v, hs, hcur, h => by
    obtain ⟨w, s₁, h₁, heq⟩ := lowerExpr_unary.mp h
    obtain ⟨hx, ⟨b, hb⟩, -⟩ := lowerExpr_extends operand hs hcur h₁
    obtain ⟨hd, hcur', hv⟩ := define_extends hx.good hb (fun _ => rfl) (fun _ => rfl) heq.symm
    exact ⟨hx.trans hd fun _ hf => hf.elim, hcur', hv⟩
  | .binary op left right, s, s', a, v, hs, hcur, h => by
    obtain ⟨w, s₁, w', s₂, h₁, h₂, heq⟩ := lowerExpr_binary.mp h
    obtain ⟨hx, ⟨b, hb⟩, -⟩ := lowerExpr_extends left hs hcur h₁
    obtain ⟨hy, ⟨b', hb'⟩, -⟩ := lowerExpr_extends right hx.good hb h₂
    obtain ⟨hd, hcur', hv⟩ := define_extends hy.good hb' (fun _ => rfl) (fun _ => rfl) heq.symm
    exact ⟨(hx.trans hy fun _ hf => hf.elim).trans hd fun _ hf => hf.elim, hcur', hv⟩
  | .ternary condition ifTrue ifFalse, s, s', a, v, hs, hcur, h => by
    obtain ⟨c, s₁, t, s₂, e, s₃, h₁, h₂, h₃, heq⟩ := lowerExpr_ternary.mp h
    obtain ⟨hx, ⟨b, hb⟩, -⟩ := lowerExpr_extends condition hs hcur h₁
    obtain ⟨hgoodA, hcurA, -⟩ := enter_fork_first ternaryKinds c hx.good hb (by decide)
    obtain ⟨hy, ⟨b₂, hb₂⟩, -⟩ := lowerExpr_extends ifTrue hgoodA hcurA h₂
    have hB := forked hx.good hb (fun _ hf => hf.elim) hy rfl
    obtain ⟨hz, ⟨b₃, hb₃⟩, -⟩ := lowerExpr_extends ifFalse hB.good hB.current h₃
    have hd := diamond hx.good hb (fun _ hf => hf.elim) hy rfl hz
    obtain ⟨rfl, rfl⟩ := Prod.mk.inj heq
    refine ⟨hx.trans (hd.join.extends_enterPhi hx.good _ _) fun _ hf => hf.elim,
      ⟨(s₁.size + 2 : Nat), ?_⟩, ?_⟩
    · rw [current_enterPhi, current_enter, hd.edges, if_neg]
      simp [exitEdge, hb₂]
    · rw [count_enterPhi]
      exact Nat.lt_succ_self _

/-! ### Statements -/

section Stmt

variable {s s' : Builder}

variable {value condition : Expr}

theorem assign_iff {symbol : Nat} : s.assign symbol value = .ok s' ↔
    ∃ v s₁, lowerExpr value s = .ok (v, s₁) ∧
      s' = (s₁.define v.ty fun target => .move target v).2.bind symbol ⟨s₁.count, v.ty⟩ := by
  rw [assign, bind_pair_eq_ok]
  exact exists₂_congr fun _ _ => and_congr_right fun _ => ok_eq_ok

/-- The blocks of a conditional statement. -/
def ifKinds : List String := ["then", "merge"]

/-- The blocks of a conditional statement with two arms. -/
def ifElseKinds : List String := ["then", "else", "merge"]

theorem lowerStmt_if {ifTrue : List Stmt} :
    lowerStmt (.ifElse condition ifTrue none) s = .ok s' ↔
      ∃ c s₁ s₂, lowerExpr condition s = .ok (c, s₁) ∧
        lowerStmts ifTrue ((s₁.fork ifKinds c).enter s₁.size) = .ok s₂ ∧
        s' = (s₂.jump (s₁.size + 1 : Nat)).enter (s₁.size + 1 : Nat) := by
  have hsnd : ∀ s₁ : Builder, ((s₁.addBlock "then").2.addBlock "merge").1 = (s₁.size + 1 : Nat) :=
    fun s₁ => size_addBlock s₁ _
  have hfork : ∀ (s₁ : Builder) (c : Value), ((s₁.addBlock "then").2.addBlock "merge").2.branch c
      (s₁.addBlock "then").1 (s₁.size + 1 : Nat) = s₁.fork ifKinds c := fun _ _ => rfl
  rw [lowerStmt, bind_eq_ok]
  constructor
  · rintro ⟨⟨c, s₁⟩, h₁, h⟩
    simp only [hsnd, hfork] at h
    obtain ⟨s₂, h₂, hr⟩ := bind_eq_ok.mp h
    exact ⟨c, s₁, s₂, h₁, h₂, (Except.ok.inj hr).symm⟩
  · rintro ⟨c, s₁, s₂, h₁, h₂, rfl⟩
    refine ⟨(c, s₁), h₁, ?_⟩
    simp only [hsnd, hfork]
    exact bind_eq_ok.mpr ⟨s₂, h₂, rfl⟩

theorem lowerStmt_ifElse {ifTrue ifFalse : List Stmt} :
    lowerStmt (.ifElse condition ifTrue (some ifFalse)) s = .ok s' ↔
      ∃ c s₁ s₂ s₃, lowerExpr condition s = .ok (c, s₁) ∧
        lowerStmts ifTrue ((s₁.fork ifElseKinds c).enter s₁.size) = .ok s₂ ∧
        lowerStmts ifFalse (s₁.secondWay s₂) = .ok s₃ ∧
        s' = (s₃.jump (s₁.size + 2 : Nat)).enter (s₁.size + 2 : Nat) := by
  have hsnd : ∀ s₁ : Builder, ((s₁.addBlock "then").2.addBlock "else").1 = (s₁.size + 1 : Nat) :=
    fun s₁ => size_addBlock s₁ _
  rw [lowerStmt, bind_eq_ok]
  constructor
  · rintro ⟨⟨c, s₁⟩, h₁, h⟩
    simp only [fork_eq_three, third_addBlock] at h
    obtain ⟨s₂, h₂, h⟩ := bind_eq_ok.mp h
    obtain ⟨s₃, h₃, hr⟩ := bind_eq_ok.mp h
    rw [hsnd] at h₃
    exact ⟨c, s₁, s₂, s₃, h₁, h₂, h₃, (Except.ok.inj hr).symm⟩
  · rintro ⟨c, s₁, s₂, s₃, h₁, h₂, h₃, rfl⟩
    refine ⟨(c, s₁), h₁, ?_⟩
    simp only [fork_eq_three, third_addBlock]
    exact bind_eq_ok.mpr ⟨s₂, h₂, bind_eq_ok.mpr ⟨s₃, by rw [hsnd]; exact h₃, rfl⟩⟩

theorem lowerStmt_return : lowerStmt (.return_ value) s = .ok s' ↔
    ∃ v s₁, lowerExpr value s = .ok (v, s₁) ∧ s' = { s₁.emit (.ret v) with current := none } := by
  rw [lowerStmt, bind_pair_eq_ok]
  exact exists₂_congr fun _ _ => and_congr_right fun _ => ok_eq_ok

theorem lowerStmt_expr : lowerStmt (.expr value) s = .ok s' ↔
    ∃ v, lowerExpr value s = .ok (v, s') := by
  rw [lowerStmt, bind_eq_ok]
  constructor
  · rintro ⟨⟨v, s₁⟩, h, hr⟩
    exact ⟨v, (Except.ok.inj hr) ▸ h⟩
  · rintro ⟨v, h⟩
    exact ⟨(v, s'), h, rfl⟩

theorem lowerStmt_break : lowerStmt .break_ s = .ok s' ↔
    ∃ l rest, s.loops = l :: rest ∧ s' = s.jump l.onBreak := by
  rw [lowerStmt]
  cases s.loops with
  | nil => simp
  | cons l rest => simp [eq_comm]

theorem lowerStmt_continue : lowerStmt .continue_ s = .ok s' ↔
    ∃ l rest, s.loops = l :: rest ∧ s' = s.jump l.onContinue := by
  rw [lowerStmt]
  cases s.loops with
  | nil => simp
  | cons l rest => simp [eq_comm]

theorem lowerStmts_cons {stmt : Stmt} {rest : List Stmt} {a : BlockId} (hcur : s.current = some a) :
    lowerStmts (stmt :: rest) s = .ok s' ↔
      ∃ s₁, lowerStmt stmt s = .ok s₁ ∧ lowerStmts rest s₁ = .ok s' := by
  rw [lowerStmts]
  simp only [hcur]
  exact bind_eq_ok

theorem lowerStmts_of_none (hcur : s.current = none) : ∀ l : List Stmt, lowerStmts l s = .ok s
  | [] => by rw [lowerStmts]
  | _ :: _ => by
    rw [lowerStmts]
    simp only [hcur]

theorem current_closeHeader {body latch : BlockId} : ∀ (targets : List (Nat × Value)) {s s' : Builder},
    closeHeader body latch targets s = .ok s' → s'.current = s.current
  | [], s, s', h => by
    rw [closeHeader] at h
    rw [Except.ok.inj h]
  | (symbol, _) :: rest, s, s', h => by
    rw [closeHeader] at h
    cases hget : s.bindings.get? symbol with
    | none => rw [hget] at h; cases h
    | some v =>
      rw [hget] at h
      have ih := current_closeHeader rest h
      exact ih

/-- What the end of a loop leads to: its test is not reached, or it is built and the phis
at the head of the loop get their second entries. -/
abbrev LoopClosed (l : LoopBlocks) (targets : List (Nat × Value)) (condition : Expr) (x s' : Builder) : Prop :=
  (x.edgesTo l.cond = [] ∧ s' = (x.enter l.cond).enter l.exit) ∨
  (x.edgesTo l.cond ≠ [] ∧ ∃ c y latch z, lowerExpr condition (x.enter l.cond) = .ok (c, y) ∧
    y.current = some latch ∧ closeHeader l.body latch targets y = .ok z ∧
    s' = (z.leaveFor l latch c).enter l.exit)

/-- The end of a loop, where control goes on from its test. -/
theorem closeLoop_iff_of_goes {x : Builder} {l : LoopBlocks} {targets : List (Nat × Value)}
    (hgoes : ∀ c y, (x.enter l.cond).current = some l.cond →
      lowerExpr condition (x.enter l.cond) = .ok (c, y) → ∃ latch, y.current = some latch) :
    x.closeLoop l targets condition = .ok s' ↔ LoopClosed l targets condition x s' := by
  unfold closeLoop LoopClosed
  by_cases hnil : x.edgesTo l.cond = []
  · have hcur : (x.enter l.cond).current = none := by rw [current_enter, if_pos hnil]
    simp only [hcur, hnil, true_and, ne_eq, not_true_eq_false, false_and, or_false]
    exact ⟨fun h => (Except.ok.inj h).symm, fun h => congrArg Except.ok h.symm⟩
  · have hcur : (x.enter l.cond).current = some l.cond := by rw [current_enter, if_neg hnil]
    simp only [hcur, hnil, false_and, ne_eq, not_false_eq_true, true_and, false_or]
    rw [bind_eq_ok]
    constructor
    · rintro ⟨⟨c, y⟩, h₁, h⟩
      obtain ⟨latch, hlatch⟩ := hgoes c y hcur h₁
      simp only [hlatch] at h
      obtain ⟨z, h₂, hr⟩ := bind_eq_ok.mp h
      refine ⟨c, y, latch, z, h₁, hlatch, h₂, ?_⟩
      rw [← branchLoop_eq ((current_closeHeader targets h₂).trans hlatch)]
      exact (Except.ok.inj hr).symm
    · rintro ⟨c, y, latch, z, h₁, hlatch, h₂, rfl⟩
      refine ⟨(c, y), h₁, ?_⟩
      simp only [hlatch]
      refine bind_eq_ok.mpr ⟨z, h₂, ?_⟩
      rw [← branchLoop_eq ((current_closeHeader targets h₂).trans hlatch)]
      rfl

theorem closeLoop_iff {x : Builder} {l : LoopBlocks} {targets : List (Nat × Value)}
    (hg : (x.enter l.cond).Good) :
    x.closeLoop l targets condition = .ok s' ↔ LoopClosed l targets condition x s' :=
  closeLoop_iff_of_goes fun _ _ hcur h => (lowerExpr_extends condition hg hcur h).2.1

/-- What a loop builds behind its first test: its body, its step if it has one, and its end. -/
abbrev LoopRest (condition : Expr) (body : List Stmt) :
    (step : Option (List Stmt)) → Value → BlockId → Builder → Builder → Prop
  | none, guard, pre, s₁, s' => ∃ s₂,
    lowerStmts body (s₁.startLoop false pre guard (assigned body)).2 = .ok s₂ ∧
    (s₂.endBody (loopBlocks s₁.size false)).closeLoop (loopBlocks s₁.size false)
      (s₁.startLoop false pre guard (assigned body)).1 condition = .ok s'
  | some step, guard, pre, s₁, s' => ∃ s₂ s₃,
    lowerStmts body (s₁.startLoop true pre guard (IdSet.union (assigned body) (assigned step))).2 = .ok s₂ ∧
    lowerStmts step ((s₂.endBody (loopBlocks s₁.size true)).enter (loopBlocks s₁.size true).next) = .ok s₃ ∧
    (s₃.jump (loopBlocks s₁.size true).cond).closeLoop (loopBlocks s₁.size true)
      (s₁.startLoop true pre guard (IdSet.union (assigned body) (assigned step))).1 condition = .ok s'

section Loop

variable {condition : Expr} {body : List Stmt} {step : Option (List Stmt)}

/-- Control does not go on from the condition of a loop, or the loop is built. -/
theorem lowerStmt_while_cases : lowerStmt (.while_ condition body step) s = .ok s' ↔
    ∃ guard s₁, lowerExpr condition s = .ok (guard, s₁) ∧ (s₁.current = none ∧ s' = s₁ ∨
      ∃ pre, s₁.current = some pre ∧ LoopRest condition body step guard pre s₁ s') := by
  cases step with
  | none | some step =>
    rw [lowerStmt, bind_eq_ok, Prod.exists]
    refine exists_congr fun guard => exists_congr fun s₁ => and_congr_right fun _ => ?_
    dsimp only
    cases s₁.current with
    | none => simp [pure, Except.pure, eq_comm]
    | some pre =>
      simp only [addLoopBlocks_eq, reduceCtorEq, false_and, false_or, Option.some.injEq, exists_eq_left',
        bind_eq_ok, LoopRest, exists_and_left]
      rfl

/-- A loop, where control goes on from its condition. -/
theorem lowerStmt_while_of_goes
    (hgoes : ∀ guard s₁, lowerExpr condition s = .ok (guard, s₁) → ∃ pre, s₁.current = some pre) :
    lowerStmt (.while_ condition body step) s = .ok s' ↔ ∃ guard s₁ pre, lowerExpr condition s = .ok (guard, s₁) ∧
      s₁.current = some pre ∧ LoopRest condition body step guard pre s₁ s' := by
  rw [lowerStmt_while_cases]
  constructor
  · rintro ⟨guard, s₁, h₁, ⟨hnone, -⟩ | ⟨pre, hpre, hrest⟩⟩
    · obtain ⟨pre, hpre⟩ := hgoes guard s₁ h₁
      cases hnone.symm.trans hpre
    · exact ⟨guard, s₁, pre, h₁, hpre, hrest⟩
  · rintro ⟨guard, s₁, pre, h₁, hpre, hrest⟩
    exact ⟨guard, s₁, h₁, Or.inr ⟨pre, hpre, hrest⟩⟩

theorem lowerStmt_while {a : BlockId} (hs : s.Good) (hcur : s.current = some a) :
    lowerStmt (.while_ condition body step) s = .ok s' ↔ ∃ guard s₁ pre, lowerExpr condition s = .ok (guard, s₁) ∧
      s₁.current = some pre ∧ LoopRest condition body step guard pre s₁ s' :=
  lowerStmt_while_of_goes fun _ _ h => (lowerExpr_extends condition hs hcur h).2.1

end Loop

end Stmt

/-! ### Statements extend the graph -/

theorem Extends.mono {free free' : BlockId → Prop} (h : Extends free s s')
    (hf : ∀ b, free b → free' b) : Extends free' s s' :=
  ⟨h.grows, ⟨h.near.size_le, h.near.code_eq, h.near.code_kept, h.near.current, h.near.edges_old,
    fun b hb hn => h.near.edges_same b hb fun hfb => hn (hf b hfb)⟩, h.good, h.loops, h.edges_new⟩

/-- Where the loops are the same, so are their targets. -/
theorem loopTarget_congr (h : x.loops = s.loops) (hb : x.LoopTarget b) : s.LoopTarget b := by
  unfold LoopTarget at hb ⊢
  rwa [h] at hb

theorem Extends.of_eq_loops {y : Builder} (h : Extends (LoopTarget x) x y)
    (hloops : x.loops = s.loops) : Extends (LoopTarget s) x y :=
  h.mono fun _ hb => loopTarget_congr hloops hb

theorem ret_eq (hcur : s.current = some b) (v : Value) :
    ({ s.emit (.ret v) with current := none } : Builder) = s.close b (.ret v) := by
  unfold emit close
  simp only [hcur]

/-- The copy that an assignment makes. -/
theorem define_move (s : Builder) (v : Value) : (s.define v.ty fun target => .move target v) =
    (⟨s.count, v.ty⟩, (s.define v.ty fun target => .move target v).2) := rfl

theorem assign_extends {a : BlockId} {symbol : Nat} {value : Expr} (hs : s.Good)
    (hcur : s.current = some a) (h : s.assign symbol value = .ok s') :
    Extends (fun _ => False) s s' := by
  obtain ⟨v, s₁, h₁, rfl⟩ := assign_iff.mp h
  obtain ⟨hx, ⟨b, hb⟩, -⟩ := lowerExpr_extends value hs hcur h₁
  obtain ⟨hd, -, hlt⟩ := define_extends hx.good hb (fun _ => rfl) (fun _ => rfl) (define_move s₁ v)
  exact (hx.trans hd fun _ hf => hf.elim).trans (extends_bind hd.good symbol _ hlt) fun _ hf => hf.elim

theorem Good.unbegun_target (hs : s.Good) (hb : s.LoopTarget b) : s.Unbegun b := by
  obtain ⟨l, hl, hb⟩ := hb
  obtain ⟨h₁, h₂⟩ := hs.loops l (List.mem_of_mem_head? hl)
  rcases hb with rfl | rfl
  · exact h₁
  · exact h₂

theorem jump_extends (hs : s.Good) (hb : s.LoopTarget b) : Extends (LoopTarget s) s (s.jump b) := by
  have hun := hs.unbegun_target hb
  refine ⟨grows_jump hs b, (Local.refl _ s).jump hs (Or.inr hb), good_jump hs hun, loops_jump s b, fun c hc => ?_⟩
  rw [edgesTo_jump_ne, hs.edgesTo_of_size_le hc]
  rintro rfl
  exact absurd hun.lt (Nat.not_lt.mpr hc)

/-- The end of a loop extends the graph from the loop's beginning on. -/
theorem closeLoop_extends {free : BlockId → Prop} {l : LoopBlocks} {pre : BlockId} {symbols : IdSet}
    {condition : Expr} (hs : s.Good) (hl : Apart l s.size) (hfree : ∀ c, free c → c < s.size)
    (ht : Turning free s l pre symbols l.cond x)
    (h : x.closeLoop l (headerTargets s.count (s.carried symbols)) condition = .ok s') :
    Extends free s s' ∧ Grows x s' := by
  have hg := ht.good_enter hs hl.cond_ge
  have hgrows := grows_enter ht.good ht.current ht.unbegun
  rcases (closeLoop_iff hg).mp h with ⟨hnil, rfl⟩ | ⟨hne, c, y, latch, z, h₁, hlatch, h₂, rfl⟩
  · have hj := joining_of_nil ht hs hl hfree hnil
    exact ⟨hj.extends_enter hs, hgrows.trans (grows_enter hj.good hj.current hj.unbegun)⟩
  · obtain ⟨hy, -, -⟩ := lowerExpr_extends condition hg (by rw [current_enter, if_neg hne]) h₁
    have hin := ht.extend hs hl hl.cond_ge hl.body_cond hl.cond_exit hfree (hy.mono fun _ hf => hf.elim)
    have hc := closed hin h₂
    have hj := joining_of_test hin hl hlatch hc c
    exact ⟨hj.extends_enter hs, hgrows.trans (hy.grows.trans (hc.grows.trans
      ((grows_leaveFor hc.good (hc.current.trans hlatch)).trans
        (grows_enter hj.good hj.current hj.unbegun))))⟩

theorem loopTarget_lt (hs : s.Good) (hb : s.LoopTarget b) : b < s.size :=
  (hs.unbegun_target hb).lt

theorem Extends.of_loops {s₁ : Builder} (hs : s.Good) (hx : Extends (fun _ => False) s s₁)
    (hy : Extends (LoopTarget s₁) s₁ s') : Extends (LoopTarget s) s s' := by
  have heq : ∀ b, LoopTarget s₁ b → LoopTarget s b := fun _ hb => loopTarget_congr hx.loops hb
  exact (hx.mono fun _ hf => hf.elim).trans hy fun b hb => ⟨heq b hb, loopTarget_lt hs (heq b hb)⟩

mutual

/-- Building a statement extends the graph. -/
theorem lowerStmt_extends : ∀ (stmt : Stmt) {s s' : Builder} {a : BlockId}, s.Good →
    s.current = some a → lowerStmt stmt s = .ok s' → Extends (LoopTarget s) s s'
  | .declare _ none, s, s', a, hs, hcur, h => by
    rw [lowerStmt] at h
    exact Except.ok.inj h ▸ .refl _ hs
  | .declare symbol (some init), s, s', a, hs, hcur, h
  | .assign symbol value, s, s', a, hs, hcur, h => by
    rw [lowerStmt] at h
    exact (assign_extends hs hcur h).mono fun _ hf => hf.elim
  | .ifElse condition ifTrue none, s, s', a, hs, hcur, h => by
    obtain ⟨c, s₁, s₂, h₁, h₂, rfl⟩ := lowerStmt_if.mp h
    obtain ⟨hx, ⟨b, hb⟩, -⟩ := lowerExpr_extends condition hs hcur h₁
    obtain ⟨hgood, -, -, hloops, -⟩ := enter_fork_first ifKinds c hx.good hb (by decide)
    have hy := (lowerStmts_extends ifTrue hgood h₂).of_eq_loops hloops
    have hd := detour hx.good hb rfl (fun _ => loopTarget_lt hx.good) hy
    exact .of_loops hs hx (hd.join.extends_enter hx.good)
  | .ifElse condition ifTrue (some ifFalse), s, s', a, hs, hcur, h => by
    obtain ⟨c, s₁, s₂, s₃, h₁, h₂, h₃, rfl⟩ := lowerStmt_ifElse.mp h
    obtain ⟨hx, ⟨b, hb⟩, -⟩ := lowerExpr_extends condition hs hcur h₁
    obtain ⟨hgood, -, -, hloops, -⟩ := enter_fork_first ifElseKinds c hx.good hb (by decide)
    have hy := (lowerStmts_extends ifTrue hgood h₂).of_eq_loops hloops
    have hf := forked hx.good hb (fun _ => loopTarget_lt hx.good) hy rfl
    have hz := (lowerStmts_extends ifFalse hf.good h₃).of_eq_loops hf.loops
    have hd := diamond hx.good hb (fun _ => loopTarget_lt hx.good) hy rfl hz
    exact .of_loops hs hx (hd.join.extends_enter hx.good)
  | .while_ condition body none, s, s', a, hs, hcur, h => by
    obtain ⟨guard, s₁, pre, h₁, hpre, s₂, h₂, h₃⟩ := (lowerStmt_while hs hcur).mp h
    obtain ⟨hx, -, -⟩ := lowerExpr_extends condition hs hcur h₁
    have hl := apart_loopBlocks s₁.size false
    have ho : Opened s₁ _ pre guard (assigned body) _ := opened hx.good hpre false
    have hy := lowerStmts_extends body ho.good h₂
    rw [startLoop_fst hx.good hpre] at h₃
    exact .of_loops hs hx
      (closeLoop_extends hx.good hl (fun _ => loopTarget_lt hx.good) (turning_body hl ho hy) h₃).1
  | .while_ condition body (some step), s, s', a, hs, hcur, h => by
    obtain ⟨guard, s₁, pre, h₁, hpre, s₂, s₃, h₂, h₃, h₄⟩ := (lowerStmt_while hs hcur).mp h
    obtain ⟨hx, -, -⟩ := lowerExpr_extends condition hs hcur h₁
    have hl := apart_loopBlocks s₁.size true
    have ho : Opened s₁ _ pre guard (IdSet.union (assigned body) (assigned step)) _ :=
      opened hx.good hpre true
    have hy := lowerStmts_extends body ho.good h₂
    have ht : Turning (LoopTarget s₁) s₁ _ pre _ _ _ := turning_body hl ho hy
    have hz := (lowerStmts_extends step (ht.good_enter hx.good hl.next_ge) h₃).of_eq_loops
      ((loops_enter _ _).trans ht.loops)
    rw [startLoop_fst hx.good hpre] at h₄
    exact .of_loops hs hx (closeLoop_extends hx.good hl (fun _ => loopTarget_lt hx.good)
      (turning_step ht hx.good hl (by simp [loopBlocks, LoopBlocks.next]) (fun _ => loopTarget_lt hx.good) hz) h₄).1
  | .break_, s, s', a, hs, hcur, h => by
    obtain ⟨l, rest, hl, rfl⟩ := lowerStmt_break.mp h
    exact jump_extends hs ⟨l, by rw [hl]; rfl, Or.inr rfl⟩
  | .continue_, s, s', a, hs, hcur, h => by
    obtain ⟨l, rest, hl, rfl⟩ := lowerStmt_continue.mp h
    exact jump_extends hs ⟨l, by rw [hl]; rfl, Or.inl rfl⟩
  | .return_ value, s, s', a, hs, hcur, h => by
    obtain ⟨v, s₁, h₁, rfl⟩ := lowerStmt_return.mp h
    obtain ⟨hx, ⟨b, hb⟩, -⟩ := lowerExpr_extends value hs hcur h₁
    rw [ret_eq hb]
    exact (hx.trans (extends_close hx.good hb (.ret v) rfl) fun _ hf => hf.elim).mono fun _ hf => hf.elim
  | .block body, s, s', a, hs, hcur, h => by
    rw [lowerStmt] at h
    exact lowerStmts_extends body hs h
  | .expr value, s, s', a, hs, hcur, h => by
    obtain ⟨v, h₁⟩ := lowerStmt_expr.mp h
    exact (lowerExpr_extends value hs hcur h₁).1.mono fun _ hf => hf.elim

/-- Building statements extends the graph. -/
theorem lowerStmts_extends : ∀ (stmts : List Stmt) {s s' : Builder}, s.Good →
    lowerStmts stmts s = .ok s' → Extends (LoopTarget s) s s'
  | [], s, s', hs, h => by
    rw [lowerStmts] at h
    exact Except.ok.inj h ▸ .refl _ hs
  | stmt :: rest, s, s', hs, h => by
    cases hcur : s.current with
    | none =>
      rw [lowerStmts_of_none hcur] at h
      exact Except.ok.inj h ▸ .refl _ hs
    | some a =>
      obtain ⟨s₁, h₁, h₂⟩ := (lowerStmts_cons hcur).mp h
      have hx := lowerStmt_extends stmt hs hcur h₁
      exact hx.trans ((lowerStmts_extends rest hx.good h₂).of_eq_loops hx.loops)
        fun c hc => ⟨hc, loopTarget_lt hs hc⟩

end

end Builder
end Chordal.Ssa
