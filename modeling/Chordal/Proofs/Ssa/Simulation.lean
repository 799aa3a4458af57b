/-
# A built graph runs as its tree does

Where a builder was, a run of the finished graph does what the tree that was
built there does: it gets to where the builder was when it had built it, with
the variables as the tree leaves them, or takes an edge to the target of a
`break` or `continue`, or stops with the result of the tree. It makes at least as
many steps as loops of the tree make rounds, so a tree that runs forever is built
as a graph that does.

Key definitions: `Outcome`, `Valued`.
Key theorems: `lowerExpr_runs`, `loop_runs`, `lowerStmts_runs`.
-/
import Mathlib
import Chordal.Proofs.Ssa.Assigned
import Chordal.Proofs.Ssa.Joins

namespace Chordal.Ssa

open Builder
open Typed (Vars Stop Exit Expr Stmt execAll_isStep simpleStepsAll_of_isStep)

/-! ### Outcomes -/

/-- A run comes to a stop for this cause. -/
def StopsFor (F : Func) (x : State) : Stop → Prop
  | .division fault => Halts F x (.error (.division fault))
  | .unassigned _ => False

/-- What a run does where an expression has this value. -/
def Valued (F : Func) (bound : Nat) (x : State) (P : Word → State → Prop) : Except Stop Word → Prop
  | .ok w => Reach F bound x (P w)
  | .error e => StopsFor F x e

/-- What a run does where statements are left in this way. A run without an end
makes at least `fuel` steps. -/
def Outcome (F : Func) (bound fuel : Nat) (x : State) (onNext onBreak onContinue : Vars → State → Prop) :
    Option Exit → Prop
  | none => ∃ n x', fuel ≤ n ∧ F.Steps n x x'
  | some (.next σ) => Reach F bound x (onNext σ)
  | some (.broke σ) => Reach F bound x (onBreak σ)
  | some (.continued σ) => Reach F bound x (onContinue σ)
  | some (.returned w) => Halts F x (.ok w)
  | some (.stopped e) => StopsFor F x e

section Outcome

variable {F : Func} {bound fuel n : Nat} {x y : State} {P P' Q Q' R R' : Vars → State → Prop}

theorem StopsFor.prepend {e : Stop} (hxy : F.Steps n x y) (h : StopsFor F y e) : StopsFor F x e := by
  cases e with
  | division => exact Halts.prepend hxy h
  | unassigned => exact h

theorem Reach.prepend {P : State → Prop} (hxy : F.Steps n x y)
    (hk : Store.Keeps bound x.store y.store) (h : Reach F bound y P) : Reach F bound x P := by
  obtain ⟨m, z, hm, hk', hz⟩ := h
  exact ⟨n + m, z, hxy.trans hm, hk.trans hk' le_rfl, hz⟩

variable {r : Option Exit} {bound' : Nat} {c : Except Stop Word}

/-- The steps that lead to a place count. -/
theorem Outcome.advance {fuel' : Nat} (hxy : F.Steps n x y) (hk : Store.Keeps bound x.store y.store)
    (h : Outcome F bound fuel y P Q R r) (hle : fuel' ≤ n + fuel) : Outcome F bound fuel' x P Q R r := by
  match r with
  | none =>
    obtain ⟨m, z, hm, hz⟩ := h
    exact ⟨n + m, z, by omega, hxy.trans hz⟩
  | some (.next σ) => exact Reach.prepend hxy hk h
  | some (.broke σ) => exact Reach.prepend hxy hk h
  | some (.continued σ) => exact Reach.prepend hxy hk h
  | some (.returned w) => exact Halts.prepend hxy h
  | some (.stopped e) => exact StopsFor.prepend hxy h

/-- Where each way goes on to another place. -/
theorem Outcome.imp (h : Outcome F bound' fuel x P Q R r) (hle : bound ≤ bound')
    (hP : ∀ σ y, P σ y → Reach F bound y (P' σ)) (hQ : ∀ σ y, Q σ y → Reach F bound y (Q' σ))
    (hR : ∀ σ y, R σ y → Reach F bound y (R' σ)) : Outcome F bound fuel x P' Q' R' r := by
  match r with
  | none => exact h
  | some (.next σ) => exact (Reach.mono h hle).bind le_rfl (hP σ)
  | some (.broke σ) => exact (Reach.mono h hle).bind le_rfl (hQ σ)
  | some (.continued σ) => exact (Reach.mono h hle).bind le_rfl (hR σ)
  | some (.returned w) => exact h
  | some (.stopped e) => exact h

/-- A round of a loop: from the end of its body and from a `continue` its step is run. -/
theorem Outcome.round {body step : Vars → Option Exit} {σ : Vars}
    (h : Outcome F bound fuel x P Q P (body σ))
    (hs : ∀ σ y, P σ y → Outcome F bound fuel y P' Q' R' (step σ)) (hQ : ∀ σ y, Q σ y → Q' σ y) :
    Outcome F bound fuel x P' Q' R' (Typed.round body step σ) := by
  unfold Typed.round
  match hbd : body σ with
  | some (.next σ₁) | some (.continued σ₁) =>
    rw [hbd] at h
    obtain ⟨n, y, hn, hk, hy⟩ := h
    exact (hs σ₁ y hy).advance hn hk (by omega)
  | some (.broke σ₁) =>
    rw [hbd] at h
    exact Reach.bind h le_rfl fun y hy => .refl (hQ σ₁ y hy)
  | none | some (.returned _) | some (.stopped _) =>
    rw [hbd] at h
    exact h

/-- An expression follows a place that is reached. -/
theorem Valued.of_reach {T : State → Prop} {P : Word → State → Prop} (h : Reach F bound x T)
    (hle : bound ≤ bound') (hc : ∀ y, T y → Valued F bound' y P c) : Valued F bound x P c := by
  cases c with
  | error e =>
    obtain ⟨n, y, hn, -, hy⟩ := h
    exact StopsFor.prepend hn (hc y hy)
  | ok w => exact h.bind hle hc

/-- Where an expression's value is used for another place. -/
theorem Valued.imp {P P' : Word → State → Prop} (h : Valued F bound' x P c) (hle : bound ≤ bound')
    (hP : ∀ w y, P w y → Reach F bound y (P' w)) : Valued F bound x P' c := by
  cases c with
  | error e => exact h
  | ok w => exact (Reach.mono h hle).bind le_rfl (hP w)

/-- Statements follow a place that is reached. -/
theorem Outcome.of_reach {T : State → Prop} (h : Reach F bound x T)
    (hr : ∀ y, T y → Outcome F bound fuel y P Q R r) : Outcome F bound fuel x P Q R r := by
  obtain ⟨n, y, hn, hk, hy⟩ := h
  exact (hr y hy).advance hn hk (by omega)

/-- A condition sends the run one of two ways. -/
theorem Valued.choose {T : Word → State → Prop} {t e : Option Exit} (h : Valued F bound x T c)
    (hk : ∀ w y, T w y → Outcome F bound fuel y P Q R (if w != 0 then t else e)) :
    Outcome F bound fuel x P Q R (Typed.choose c t e) := by
  unfold Typed.choose
  cases c with
  | error e => exact h
  | ok w => exact Outcome.of_reach h (hk w)

end Outcome

/-! ### Expressions -/

section Expr

variable {s s' sN : Builder} {σ : Vars} {x : State} {v : Value}

section

variable {make : Value → Instr} {ty : Ty} (hs : s.Good) (hx : Here sN.func s σ x)
  (hphi : ∀ t, (make t).isPhi = false) (hdef : s.define ty make = (v, s')) (hg : Grows s' sN)

include hs hx hphi hdef hg

/-- A definition is read where it was written. -/
theorem Here.fetch_define :
    x = ⟨x.block, make v :: (sN.func.code x.block).drop (s'.code x.block).length, x.store⟩ := by
  obtain rfl := congrArg Prod.fst hdef
  obtain rfl := congrArg Prod.snd hdef
  have hcode := code_define hs hx.current ty make x.block
  rw [if_pos rfl] at hcode
  exact hx.fetch hx.current hg hcode (hphi _)

/-- A definition is run where it was written. -/
theorem Here.define {w : Word}
    (hstep : ∀ rest, sN.func.step x.block x.store rest (make v) =
      .ok (.state ⟨x.block, rest, x.store.write v w⟩)) :
    Reach sN.func s.count x fun y => Here sN.func s' σ y ∧ y.store.get? v.id = some w := by
  have hone := Func.Steps.one (hstep ((sN.func.code x.block).drop (s'.code x.block).length))
  rw [← hx.fetch_define hs hphi hdef hg] at hone
  have hv : v.id = s.count := congrArg (fun p => p.1.id) hdef.symm
  have hs' : s' = (s.define ty make).2 := congrArg Prod.snd hdef.symm
  rw [define_snd hx.current] at hs'
  refine ⟨1, _, hone, Store.keeps_write _ _ _ hv.ge, ⟨?_, rfl, ?_⟩, ?_⟩
  · rw [hs']
    exact hx.current
  · have hbind : s'.bindings = s.bindings := by rw [hs']
    rw [hbind]
    exact hx.vars.keeps hs.bindings (Store.keeps_write _ _ _ hv.ge)
  · exact (Store.get?_write ..).trans (if_pos rfl)

end

section

variable {kinds : List String} {w : Word} (hs : s.Good) (hx : Here sN.func s σ x)
  (hk : 2 ≤ kinds.length) (hg : Grows ((s.fork kinds v).enter s.size) sN)
  (hw : x.store.get? v.id = some w)

include hs hx hk hg hw

/-- Control leaves a fork for its first block. -/
theorem Here.fork_first (hne : (w != 0) = true) :
    ∃ y, sN.func.Steps 1 x y ∧ Store.Keeps s.count x.store y.store ∧
      Here sN.func ((s.fork kinds v).enter s.size) σ y := by
  have hcur := hx.current
  have hgood := good_fork kinds v hs hcur hk
  have hun : (s.fork kinds v).Unbegun s.size := unbegun_fork kinds v hs hcur (i := 0) (by omega)
  have hedge := hx.atEdge_branch hcur ((grows_enter hgood (current_fork kinds v hcur) hun).trans hg)
    (code_fork kinds v hs hcur) hw
  rw [if_pos hne] at hedge
  have hmem : ⟨x.block, s.size, s.bindings⟩ ∈ (s.fork kinds v).edgesTo s.size := by
    have := edgesTo_fork kinds v hs hcur 0
    rw [Nat.add_zero] at this
    rw [this]
    exact List.mem_singleton_self _
  obtain ⟨y, hstep, hkeep, hy⟩ := Arrives.enter hgood hun hg ⟨_, hmem, hedge, hx.vars⟩
  exact ⟨y, hstep, hkeep.mono (grows_fork kinds v hs hcur).count_le, hy⟩

/-- Control is about to leave a fork for its second block. -/
theorem Here.fork_second (hne : ¬ (w != 0) = true) :
    sN.func.AtEdge x x.block (s.size + 1 : Nat) := by
  have hcur := hx.current
  have hun : (s.fork kinds v).Unbegun s.size := unbegun_fork kinds v hs hcur (i := 0) (by omega)
  have hedge := hx.atEdge_branch hcur
    ((grows_enter (good_fork kinds v hs hcur hk) (current_fork kinds v hcur) hun).trans hg)
    (code_fork kinds v hs hcur) hw
  rwa [if_neg hne] at hedge

end

/-- The second way of a fork begins where control leaves for its second block. -/
theorem Builder.Forked.enter {free : BlockId → Prop} {a : BlockId} {y : Builder} (hf : Forked free s a y)
    (hg : Grows (s.secondWay y) sN) (hcount : s.count ≤ y.count)
    (hedge : sN.func.AtEdge x a (s.size + 1 : Nat)) (hvars : Consistent s.bindings σ x.store) :
    ∃ z, sN.func.Steps 1 x z ∧ Store.Keeps s.count x.store z.store ∧
      Here sN.func (s.secondWay y) σ z := by
  have hmem : ⟨a, (s.size + 1 : Nat), s.bindings⟩ ∈
      (y.jump (s.size + 2 : Nat)).edgesTo (s.size + 1 : Nat) := by
    rw [hf.edge]
    exact List.mem_singleton_self _
  obtain ⟨z, hstep, hkeep, hz⟩ := Arrives.enter hf.before hf.second hg ⟨_, hmem, hedge, hvars⟩
  have hle : s.count ≤ (y.jump (s.size + 2 : Nat)).count := by rwa [count_jump]
  exact ⟨z, hstep, hkeep.mono hle, hz⟩

/-- A built expression is run to its value. -/
theorem lowerExpr_runs : ∀ (e : Expr) {s s' : Builder} {v : Value} {σ : Vars} {x : State}, s.Good →
    Here sN.func s σ x → lowerExpr e s = .ok (v, s') → Grows s' sN →
      Valued sN.func s.count x (fun w y => Here sN.func s' σ y ∧ y.store.get? v.id = some w) (e.eval σ)
  | .int value, s, s', v, σ, x, hs, hx, h, hg | .bool value, s, s', v, σ, x, hs, hx, h, hg => by
    rw [lowerExpr] at h
    exact hx.define hs (fun _ => rfl) (Except.ok.inj h) hg fun _ => rfl
  | .var symbol, s, s', v, σ, x, hs, hx, h, hg => by
    obtain ⟨u, hu, heq⟩ := lowerExpr_var.mp h
    obtain ⟨rfl, rfl⟩ := Prod.mk.inj heq
    obtain ⟨w, hσ, hw⟩ := hx.vars _ _ hu
    rw [Expr.eval, hσ]
    exact .refl ⟨hx, hw⟩
  | .unary op operand, s, s', v, σ, x, hs, hx, h, hg => by
    obtain ⟨u, s₁, h₁, heq⟩ := lowerExpr_unary.mp h
    obtain ⟨hy, ⟨b, hb⟩, -⟩ := lowerExpr_extends operand hs hx.current h₁
    have hd := (define_extends hy.good hb (fun _ => rfl) (fun _ => rfl) heq.symm).1
    have ih := lowerExpr_runs operand hs hx h₁ (hd.grows.trans hg)
    rw [Expr.eval]
    cases hc : operand.eval σ with
    | error e => rwa [hc] at ih
    | ok w =>
      rw [hc] at ih
      refine Valued.of_reach ih hy.grows.count_le fun y hyw => ?_
      refine hyw.1.define hy.good (fun _ => rfl) heq.symm hg fun rest => ?_
      rw [Func.step, Store.read_eq_ok hyw.2]
      rfl
  | .binary op left right, s, s', v, σ, x, hs, hx, h, hg => by
    obtain ⟨u, s₁, u', s₂, h₁, h₂, heq⟩ := lowerExpr_binary.mp h
    obtain ⟨hy, ⟨b, hb⟩, hu⟩ := lowerExpr_extends left hs hx.current h₁
    obtain ⟨hz, ⟨b', hb'⟩, -⟩ := lowerExpr_extends right hy.good hb h₂
    have hg₂ := (define_extends hz.good hb' (fun _ => rfl) (fun _ => rfl) heq.symm).1.grows.trans hg
    have ih := lowerExpr_runs left hs hx h₁ (hz.grows.trans hg₂)
    rw [Expr.eval]
    cases hl : left.eval σ with
    | error e => rwa [hl] at ih
    | ok l =>
      rw [hl] at ih
      refine Valued.of_reach ih hy.grows.count_le fun y hyl => ?_
      have ih' := lowerExpr_runs right hy.good hyl.1 h₂ hg₂
      cases hr : right.eval σ with
      | error e => rwa [hr] at ih'
      | ok r =>
        rw [hr] at ih'
        -- the left operand keeps its value while the right one is found
        obtain ⟨n, z, hn, hk, hzr⟩ := ih'
        have hzl : z.store.get? u.id = some l := (hk u.id hu).trans hyl.2
        refine Valued.of_reach ⟨n, z, hn, hk, rfl⟩ hz.grows.count_le fun z' hz' => ?_
        subst hz'
        cases ha : op.apply l r with
        | ok w =>
          simp only [ha]
          refine hzr.1.define hz.good (fun _ => rfl) heq.symm hg fun rest => ?_
          rw [Func.step, Store.read_eq_ok hzl, Store.read_eq_ok hzr.2]
          dsimp only [Bind.bind, Except.bind]
          rw [ha]
          rfl
        | error fault =>
          simp only [ha]
          have hfetch := hzr.1.fetch_define hz.good (fun _ => rfl) heq.symm hg
          refine ⟨0, z, .refl _, _, _, congrArg State.code hfetch, Or.inr ⟨_, ?_, rfl⟩⟩
          rw [Func.step, Store.read_eq_ok hzl, Store.read_eq_ok hzr.2]
          dsimp only [Bind.bind, Except.bind]
          rw [ha]
  | .ternary condition ifTrue ifFalse, s, s', v, σ, x, hs, hx, h, hg => by
    obtain ⟨c, s₁, t, s₂, e, s₃, h₁, h₂, h₃, heq⟩ := lowerExpr_ternary.mp h
    obtain ⟨hx₁, ⟨b, hb⟩, -⟩ := lowerExpr_extends condition hs hx.current h₁
    obtain ⟨hgoodA, hcurA, -, -, hgrowsA⟩ := enter_fork_first ternaryKinds c hx₁.good hb (by decide)
    obtain ⟨hy, ⟨b₂, hb₂⟩, -⟩ := lowerExpr_extends ifTrue hgoodA hcurA h₂
    have hf := forked hx₁.good hb (fun _ hf => hf.elim) hy rfl
    obtain ⟨hz, ⟨b₃, hb₃⟩, -⟩ := lowerExpr_extends ifFalse hf.good hf.current h₃
    have hd := diamond hx₁.good hb (fun _ hf => hf.elim) hy rfl hz
    obtain ⟨rfl, rfl⟩ := Prod.mk.inj heq
    -- what is built from each stage on is there at the end
    have hg₅ := (grows_enterPhi _ _ hd.join.good hd.join.current hd.join.unbegun).trans hg
    have hg₄ := hd.grows.trans hg₅
    have hg₃ := hf.grows.trans (hz.grows.trans hg₄)
    have hg₂ := hy.grows.trans hg₃
    have hgJ : Grows (s₂.jump (s₁.size + 2 : Nat)) sN :=
      (grows_enter hf.before (current_jump _ _) hf.second).trans (hz.grows.trans hg₄)
    have ih := lowerExpr_runs condition hs hx h₁ (hgrowsA.trans hg₂)
    rw [Expr.eval]
    cases hc : condition.eval σ with
    | error e => rwa [hc] at ih
    | ok w =>
      rw [hc] at ih
      refine Valued.of_reach ih hx₁.grows.count_le fun y hyw => ?_
      simp only
      split_ifs with hne
      · -- the first arm
        obtain ⟨z, hstep, hk, hz₁⟩ := hyw.1.fork_first hx₁.good (by decide) hg₂ hyw.2 hne
        refine Valued.of_reach ⟨1, z, hstep, hk, hz₁⟩ le_rfl fun z hz₁ => ?_
        refine (lowerExpr_runs ifTrue hgoodA hz₁ h₂ hg₃).imp hgrowsA.count_le fun u p hp => ?_
        obtain rfl : p.block = b₂ := Option.some.inj (hp.1.current.symm.trans hb₂)
        have hle : s₁.count ≤ (s₃.jump (s₁.size + 2 : Nat)).count := hd.join.grows.count_le
        obtain ⟨q, hq, hkq, hhere, hval⟩ := enterPhi_edge hd.join.good hd.join.unbegun hg
          (e := ⟨p.block, (s₁.size + 2 : Nat), s₂.bindings⟩) (p := (t, p.block))
          (by rw [hd.edges]; exact List.mem_append_left _ hp.1.mem_exitEdge)
          (hp.1.atEdge_jump hy.good hgJ) hp.1.vars (by simp [armEntry, hb₂]) hp.2
        exact ⟨1, q, hq, hkq.mono hle, hhere, hval⟩
      · -- the second arm
        have hedge := hyw.1.fork_second hx₁.good (by decide) hg₂ hyw.2 hne
        obtain rfl : y.block = b := Option.some.inj (hyw.1.current.symm.trans hb)
        obtain ⟨z, hstep, hk, hz₁⟩ := hf.enter (hz.grows.trans hg₄)
          (hgrowsA.count_le.trans hy.grows.count_le) hedge hyw.1.vars
        refine Valued.of_reach ⟨1, z, hstep, hk, hz₁⟩ le_rfl fun z hz₁ => ?_
        refine (lowerExpr_runs ifFalse hf.good hz₁ h₃ hg₄).imp
          (hgrowsA.count_le.trans (hy.grows.count_le.trans hf.grows.count_le)) fun u p hp => ?_
        obtain rfl : p.block = b₃ := Option.some.inj (hp.1.current.symm.trans hb₃)
        have hle : s₁.count ≤ (s₃.jump (s₁.size + 2 : Nat)).count := hd.join.grows.count_le
        -- the arms end in different blocks
        have hne' : b₂ ≠ p.block := by
          have := hd.join.good.distinct (s₁.size + 2 : Nat)
          rw [hd.edges] at this
          simpa [exitEdge, hb₂, hb₃] using this
        obtain ⟨q, hq, hkq, hhere, hval⟩ := enterPhi_edge hd.join.good hd.join.unbegun hg
          (e := ⟨p.block, (s₁.size + 2 : Nat), s₃.bindings⟩) (p := (e, p.block))
          (by rw [hd.edges]; exact List.mem_append_right _ hp.1.mem_exitEdge)
          (hp.1.atEdge_jump hz.good hg₅) hp.1.vars (by simp [armEntry, hb₂, hb₃, hne']) hp.2
        exact ⟨1, q, hq, hkq.mono hle, hhere, hval⟩

end Expr

/-! ### Rounds of a loop -/

section Loop

variable {free : BlockId → Prop} {s x z s' sN : Builder} {l : LoopBlocks} {pre : BlockId}
  {guard : Value} {symbols : IdSet} {condition : Expr} {σ : Vars} {y : State}

/-- The loop `l` is built behind `s`: it is opened in `x` and closed from `z` on. -/
structure LoopBuilt (free : BlockId → Prop) (l : LoopBlocks) (pre : BlockId) (guard : Value) (symbols : IdSet)
    (condition : Expr) (s x z s' : Builder) : Prop where
  good : s.Good
  apart : Apart l s.size
  free_lt : ∀ c, free c → c < s.size
  opened : Opened s l pre guard symbols x
  grows : Grows x z
  turning : Turning free s l pre symbols l.cond z
  closed : z.closeLoop l (headerTargets s.count (s.carried symbols)) condition = .ok s'

/-- From its head in `x` a run makes one round of the loop `l`. -/
structure RoundRuns (F : Func) (bound fuel : Nat) (l : LoopBlocks) (symbols : IdSet) (x z : Builder)
    (body step : Vars → Option Exit) : Prop where
  isStep : ∀ σ, (∃ σ', step σ = some (.next σ')) ∨ ∃ e, step σ = some (.stopped e)
  frames : ∀ σ, Frames symbols σ (Typed.round body step σ)
  runs : ∀ σ y, Here F x σ y → Outcome F bound fuel y (Arrives F z l.cond) (Arrives F z l.exit)
    (fun _ _ => False) (Typed.round body step σ)

variable (hb : LoopBuilt free l pre guard symbols condition s x z s') (hg : Grows s' sN)

include hb hg

/-- A run that arrives at the exit of a loop is behind the loop one step later. -/
theorem closeLoop_exit (hy : Arrives sN.func z l.exit σ y) :
    ∃ y', sN.func.Steps 1 y y' ∧ Store.Keeps s.count y.store y'.store ∧ Here sN.func s' σ y' := by
  obtain ⟨hs, hl, hfree, -, -, ht, h⟩ := hb
  have hgood := ht.good_enter hs hl.cond_ge
  rcases (closeLoop_iff hgood).mp h with ⟨hnil, rfl⟩ | ⟨hne, c, u, latch, u', h₁, hlatch, h₂, rfl⟩
  · have hj := joining_of_nil ht hs hl hfree hnil
    obtain ⟨y', hstep, hkeep, hhere⟩ := Arrives.enter hj.good hj.unbegun hg (hy.mono fun e he => by
      rwa [edgesTo_enter, if_neg hl.cond_exit.symm])
    exact ⟨y', hstep, hkeep.mono hj.grows.count_le, hhere⟩
  · obtain ⟨hu, -, -⟩ := lowerExpr_extends condition hgood (by rw [current_enter, if_neg hne]) h₁
    have hu' : Extends free (z.enter l.cond) u := hu.mono fun _ hf => hf.elim
    have hin := ht.extend hs hl hl.cond_ge hl.body_cond hl.cond_exit hfree hu'
    have hc := closed hin h₂
    have hj := joining_of_test hin hl hlatch hc c
    obtain ⟨y', hstep, hkeep, hhere⟩ := Arrives.enter hj.good hj.unbegun hg (hy.mono fun e he => by
      rw [edgesTo_leaveFor, hc.edges, ht.edgesTo_exit hs hl hl.cond_ge hl.cond_exit hfree hu']
      exact List.mem_append_left _ he)
    exact ⟨y', hstep, hkeep.mono hj.grows.count_le, hhere⟩

/-- The test at the end of a loop sends the run to the body again, or behind the loop. -/
theorem closeLoop_test (hy : Arrives sN.func z l.cond σ y)
    (hframe : ∀ j v, s.bindings.get? j = some v → j ∉ symbols →
      ∃ w, σ j = some w ∧ y.store.get? v.id = some w) :
    ∃ y', sN.func.Steps 1 y y' ∧ Store.Keeps s.count y.store y'.store ∧
      Valued sN.func s.count y'
        (fun w p => if w != 0 then Here sN.func x σ p else Here sN.func s' σ p) (condition.eval σ) := by
  obtain ⟨hs, hl, hfree, ho, hxz, ht, h⟩ := hb
  have hgood := ht.good_enter hs hl.cond_ge
  have hgrowsC := grows_enter ht.good ht.current ht.unbegun
  have hle : s.count ≤ (z.enter l.cond).count := ht.grows.count_le.trans hgrowsC.count_le
  rcases (closeLoop_iff hgood).mp h with ⟨hnil, -⟩ | ⟨hne, c, u, latch, u', h₁, hlatch, h₂, rfl⟩
  · obtain ⟨e, he, -⟩ := hy
    rw [hnil] at he
    cases he
  obtain ⟨hu, -, -⟩ := lowerExpr_extends condition hgood (by rw [current_enter, if_neg hne]) h₁
  have hin := ht.extend hs hl hl.cond_ge hl.body_cond hl.cond_exit hfree (hu.mono fun _ hf => hf.elim)
  have hc := closed hin h₂
  have hj := joining_of_test hin hl hlatch hc c
  have hcur' : u'.current = some latch := hc.current.trans hlatch
  have hgE := (grows_enter hj.good hj.current hj.unbegun).trans hg
  have hgL : Grows u' sN := (grows_leaveFor hc.good hcur').trans hgE
  have hgC : Grows (z.enter l.cond) sN := hu.grows.trans (hc.grows.trans hgL)
  obtain ⟨y', hone, hk₁, hy'⟩ := Arrives.enter ht.good ht.unbegun hgC hy
  have hkeep₁ := hk₁.mono ht.grows.count_le
  refine ⟨y', hone, hkeep₁, ?_⟩
  have hrun := lowerExpr_runs condition hgood hy' h₁ (hc.grows.trans hgL)
  cases hval : condition.eval σ with
  | error e => rwa [hval] at hrun
  | ok w =>
    rw [hval] at hrun
    obtain ⟨n, p, hn, hk, hp, hw⟩ := hrun
    have hkeep := hk.mono hle
    have hp' : Here sN.func u' σ p := by
      refine ⟨hc.current.trans hp.current, ?_, hc.bindings ▸ hp.vars⟩
      rw [hc.length]
      exact hp.code
    have hedge := hp'.atEdge_branch hcur' hgE (by rw [code_leaveFor hc.good hcur', if_pos rfl]) hw
    refine Reach.prepend hn hkeep ?_
    by_cases hne : (w != 0) = true
    · rw [if_pos hne] at hedge
      -- the block before the loop is ended, the one at its end is not
      have hpre : pre ≠ latch := by
        rintro rfl
        have hend : ended (x.code pre) = true := by
          rw [ho.test, ended_append]
          simp [ended, Instr.isTerminator]
        have := (((hxz.trans hgrowsC).trans hu.grows).code pre).ended_mono hend
        rw [(hu.good.current _ hlatch).2] at this
        cases this
      obtain ⟨q, hq, hkq, hhere⟩ := enter_head_again hs ho (hxz.trans (hgrowsC.trans hgC)) hc hgL hpre
        hedge hp.vars fun j v hv hj => by
          obtain ⟨u, hσ, hst⟩ := hframe j v hv hj
          exact ⟨u, hσ, by rw [(hkeep₁.trans hkeep le_rfl) _ (hs.bindings j v hv), hst]⟩
      exact ⟨1, q, hq, hkq, by simp only [hne, if_true]; exact hhere⟩
    · rw [if_neg hne] at hedge
      obtain ⟨q, hq, hkq, hhere⟩ := Arrives.enter (σ := σ) hj.good hj.unbegun hg
        ⟨⟨latch, l.exit, u'.bindings⟩, by
          rw [edgesTo_leaveFor, if_pos rfl]
          exact List.mem_append_right _ (List.mem_singleton_self _), hedge, hp'.vars⟩
      exact ⟨1, q, hq, hkq.mono hj.grows.count_le, by
        simp only [hne, Bool.false_eq_true, if_false]
        exact hhere⟩

/-- A loop runs round after round. Each round takes at least one step. -/
theorem loop_runs {fuel : Nat} {body step : Vars → Option Exit}
    (hr : RoundRuns sN.func s.count fuel l symbols x z body step) :
    ∀ (n : Nat) (σ : Vars) (y : State), Here sN.func x σ y →
      Outcome sN.func s.count (min n fuel) y (Here sN.func s') (fun _ _ => False) (fun _ _ => False)
        (Typed.afterRound (fun σ => condition.eval σ) body step n (Typed.round body step σ)) := by
  intro n
  induction n using Nat.strong_induction_on with
  | _ n ih =>
    intro σ y hy
    have hfr := hr.frames σ
    have hstep := hr.isStep
    have hr := hr.runs σ y hy
    match hrd : Typed.round body step σ with
    | none =>
      rw [hrd] at hr
      obtain ⟨m, p, hm, hp⟩ := hr
      exact ⟨m, p, by omega, hp⟩
    | some (.broke σ') =>
      rw [hrd] at hr
      refine Reach.bind hr le_rfl fun p hp => ?_
      obtain ⟨q, hq, hk, hhere⟩ := closeLoop_exit hb hg hp
      exact ⟨1, q, hq, hk, hhere⟩
    | some (.continued σ') | some (.returned w) | some (.stopped e) =>
      rw [hrd] at hr
      exact hr
    | some (.next σ') =>
      rw [hrd] at hr
      cases n with
      | zero => exact ⟨0, y, by omega, .refl y⟩
      | succ n =>
        obtain ⟨m, p, hm, hk, hp⟩ := hr
        -- variables that the loop does not assign are where they were before it
        have hframe : ∀ j v, s.bindings.get? j = some v → j ∉ symbols →
            ∃ w, σ' j = some w ∧ p.store.get? v.id = some w := by
          intro j v hv hj
          have hnot : j ∉ (headerTargets s.count (s.carried symbols)).map Prod.fst := by
            rw [map_fst_headerTargets]
            intro hmem
            obtain ⟨q, hq, rfl⟩ := List.mem_map.mp hmem
            exact hj (mem_carried hq).2
          obtain ⟨w, hσ, hst⟩ := hy.vars j v (by rw [hb.opened.bindings, get?_rebind_of_notMem _ _ hnot, hv])
          exact ⟨w, by rw [hfr _ σ' hrd rfl j hj, hσ], by rw [hk _ (hb.good.bindings j v hv), hst]⟩
        obtain ⟨q, hq, hkq, hval⟩ := closeLoop_test hb hg hp hframe
        simp only [Typed.afterRound, Typed.loop_succ hstep rfl]
        have hagain : Outcome sN.func s.count (min n fuel) q (Here sN.func s') (fun _ _ => False)
            (fun _ _ => False) (Typed.choose (condition.eval σ') (Typed.afterRound
              (fun σ => condition.eval σ) body step n (Typed.round body step σ')) (some (.next σ'))) := by
          refine hval.choose fun w r hr => ?_
          split_ifs at hr ⊢
          · exact ih n (Nat.lt_succ_self n) σ' r hr
          · exact .refl hr
        exact hagain.advance (hm.trans hq) (hk.trans hkq le_rfl) (by omega)

/-- A run that is before a loop tests its condition and enters the loop or passes it by. -/
theorem guard_runs {fuel rounds : Nat} {body step : Vars → Option Exit} {w : Word} (hle : fuel ≤ rounds + 1)
    (hr : RoundRuns sN.func s.count fuel l symbols x z body step) (hpre : s.current = some pre)
    (hy : Here sN.func s σ y) (hw : y.store.get? guard.id = some w) :
    Outcome sN.func s.count fuel y (Here sN.func s') (fun _ _ => False) (fun _ _ => False)
      (if w != 0 then Typed.afterRound (fun σ => condition.eval σ) body step rounds
        (Typed.round body step σ) else some (.next σ)) := by
  have hgX := hb.grows.trans ((closeLoop_extends hb.good hb.apart hb.free_lt hb.turning hb.closed).2.trans hg)
  have hedge := hy.atEdge_branch hpre hgX hb.opened.test hw
  split_ifs at hedge ⊢
  · obtain ⟨q, hq, hkq, hhere⟩ := enter_head_first hb.good hb.opened hgX hedge hy.vars
    exact (loop_runs hb hg hr rounds σ q hhere).advance hq hkq (by omega)
  · obtain ⟨q, hq, hkq, hhere⟩ := closeLoop_exit hb hg ⟨_, hb.turning.outside, hedge, hy.vars⟩
    exact ⟨1, q, hq, hkq, hhere⟩

end Loop

/-! ### Statements -/

/-- The run is about to take an edge that waits for a target of the innermost loop. -/
def Leaves (F : Func) (loops : List LoopTargets) (s : Builder) (target : LoopTargets → BlockId)
    (σ : Vars) (x : State) : Prop :=
  ∃ l, loops.head? = some l ∧ Arrives F s (target l) σ x

/-- A run does what the statements do that were built between `s` and `s'`. -/
def Runs (F : Func) (s s' : Builder) (fuel : Nat) (x : State) (r : Option Exit) : Prop :=
  Outcome F s.count fuel x (Here F s') (Leaves F s.loops s' LoopTargets.onBreak)
    (Leaves F s.loops s' LoopTargets.onContinue) r

section Stmt

variable {s s' sN : Builder} {σ : Vars} {x : State} {v : Value} {fuel : Nat}

variable {F : Func} {b : BlockId} {free : BlockId → Prop}

theorem Arrives.jump (h : Arrives F s b σ x) (c : BlockId) : Arrives F (s.jump c) b σ x :=
  h.mono fun e he => by
    rw [edgesTo_jump]
    exact List.mem_append_left _ he

theorem Arrives.enter_ne {c : BlockId} (h : Arrives F s b σ x) (hne : b ≠ c) :
    Arrives F (s.enter c) b σ x :=
  h.mono fun e he => by rwa [edgesTo_enter, if_neg hne]

theorem Arrives.extends (h : Arrives F s b σ x) (hx : Extends free s s') (hb : b < s.size) :
    Arrives F s' b σ x :=
  h.mono fun _ he => (hx.near.edges_old b hb).subset he

/-- Edges to targets of loops that wait in one builder wait in another. -/
theorem Leaves.mono {target : LoopTargets → BlockId} {loops loops' : List LoopTargets}
    (h : Leaves F loops s target σ x) (hloops : loops = loops')
    (ha : ∀ l, loops'.head? = some l → Arrives F s (target l) σ x → Arrives F s' (target l) σ x) :
    Leaves F loops' s' target σ x := by
  subst hloops
  obtain ⟨l, hl, h⟩ := h
  exact ⟨l, hl, ha l hl h⟩

theorem grows_bind (s : Builder) (symbol : Nat) (v : Value) : Grows s (s.bind symbol v) :=
  .of_eq rfl le_rfl le_rfl (fun _ => rfl) rfl

/-- A variable is assigned the value of an expression. -/
theorem assign_runs {symbol : Nat} {value : Expr} (hs : s.Good) (hx : Here sN.func s σ x)
    (h : s.assign symbol value = .ok s') (hg : Grows s' sN) :
    Runs sN.func s s' fuel x (some (Typed.store symbol value σ)) := by
  obtain ⟨v, s₁, h₁, rfl⟩ := assign_iff.mp h
  obtain ⟨hy, ⟨b, hb⟩, -⟩ := lowerExpr_extends value hs hx.current h₁
  have hdef := define_move s₁ v
  have hd := (define_extends hy.good hb (fun _ => rfl) (fun _ => rfl) hdef).1
  have hgD : Grows (s₁.define v.ty fun target => .move target v).2 sN :=
    (grows_bind _ symbol ⟨s₁.count, v.ty⟩).trans hg
  have hrun := lowerExpr_runs value hs hx h₁ (hd.grows.trans hgD)
  unfold Typed.store
  cases hval : value.eval σ with
  | error e => rwa [hval] at hrun
  | ok w =>
    rw [hval] at hrun
    refine Reach.bind hrun hy.grows.count_le fun y hyw => ?_
    refine Reach.bind (hyw.1.define (w := w) hy.good (fun _ => rfl) hdef hgD fun rest => ?_) le_rfl
      fun z hz => .refl ⟨hz.1.current, hz.1.code, fun j u hu => ?_⟩
    · rw [Func.step, Store.read_eq_ok hyw.2]
      rfl
    · change ((s₁.define v.ty fun target => .move target v).2.bindings.insert symbol _).get? j = some u at hu
      rw [IdMap.get?_insert] at hu
      unfold Vars.set
      split_ifs at hu ⊢ with hj
      · obtain rfl := Option.some.inj hu
        exact ⟨w, rfl, hz.2⟩
      · exact hz.1.vars j u hu

/-- A function is left with the value of an expression. -/
theorem return_runs {value : Expr} (hs : s.Good) (hx : Here sN.func s σ x)
    (h : lowerStmt (.return_ value) s = .ok s') (hg : Grows s' sN) :
    Runs sN.func s s' fuel x ((Stmt.return_ value).exec fuel σ) := by
  obtain ⟨v, s₁, h₁, rfl⟩ := lowerStmt_return.mp h
  obtain ⟨hy, ⟨b, hb⟩, -⟩ := lowerExpr_extends value hs hx.current h₁
  rw [ret_eq hb] at hg ⊢
  have hrun := lowerExpr_runs value hs hx h₁
    ((extends_close hy.good hb (.ret v) rfl).grows.trans hg)
  rw [Stmt.exec]
  cases hval : value.eval σ with
  | error e => rwa [hval] at hrun
  | ok w =>
    rw [hval] at hrun
    obtain ⟨n, y, hn, -, hy', hw⟩ := hrun
    have hfetch := hy'.fetch hb hg (by rw [code_close hy.good hb, if_pos rfl]) rfl
    refine ⟨n, y, hn, .ret v, _, congrArg State.code hfetch, Or.inl ⟨w, ?_, rfl⟩⟩
    rw [Func.step, Store.read_eq_ok hw]
    rfl

/-- A run goes on where ways meet. -/
theorem Builder.Joining.reach {y : Builder} {bound : Nat} (hj : Joining free s b y)
    (hg : Grows (y.enter b) sN) (hle : bound ≤ s.count) (hx : Arrives sN.func y b σ x) :
    Reach sN.func bound x (Here sN.func (y.enter b) σ) := by
  obtain ⟨q, hq, hk, hhere⟩ := Arrives.enter hj.good hj.unbegun hg hx
  exact ⟨1, q, hq, hk.mono (hle.trans hj.grows.count_le), hhere⟩

/-- Statements in a piece, and what follows them there. -/
theorem Runs.follow {a b t : Builder} {bound : Nat} {r : Option Exit} (h : Runs F a b fuel x r)
    (hle : bound ≤ a.count) (hloops : a.loops = s.loops)
    (hnext : ∀ σ y, Here F b σ y → Reach F bound y (Here F t σ))
    (harr : ∀ c σ y, s.LoopTarget c → Arrives F b c σ y → Arrives F t c σ y) :
    Outcome F bound fuel x (Here F t) (Leaves F s.loops t LoopTargets.onBreak)
      (Leaves F s.loops t LoopTargets.onContinue) r := by
  refine Outcome.imp h hle hnext (fun σ y hy => .refl (hy.mono hloops ?_))
    fun σ y hy => .refl (hy.mono hloops ?_)
  · exact fun l hl => harr _ σ y ⟨l, hl, Or.inr rfl⟩
  · exact fun l hl => harr _ σ y ⟨l, hl, Or.inl rfl⟩

/-- A loop's body, and where it ends. -/
theorem body_runs {s x b : Builder} {l : LoopBlocks} {pre : BlockId} {guard : Value} {symbols : IdSet}
    {y : State} {r : Option Exit} (ho : Opened s l pre guard symbols x) (hb : b.Good)
    (hg : Grows (b.endBody l) sN) (h : Runs sN.func x b fuel y r) :
    Outcome sN.func s.count fuel y (Arrives sN.func (b.endBody l) l.next)
      (Arrives sN.func (b.endBody l) l.exit) (Arrives sN.func (b.endBody l) l.next) r := by
  have harr : ∀ c σ p, Arrives sN.func b c σ p → Arrives sN.func (b.endBody l) c σ p :=
    fun c σ p hp => hp.mono fun e he => by
      rw [edgesTo_endBody]
      exact List.mem_append_left _ he
  have hhead : x.loops.head? = some ⟨l.next, l.exit⟩ := by rw [ho.loops]; rfl
  refine Outcome.imp h ho.grows.count_le (fun σ p hp => .refl ?_) (fun σ p hp => .refl ?_)
    (fun σ p hp => .refl ?_)
  · have hp' : Here sN.func b.leaveLoop σ p := ⟨hp.current, hp.code, hp.vars⟩
    exact hp'.jump (good_leaveLoop hb) hg
  · obtain ⟨t, ht, hp⟩ := hp
    rw [hhead] at ht
    cases ht
    exact harr _ σ p hp
  · obtain ⟨t, ht, hp⟩ := hp
    rw [hhead] at ht
    cases ht
    exact harr _ σ p hp

/-- A loop, after its condition is found for the first time. -/
theorem while_runs {s₁ y z : Builder} {l : LoopBlocks} {pre : BlockId} {guard : Value}
    {symbols : IdSet} {condition : Expr} {body step : Vars → Option Exit}
    (hb : LoopBuilt free l pre guard symbols condition s₁ y z s') (hg : Grows s' sN)
    (hr : RoundRuns sN.func s₁.count fuel l symbols y z body step) (hpre : s₁.current = some pre)
    (hx : Extends (fun _ => False) s s₁)
    (hval : Valued sN.func s.count x
      (fun w p => Here sN.func s₁ σ p ∧ p.store.get? guard.id = some w) (condition.eval σ)) :
    Runs sN.func s s' fuel x (Typed.loop (fun σ => condition.eval σ) body step fuel σ) := by
  rcases Nat.eq_zero_or_pos fuel with h0 | hpos
  · have hnone : Typed.loop (fun σ => condition.eval σ) body step fuel σ = none := by
      rw [h0, Typed.loop]
    rw [hnone]
    exact ⟨0, x, h0.le, .refl x⟩
  · have hfuel : fuel = fuel - 1 + 1 := by omega
    rw [Typed.loop_succ hr.isStep hfuel]
    refine hval.choose fun w p hp => ?_
    exact Outcome.imp (guard_runs hb hg hfuel.le hr hpre hp.1 hp.2) hx.grows.count_le
      (fun σ' p hp => .refl hp) (fun _ _ hf => hf.elim) fun _ _ hf => hf.elim

theorem loopTarget_ne (hs : s.Good) {c : BlockId} (hc : s.LoopTarget c) (hb : s.size ≤ b) : c ≠ b :=
  fun h => absurd (loopTarget_lt hs hc) (Nat.not_lt.mpr (h ▸ hb))

mutual

/-- A built statement runs as the statement does. -/
theorem lowerStmt_runs : ∀ (stmt : Stmt) {s s' : Builder} {σ : Vars} {x : State}, s.Good →
    Here sN.func s σ x → stmt.simpleSteps = true → lowerStmt stmt s = .ok s' → Grows s' sN →
      Runs sN.func s s' fuel x (stmt.exec fuel σ)
  | .declare _ none, s, s', σ, x, hs, hx, _, h, hg => by
    rw [lowerStmt] at h
    obtain rfl := Except.ok.inj h
    rw [Stmt.exec]
    exact Reach.refl hx
  | .declare symbol (some init), s, s', σ, x, hs, hx, _, h, hg
  | .assign symbol value, s, s', σ, x, hs, hx, _, h, hg => by
    rw [lowerStmt] at h
    rw [Stmt.exec]
    exact assign_runs hs hx h hg
  | .ifElse condition ifTrue none, s, s', σ, x, hs, hx, hsimple, h, hg => by
    rw [Stmt.simpleSteps] at hsimple
    obtain ⟨c, s₁, s₂, h₁, h₂, rfl⟩ := lowerStmt_if.mp h
    obtain ⟨hx₁, ⟨b, hb⟩, -⟩ := lowerExpr_extends condition hs hx.current h₁
    obtain ⟨hgoodA, -, -, hloopsA, hgrowsA⟩ := enter_fork_first ifKinds c hx₁.good hb (by decide)
    have hy := (lowerStmts_extends ifTrue hgoodA h₂).of_eq_loops hloopsA
    have hd := detour hx₁.good hb rfl (fun _ => loopTarget_lt hx₁.good) hy
    have hgJ := (grows_enter hd.join.good hd.join.current hd.join.unbegun).trans hg
    have hgA := hy.grows.trans (hd.grows.trans hgJ)
    rw [Stmt.exec]
    refine Valued.choose (lowerExpr_runs condition hs hx h₁ (hgrowsA.trans hgA)) fun w y hyw => ?_
    split_ifs with hne
    · obtain ⟨z, hstep, hk, hz⟩ := hyw.1.fork_first hx₁.good (by decide) hgA hyw.2 hne
      have hk' := hk.mono hx₁.grows.count_le
      have ih := lowerStmts_runs ifTrue hgoodA hz hsimple h₂ (hd.grows.trans hgJ)
      refine Outcome.advance hstep hk' (ih.follow (hx₁.grows.count_le.trans hgrowsA.count_le)
        (hloopsA.trans hx₁.loops) (fun σ' p hp => ?_) fun t σ' p ht hp => ?_) (by omega)
      · exact hd.join.reach hg hx₁.grows.count_le (hp.jump hy.good hgJ)
      · exact (hp.jump _).enter_ne (loopTarget_ne hs ht (hx₁.near.size_le.trans (Nat.le_succ _)))
    · have hedge := hyw.1.fork_second hx₁.good (by decide) hgA hyw.2 hne
      obtain rfl : y.block = b := Option.some.inj (hyw.1.current.symm.trans hb)
      refine hd.join.reach hg hx₁.grows.count_le ⟨⟨y.block, (s₁.size + 1 : Nat), s₁.bindings⟩, ?_, hedge, hyw.1.vars⟩
      rw [hd.edges]
      exact List.mem_cons_self
  | .ifElse condition ifTrue (some ifFalse), s, s', σ, x, hs, hx, hsimple, h, hg => by
    rw [Stmt.simpleSteps, Bool.and_eq_true] at hsimple
    obtain ⟨c, s₁, s₂, s₃, h₁, h₂, h₃, rfl⟩ := lowerStmt_ifElse.mp h
    obtain ⟨hx₁, ⟨b, hb⟩, -⟩ := lowerExpr_extends condition hs hx.current h₁
    obtain ⟨hgoodA, -, -, hloopsA, hgrowsA⟩ := enter_fork_first ifElseKinds c hx₁.good hb (by decide)
    have hy := (lowerStmts_extends ifTrue hgoodA h₂).of_eq_loops hloopsA
    have hf := forked hx₁.good hb (fun _ => loopTarget_lt hx₁.good) hy rfl
    have hz := (lowerStmts_extends ifFalse hf.good h₃).of_eq_loops hf.loops
    have hd := diamond hx₁.good hb (fun _ => loopTarget_lt hx₁.good) hy rfl hz
    -- what is built from each stage on is there at the end
    have hgJ := (grows_enter hd.join.good hd.join.current hd.join.unbegun).trans hg
    have hgB := hz.grows.trans (hd.grows.trans hgJ)
    have hgA := hy.grows.trans (hf.grows.trans hgB)
    have hgM : Grows (s₂.jump (s₁.size + 2 : Nat)) sN :=
      (grows_enter hf.before (current_jump _ _) hf.second).trans hgB
    have hmeet : ∀ t, s.LoopTarget t → t ≠ (s₁.size + 2 : Nat) := fun t ht =>
      loopTarget_ne hs ht (hx₁.near.size_le.trans (Nat.le_add_right _ _))
    rw [Stmt.exec]
    refine Valued.choose (lowerExpr_runs condition hs hx h₁ (hgrowsA.trans hgA)) fun w y hyw => ?_
    split_ifs with hne
    · obtain ⟨z, hstep, hk, hz₁⟩ := hyw.1.fork_first hx₁.good (by decide) hgA hyw.2 hne
      have hk' := hk.mono hx₁.grows.count_le
      have ih := lowerStmts_runs ifTrue hgoodA hz₁ hsimple.1 h₂ (hf.grows.trans hgB)
      refine Outcome.advance hstep hk' (ih.follow (hx₁.grows.count_le.trans hgrowsA.count_le)
        (hloopsA.trans hx₁.loops) (fun σ' p hp => ?_) fun t σ' p ht hp => ?_) (by omega)
      · refine hd.join.reach hg hx₁.grows.count_le
          ⟨⟨p.block, (s₁.size + 2 : Nat), s₂.bindings⟩, ?_, hp.atEdge_jump hy.good hgM, hp.vars⟩
        rw [hd.edges]
        exact List.mem_append_left _ hp.mem_exitEdge
      · have hlt : t < (s₁.secondWay s₂).size :=
          (loopTarget_lt hs ht).trans_le (hx₁.near.size_le.trans hf.near.size_le)
        exact ((((hp.jump _).enter_ne (loopTarget_ne hs ht
          (hx₁.near.size_le.trans (Nat.le_succ _)))).extends hz hlt).jump _).enter_ne (hmeet t ht)
    · have hedge := hyw.1.fork_second hx₁.good (by decide) hgA hyw.2 hne
      obtain rfl : y.block = b := Option.some.inj (hyw.1.current.symm.trans hb)
      have hle : s₁.count ≤ s₂.count := hgrowsA.count_le.trans hy.grows.count_le
      obtain ⟨z, hstep, hk, hz₁⟩ := hf.enter hgB hle hedge hyw.1.vars
      have hk' := hk.mono hx₁.grows.count_le
      have ih := lowerStmts_runs ifFalse hf.good hz₁ hsimple.2 h₃ (hd.grows.trans hgJ)
      refine Outcome.advance hstep hk' (ih.follow
        (hx₁.grows.count_le.trans (hle.trans hf.grows.count_le)) (hf.loops.trans hx₁.loops)
        (fun σ' p hp => ?_) fun t σ' p ht hp => ?_) (by omega)
      · exact hd.join.reach hg hx₁.grows.count_le (hp.jump hz.good hgJ)
      · exact (hp.jump _).enter_ne (hmeet t ht)
  | .while_ condition body none, s, s', σ, x, hs, hx, hsimple, h, hg => by
    rw [Stmt.simpleSteps] at hsimple
    obtain ⟨guard, s₁, pre, h₁, hpre, s₂, h₂, h₃⟩ := (lowerStmt_while hs hx.current).mp h
    obtain ⟨hx₁, -, -⟩ := lowerExpr_extends condition hs hx.current h₁
    have hl := apart_loopBlocks s₁.size false
    have ho : Opened s₁ _ pre guard (assigned body) _ := opened hx₁.good hpre false
    have hy := lowerStmts_extends body ho.good h₂
    have ht : Turning (LoopTarget s₁) s₁ _ pre _ _ _ := turning_body hl ho hy
    rw [startLoop_fst hx₁.good hpre] at h₃
    have hfree : ∀ c, LoopTarget s₁ c → c < s₁.size := fun _ => loopTarget_lt hx₁.good
    have hgE := (closeLoop_extends hx₁.good hl hfree ht h₃).2.trans hg
    have hgB := (grows_endBody hy.good _).trans hgE
    have hxz := hy.grows.trans (grows_endBody hy.good (loopBlocks s₁.size false))
    rw [Stmt.exec]
    refine while_runs ⟨hx₁.good, hl, hfree, ho, hxz, ht, h₃⟩ hg ⟨fun σ => Or.inl ⟨σ, rfl⟩,
      frames_round (execAll_frames fuel body) fun σ => frames_next _ σ, fun σ' p hp => ?_⟩ hpre
      hx₁ (lowerExpr_runs condition hs hx h₁ (ho.grows.trans (hy.grows.trans hgB)))
    have hbody := body_runs ho hy.good hgE (lowerStmts_runs body ho.good hp hsimple h₂ hgB)
    exact Outcome.round hbody (fun σ q hq => Reach.refl hq) fun _ _ hq => hq
  | .while_ condition body (some step), s, s', σ, x, hs, hx, hsimple, h, hg => by
    rw [Stmt.simpleSteps, Bool.and_eq_true] at hsimple
    obtain ⟨guard, s₁, pre, h₁, hpre, s₂, s₃, h₂, h₃, h₄⟩ := (lowerStmt_while hs hx.current).mp h
    obtain ⟨hx₁, -, -⟩ := lowerExpr_extends condition hs hx.current h₁
    have hl := apart_loopBlocks s₁.size true
    have ho : Opened s₁ _ pre guard (IdSet.union (assigned body) (assigned step)) _ :=
      opened hx₁.good hpre true
    have hfree : ∀ c, LoopTarget s₁ c → c < s₁.size := fun _ => loopTarget_lt hx₁.good
    have hy := lowerStmts_extends body ho.good h₂
    have htN : Turning (LoopTarget s₁) s₁ _ pre _ _ _ := turning_body hl ho hy
    have hgoodN := htN.good_enter hx₁.good hl.next_ge
    have hz := (lowerStmts_extends step hgoodN h₃).of_eq_loops ((loops_enter _ _).trans htN.loops)
    have ht := turning_step htN hx₁.good hl (by simp [loopBlocks, LoopBlocks.next]) hfree hz
    rw [startLoop_fst hx₁.good hpre] at h₄
    -- what is built from each stage on is there at the end
    have hgT := (closeLoop_extends hx₁.good hl hfree ht h₄).2.trans hg
    have hgS := (grows_jump hz.good _).trans hgT
    have hgN := hz.grows.trans hgS
    have hgE := (grows_enter htN.good htN.current htN.unbegun).trans hgN
    have hgB := (grows_endBody hy.good _).trans hgE
    have hxz := hy.grows.trans ((grows_endBody hy.good (loopBlocks s₁.size true)).trans
      ((grows_enter htN.good htN.current htN.unbegun).trans (hz.grows.trans
        (grows_jump hz.good (loopBlocks s₁.size true).cond))))
    rw [Stmt.exec]
    refine while_runs ⟨hx₁.good, hl, hfree, ho, hxz, ht, h₄⟩ hg
      ⟨fun σ => execAll_isStep fuel step σ hsimple.2, frames_round
        (fun σ => (execAll_frames fuel body σ).mono IdSet.subset_union_left)
        fun σ => (execAll_frames fuel step σ).mono IdSet.subset_union_right,
        fun σ' p hp => ?_⟩ hpre hx₁ (lowerExpr_runs condition hs hx h₁ (ho.grows.trans (hy.grows.trans hgB)))
    have hbody := body_runs ho hy.good hgE (lowerStmts_runs body ho.good hp hsimple.1 h₂ hgB)
    refine Outcome.round hbody (fun σ q hq => ?_) fun σ q hq => ?_
    · obtain ⟨r, hr, hk, hhere⟩ := Arrives.enter htN.good htN.unbegun hgN hq
      have hk' := hk.mono htN.grows.count_le
      have hrun := lowerStmts_runs step hgoodN hhere (simpleStepsAll_of_isStep step hsimple.2) h₃ hgS
      rcases execAll_isStep fuel step σ hsimple.2 with ⟨σ₁, hσ⟩ | ⟨e, he⟩
      · rw [hσ] at hrun ⊢
        exact Reach.prepend hr hk' ((Reach.mono hrun (htN.grows.trans
          (grows_enter htN.good htN.current htN.unbegun)).count_le).bind le_rfl
            fun t ht => .refl (ht.jump hz.good hgT))
      · rw [he] at hrun ⊢
        exact StopsFor.prepend hr hrun
    · exact ((hq.enter_ne hl.next_exit.symm).extends hz
        (by rw [size_enter]; exact htN.exit.lt)).jump _
  | .break_, s, s', σ, x, hs, hx, _, h, hg => by
    obtain ⟨l, rest, hl, rfl⟩ := lowerStmt_break.mp h
    rw [Stmt.exec]
    exact Reach.refl ⟨l, by rw [hl]; rfl, hx.jump hs hg⟩
  | .continue_, s, s', σ, x, hs, hx, _, h, hg => by
    obtain ⟨l, rest, hl, rfl⟩ := lowerStmt_continue.mp h
    rw [Stmt.exec]
    exact Reach.refl ⟨l, by rw [hl]; rfl, hx.jump hs hg⟩
  | .return_ value, s, s', σ, x, hs, hx, _, h, hg => return_runs hs hx h hg
  | .block body, s, s', σ, x, hs, hx, hsimple, h, hg => by
    rw [lowerStmt] at h
    rw [Stmt.simpleSteps] at hsimple
    rw [Stmt.exec]
    exact lowerStmts_runs body hs hx hsimple h hg
  | .expr value, s, s', σ, x, hs, hx, _, h, hg => by
    obtain ⟨v, h₁⟩ := lowerStmt_expr.mp h
    have hrun := lowerExpr_runs value hs hx h₁ hg
    rw [Stmt.exec]
    cases hval : value.eval σ with
    | error e => rwa [hval] at hrun
    | ok w =>
      rw [hval] at hrun
      exact Reach.bind hrun le_rfl fun y hy => .refl hy.1

/-- Built statements run as the statements do. -/
theorem lowerStmts_runs : ∀ (stmts : List Stmt) {s s' : Builder} {σ : Vars} {x : State}, s.Good →
    Here sN.func s σ x → Typed.simpleStepsAll stmts = true → lowerStmts stmts s = .ok s' →
      Grows s' sN → Runs sN.func s s' fuel x (Typed.execAll fuel stmts σ)
  | [], s, s', σ, x, hs, hx, _, h, hg => by
    rw [lowerStmts] at h
    obtain rfl := Except.ok.inj h
    rw [Typed.execAll]
    exact Reach.refl hx
  | stmt :: rest, s, s', σ, x, hs, hx, hsimple, h, hg => by
    rw [Typed.simpleStepsAll, Bool.and_eq_true] at hsimple
    obtain ⟨s₁, h₁, h₂⟩ := (lowerStmts_cons hx.current).mp h
    have hy := lowerStmt_extends stmt hs hx.current h₁
    have hz := lowerStmts_extends rest hy.good h₂
    have ih := lowerStmt_runs stmt hs hx hsimple.1 h₁ (hz.grows.trans hg)
    have harr : ∀ c σ y, s.LoopTarget c → Arrives sN.func s₁ c σ y → Arrives sN.func s' c σ y :=
      fun c σ y hc h => h.extends hz ((loopTarget_lt hs hc).trans_le hy.near.size_le)
    rw [Typed.execAll]
    match hst : stmt.exec fuel σ with
    | some (.next σ') =>
      rw [hst] at ih
      refine Outcome.of_reach ih fun y hy' => ?_
      have hrest := lowerStmts_runs rest hy.good hy' hsimple.2 h₂ hg
      exact hrest.follow hy.grows.count_le hy.loops (fun σ p hp => .refl hp) fun c σ p _ hp => hp
    | none | some (.returned _) | some (.stopped _) =>
      rw [hst] at ih
      exact ih
    | some (.broke σ') =>
      rw [hst] at ih
      exact Reach.bind ih le_rfl fun y hy' => .refl (hy'.mono rfl fun l hl => harr _ σ' y ⟨l, hl, Or.inr rfl⟩)
    | some (.continued σ') =>
      rw [hst] at ih
      exact Reach.bind ih le_rfl fun y hy' => .refl (hy'.mono rfl fun l hl => harr _ σ' y ⟨l, hl, Or.inl rfl⟩)

end

end Stmt

end Chordal.Ssa
