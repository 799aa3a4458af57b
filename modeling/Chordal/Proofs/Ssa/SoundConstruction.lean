/-
# Construction keeps a builder sound

Building an expression or statements takes a sound builder to a sound one, and
the value of an expression is known where its computation ends. So in the graph
of a function every value has one definition, which every path to a use has
passed, the lists of edges agree with the terminators, and a block is reached or
empty.

Key theorems: `Builder.lowerExpr_sound`, `Builder.closeLoop_sound`,
`Builder.lowerStmts_sound`.
-/
import Mathlib
import Chordal.Proofs.Ssa.ConstructionMeaning
import Chordal.Proofs.Ssa.SoundLoops

namespace Chordal.Ssa
namespace Builder

open Typed (Expr Stmt)

/-! ### Ways that fork and meet -/

section Fork

variable {free : BlockId → Prop} {s x : Builder} {a b : BlockId} {kinds : List String} {v : Value}

theorem sound_fork (hs : s.Sound) (hcur : s.current = some a) (hk : 2 ≤ kinds.length)
    (hv : s.Knows a (s.code a) v.id) : (s.fork kinds v).Sound ∧ ∀ n, Leads n s (s.fork kinds v) := by
  obtain ⟨hs₁, hl₁⟩ := sound_addBlocks kinds hs
  obtain ⟨hs₂, hl₂⟩ := sound_branch hs₁ (by rw [current_addBlocks]; exact hcur)
    (unbegun_addBlocks kinds hs.good (i := 0) (by omega)) (unbegun_addBlocks kinds hs.good (i := 1) (by omega))
    (Nat.ne_of_lt (Nat.lt_succ_self _)) (hv.at_end (hl₁ 0).grows (hl₁ 0).shortcut (Or.inl hcur))
  exact ⟨hs₂, fun n => (hl₁ n).trans (hl₂ n)⟩

/-- The first way of a fork is entered. -/
theorem sound_firstWay (kinds : List String) (hs : s.Sound) (hcur : s.current = some a) (hk : 2 ≤ kinds.length)
    (hv : s.Knows a (s.code a) v.id) :
    ((s.fork kinds v).enter s.size).Sound ∧ Leads s.size s ((s.fork kinds v).enter s.size) := by
  obtain ⟨hs₁, hl₁⟩ := sound_fork hs hcur hk hv
  have hun : (s.fork kinds v).Unbegun s.size := unbegun_fork kinds v hs.good hcur (i := 0) (by omega)
  obtain ⟨hs₂, hl₂⟩ := sound_enter hs₁ (current_fork kinds v hcur) hun (by
    rw [loops_fork kinds v hs.good hcur]
    exact hs.good.loops_ne le_rfl)
  exact ⟨hs₂, (hl₁ s.size).trans (hl₂ s.size le_rfl)⟩

/-- The other new blocks of a fork are not begun on its first way. -/
theorem unbegun_firstWay (hs : s.Good) (hcur : s.current = some a)
    (hx : Extends free ((s.fork kinds v).enter s.size) x) {i : Nat} (h0 : i ≠ 0) (hi : i < kinds.length) :
    x.Unbegun (s.size + i : Nat) :=
  hx.near.unbegun (unbegun_enter (unbegun_fork kinds v hs hcur (i := 0) (by omega)) (unbegun_fork kinds v hs hcur hi)
    fun h => h0 (Nat.add_left_cancel h))

/-- The second way of a fork is entered. -/
theorem sound_secondWay (hs : s.Sound) (hcur : s.current = some a) (hk : kinds.length = 3)
    (hx : Extends free ((s.fork kinds v).enter s.size) x) (hf : Forked free s a x) (hxs : x.Sound) :
    (s.secondWay x).Sound ∧ Leads s.size x (s.secondWay x) := by
  obtain ⟨hs₁, hl₁⟩ := sound_jump hxs (unbegun_firstWay hs.good hcur hx (i := 2) (by omega) (by omega))
  have hloops : (x.jump (s.size + 2 : Nat)).loops = s.loops := (loops_enter _ _).symm.trans hf.loops
  obtain ⟨hs₂, hl₂⟩ := sound_enter hs₁ (current_jump _ _) hf.second (by
    rw [hloops]
    exact hs.good.loops_ne (Nat.le_succ _))
  exact ⟨hs₂, (hl₁ s.size).trans (hl₂ s.size (Nat.le_succ _))⟩

/-- The block where the ways through a piece meet is entered. -/
theorem Joining.sound_enter (hs : s.Good) (hj : Joining free s b x) (hx : x.Sound) :
    (x.enter b).Sound ∧ Leads s.size x (x.enter b) := by
  obtain ⟨h, hl⟩ := Builder.sound_enter hx hj.current hj.unbegun (by
    rw [hj.loops]
    exact hs.loops_ne hj.fresh)
  exact ⟨h, hl s.size hj.fresh⟩

end Fork

/-! ### Expressions -/

/-- A value is defined from what is known. -/
theorem define_sound {s s' : Builder} {a : BlockId} {v : Value} {ty : Ty} {make : Value → Instr} (hs : s.Sound)
    (hcur : s.current = some a) (hphi : ∀ t, (make t).isPhi = false) (hterm : ∀ t, (make t).isTerminator = false)
    (htarget : ∀ t, (make t).target? = some t)
    (huse : ∀ t, ∀ w ∈ (make t).operands, s.Knows a (s.code a) w.id) (h : s.define ty make = (v, s')) :
    s'.Sound ∧ Leads s.size s s' ∧ s'.Knows a (s'.code a) v.id ∧ s'.current = some a := by
  obtain rfl := congrArg Prod.fst h
  obtain rfl := congrArg Prod.snd h
  obtain ⟨hsound, hleads, hknown⟩ := sound_define hs hcur ty make (hphi _) (hterm _) (htarget _) (huse _)
  exact ⟨hsound, hleads s.size, hknown, by rw [define_snd hcur]; exact hcur⟩

/-- Building an expression keeps a builder sound, and the value is known where
its computation ends. -/
theorem lowerExpr_sound : ∀ (e : Expr) {s s' : Builder} {a : BlockId} {v : Value}, s.Sound →
    s.current = some a → lowerExpr e s = .ok (v, s') →
      s'.Sound ∧ Leads s.size s s' ∧ ∃ b, s'.current = some b ∧ s'.Knows b (s'.code b) v.id
  | .int value, s, s', a, v, hs, hcur, h | .bool value, s, s', a, v, hs, hcur, h => by
    rw [lowerExpr] at h
    obtain ⟨h₁, h₂, h₃, h₄⟩ := define_sound hs hcur (fun _ => rfl) (fun _ => rfl) (fun _ => rfl)
      (by simp [Instr.operands]) (Except.ok.inj h)
    exact ⟨h₁, h₂, a, h₄, h₃⟩
  | .var symbol, s, s', a, v, hs, hcur, h => by
    obtain ⟨w, hw, heq⟩ := lowerExpr_var.mp h
    obtain ⟨rfl, rfl⟩ := Prod.mk.inj heq
    exact ⟨hs, .refl _ _, a, hcur, hs.informed.bound a hcur _ _ hw⟩
  | .unary op operand, s, s', a, v, hs, hcur, h => by
    obtain ⟨w, s₁, h₁, heq⟩ := lowerExpr_unary.mp h
    obtain ⟨hs₁, hl₁, b, hb, hw⟩ := lowerExpr_sound operand hs hcur h₁
    obtain ⟨hs₂, hl₂, hv, hcur₂⟩ := define_sound hs₁ hb (fun _ => rfl) (fun _ => rfl) (fun _ => rfl)
      (by simpa [Instr.operands] using hw) heq.symm
    exact ⟨hs₂, hl₁.trans (hl₂.mono hl₁.grows.size_le), b, hcur₂, hv⟩
  | .binary op left right, s, s', a, v, hs, hcur, h => by
    obtain ⟨w, s₁, w', s₂, h₁, h₂, heq⟩ := lowerExpr_binary.mp h
    obtain ⟨hs₁, hl₁, b, hb, hw⟩ := lowerExpr_sound left hs hcur h₁
    obtain ⟨hs₂, hl₂, b', hb', hw'⟩ := lowerExpr_sound right hs₁ hb h₂
    -- the first operand is still known where the second ends
    have hkept : s₂.Knows b' (s₂.code b') w.id := hl₂.knows hs₁ hb hb' hw
    obtain ⟨hs₃, hl₃, hv, hcur₃⟩ := define_sound hs₂ hb' (fun _ => rfl) (fun _ => rfl) (fun _ => rfl)
      (by simpa [Instr.operands] using ⟨hkept, hw'⟩) heq.symm
    have hl₁₂ := hl₁.trans (hl₂.mono hl₁.grows.size_le)
    exact ⟨hs₃, hl₁₂.trans (hl₃.mono hl₁₂.grows.size_le), b', hcur₃, hv⟩
  | .ternary condition ifTrue ifFalse, s, s', a, v, hs, hcur, h => by
    obtain ⟨c, s₁, t, s₂, e, s₃, h₁, h₂, h₃, heq⟩ := lowerExpr_ternary.mp h
    obtain ⟨hs₁, hl₁, b, hb, hc⟩ := lowerExpr_sound condition hs hcur h₁
    obtain ⟨hsA, hlA⟩ := sound_firstWay ternaryKinds hs₁ hb (by decide) hc
    obtain ⟨-, hcurA, -⟩ := enter_fork_first ternaryKinds c hs₁.good hb (by decide)
    obtain ⟨hs₂, hl₂, b₂, hb₂, ht⟩ := lowerExpr_sound ifTrue hsA hcurA h₂
    obtain ⟨hy, -⟩ := lowerExpr_extends ifTrue hsA.good hcurA h₂
    have hB := forked hs₁.good hb (fun _ hf => hf.elim) hy rfl
    obtain ⟨hsB, hlB⟩ := sound_secondWay hs₁ hb rfl hy hB hs₂
    obtain ⟨hs₃, hl₃, b₃, hb₃, he⟩ := lowerExpr_sound ifFalse hsB hB.current h₃
    obtain ⟨hz, -⟩ := lowerExpr_extends ifFalse hsB.good hB.current h₃
    have hd := diamond hs₁.good hb (fun _ hf => hf.elim) hy rfl hz
    obtain ⟨hs₄, hl₄⟩ := sound_jump hs₃ (hz.near.unbegun hB.meet)
    -- what the two arms give is known at their ends
    have hlB₃ : Leads s₁.size s₂ (s₃.jump (s₁.size + 2 : Nat)) :=
      (hlB.trans (hl₃.mono (hlA.trans ((hl₂.mono hlA.grows.size_le).trans hlB)).grows.size_le)).trans (hl₄ _)
    have hsources : (s₂.armEntry t ++ s₃.armEntry e).map Prod.snd =
        ((s₃.jump (s₁.size + 2 : Nat)).edgesTo (s₁.size + 2 : Nat)).map Edge.source := by
      rw [hd.edges]
      simp [armEntry, exitEdge, hb₂, hb₃]
    have hknown : ∀ p ∈ s₂.armEntry t ++ s₃.armEntry e, (s₃.jump (s₁.size + 2 : Nat)).Begun p.2 ∧
        (s₃.jump (s₁.size + 2 : Nat)).Knows p.2 ((s₃.jump (s₁.size + 2 : Nat)).code p.2) p.1.id := by
      intro p hp
      simp only [armEntry, hb₂, hb₃, Option.toList_some, List.map_cons, List.map_nil, List.cons_append,
        List.nil_append] at hp
      rcases List.mem_cons.mp hp with rfl | hp
      · exact ⟨hlB₃.grows.begun _ (Or.inl hb₂), ht.at_end hlB₃.grows hlB₃.shortcut (Or.inl hb₂)⟩
      · obtain rfl := List.mem_singleton.mp hp
        exact ⟨(hl₄ 0).grows.begun _ (Or.inl hb₃), he.at_end (hl₄ 0).grows (hl₄ 0).shortcut (Or.inl hb₃)⟩
    have hne : (s₃.jump (s₁.size + 2 : Nat)).edgesTo (s₁.size + 2 : Nat) ≠ [] := by
      rw [hd.edges]
      simp [exitEdge, hb₂]
    obtain ⟨rfl, rfl⟩ := Prod.mk.inj heq
    obtain ⟨hs₅, hl₅, hv⟩ := sound_enterPhi ifTrue.ty hs₄ hd.join.current hd.join.unbegun hne (by
      rw [hd.join.loops]
      exact hs₁.good.loops_ne hd.join.fresh) hsources hknown
    have hlA₂ : Leads s₁.size s₁ s₂ := hlA.trans (hl₂.mono hlA.grows.size_le)
    refine ⟨hs₅, hl₁.trans (((hlA₂.trans hlB₃).trans (hl₅ _ hd.join.fresh)).mono hl₁.grows.size_le), _, ?_, hv⟩
    rw [current_enterPhi, current_enter, if_neg hne]

/-! ### Statements -/

theorem assign_sound {s s' : Builder} {a : BlockId} {symbol : Nat} {value : Expr} (hs : s.Sound)
    (hcur : s.current = some a) (h : s.assign symbol value = .ok s') : s'.Sound ∧ Leads s.size s s' := by
  obtain ⟨v, s₁, h₁, rfl⟩ := assign_iff.mp h
  obtain ⟨hs₁, hl₁, b, hb, hv⟩ := lowerExpr_sound value hs hcur h₁
  have hdef := define_move s₁ v
  obtain ⟨hs₂, hl₂, hw, hcur₂⟩ := define_sound hs₁ hb (fun _ => rfl) (fun _ => rfl) (fun _ => rfl)
    (by simpa [Instr.operands] using hv) hdef
  obtain ⟨-, -, hlt⟩ := define_extends hs₁.good hb (fun _ => rfl) (fun _ => rfl) hdef
  obtain ⟨hs₃, hl₃⟩ := sound_bind hs₂ symbol ⟨s₁.count, v.ty⟩ hlt fun c hc => by
    obtain rfl := Option.some.inj (hcur₂.symm.trans hc)
    exact hw
  exact ⟨hs₃, (hl₁.trans (hl₂.mono hl₁.grows.size_le)).trans (hl₃ _)⟩

section Loop

variable {free : BlockId → Prop} {s x₀ x s' : Builder} {l : LoopBlocks} {pre : BlockId} {guard : Value}
  {symbols : IdSet}

/-- The loop is left and control goes to what follows its body. -/
theorem sound_endBody (hs : x.Sound) (hnext : x.Unbegun l.next) :
    (x.endBody l).Sound ∧ ∀ n, Leads n x (x.endBody l) := by
  obtain ⟨h₁, hl₁⟩ := sound_setLoops hs x.loops.tail fun t ht => hs.good.loops t (List.mem_of_mem_tail ht)
  obtain ⟨h₂, hl₂⟩ := sound_jump (b := l.next) h₁ (hnext.of_eq le_rfl rfl rfl)
  exact ⟨h₂, fun n => (hl₁ n).trans (hl₂ n)⟩

theorem Turning.sound_enter {b : BlockId} (ht : Turning free s l pre symbols b x) (hs : s.Good) (hb : s.size ≤ b)
    (hx : x.Sound) : (x.enter b).Sound ∧ Leads s.size x (x.enter b) := by
  obtain ⟨h, hl⟩ := Builder.sound_enter hx ht.current ht.unbegun (by
    rw [ht.loops]
    exact hs.loops_ne hb)
  exact ⟨h, hl s.size hb⟩

/-- The end of a loop keeps a builder sound. `x₀` is the builder where its body
began. -/
theorem closeLoop_sound {condition : Expr} (hs : s.Sound) (hcur : s.current = some pre) (hl : Apart l s.size)
    (hfree : ∀ c, free c → c < s.size) (ho : Opened s l pre guard symbols x₀) (hleads₀ : Leads s.size s x₀)
    (hpreds : x₀.func.preds l.body = [pre]) (ht : Turning free s l pre symbols l.cond x) (hx : x.Sound)
    (hleads : Leads s.size x₀ x)
    (h : x.closeLoop l (headerTargets s.count (s.carried symbols)) condition = .ok s') :
    s'.Sound ∧ Leads s.size s s' := by
  have hg := ht.good_enter hs.good hl.cond_ge
  obtain ⟨hs₁, hl₁⟩ := ht.sound_enter hs.good hl.cond_ge hx
  rcases (closeLoop_iff hg).mp h with ⟨hnil, rfl⟩ | ⟨hne, c, y, latch, z, h₁, hlatch, h₂, rfl⟩
  · have hj := joining_of_nil ht hs.good hl hfree hnil
    obtain ⟨hs₂, hl₂⟩ := hj.sound_enter hs.good hs₁
    exact ⟨hs₂, ((hleads₀.trans hleads).trans hl₁).trans hl₂⟩
  · have hcond : (x.enter l.cond).current = some l.cond := by rw [current_enter, if_neg hne]
    obtain ⟨hs₂, hl₂, b, hb, hc⟩ := lowerExpr_sound condition hs₁ hcond h₁
    obtain rfl : latch = b := Option.some.inj (hlatch.symm.trans hb)
    obtain ⟨hy, -⟩ := lowerExpr_extends condition hg hcond h₁
    have hin := ht.extend hs.good hl hl.cond_ge hl.body_cond hl.cond_exit hfree (hy.mono fun _ hf => hf.elim)
    have hsize : s.size ≤ (x.enter l.cond).size :=
      (hleads₀.grows.size_le.trans hleads.grows.size_le).trans hl₁.grows.size_le
    have hly : Leads s.size x₀ y := (hleads.trans hl₁).trans (hl₂.mono hsize)
    have hnew : s.size ≤ latch := by
      rcases hl₂.current latch hlatch with h | h
      · exact Option.some.inj (hcond.symm.trans h) ▸ hl.cond_ge
      · exact hsize.trans h
    obtain ⟨hs₃, hl₃⟩ := sound_test hs hcur hl ho hly.grows hin hs₂ (hleads₀.trans hly)
      ((hly.preds l.body (Or.inl ho.current)).trans hpreds) hlatch hnew hc h₂
    obtain ⟨hs₄, hl₄⟩ := (joining_of_test hin hl hlatch (closed hin h₂) c).sound_enter hs.good hs₃
    exact ⟨hs₄, hl₃.trans hl₄⟩

end Loop

theorem jump_sound {s : Builder} {b : BlockId} (hs : s.Sound) (hb : s.LoopTarget b) :
    (s.jump b).Sound ∧ Leads s.size s (s.jump b) := by
  obtain ⟨l, hl, hb⟩ := hb
  obtain ⟨h₁, h₂⟩ := hs.good.loops l (List.mem_of_mem_head? hl)
  rcases hb with rfl | rfl
  · obtain ⟨h, hl⟩ := sound_jump hs h₁
    exact ⟨h, hl _⟩
  · obtain ⟨h, hl⟩ := sound_jump hs h₂
    exact ⟨h, hl _⟩

mutual

/-- Building a statement keeps a builder sound. -/
theorem lowerStmt_sound : ∀ (stmt : Stmt) {s s' : Builder} {a : BlockId}, s.Sound → s.current = some a →
    lowerStmt stmt s = .ok s' → s'.Sound ∧ Leads s.size s s'
  | .declare _ none, s, s', a, hs, hcur, h => by
    rw [lowerStmt] at h
    obtain rfl := Except.ok.inj h
    exact ⟨hs, .refl _ _⟩
  | .declare symbol (some init), s, s', a, hs, hcur, h
  | .assign symbol value, s, s', a, hs, hcur, h => by
    rw [lowerStmt] at h
    exact assign_sound hs hcur h
  | .ifElse condition ifTrue none, s, s', a, hs, hcur, h => by
    obtain ⟨c, s₁, s₂, h₁, h₂, rfl⟩ := lowerStmt_if.mp h
    obtain ⟨hs₁, hl₁, b, hb, hc⟩ := lowerExpr_sound condition hs hcur h₁
    obtain ⟨hsA, hlA⟩ := sound_firstWay ifKinds hs₁ hb (by decide) hc
    obtain ⟨-, -, -, hloops, -⟩ := enter_fork_first ifKinds c hs₁.good hb (by decide)
    obtain ⟨hs₂, hl₂⟩ := lowerStmts_sound ifTrue hsA h₂
    have hy := (lowerStmts_extends ifTrue hsA.good h₂).of_eq_loops hloops
    have hd := detour hs₁.good hb rfl (fun _ => loopTarget_lt hs₁.good) hy
    obtain ⟨hs₃, hl₃⟩ := sound_jump hs₂ (unbegun_firstWay hs₁.good hb hy (i := 1) (by omega) (by decide))
    obtain ⟨hs₄, hl₄⟩ := hd.join.sound_enter hs₁.good hs₃
    have hlA₂ : Leads s₁.size s₁ s₂ := hlA.trans (hl₂.mono hlA.grows.size_le)
    exact ⟨hs₄, hl₁.trans (((hlA₂.trans (hl₃ _)).trans hl₄).mono hl₁.grows.size_le)⟩
  | .ifElse condition ifTrue (some ifFalse), s, s', a, hs, hcur, h => by
    obtain ⟨c, s₁, s₂, s₃, h₁, h₂, h₃, rfl⟩ := lowerStmt_ifElse.mp h
    obtain ⟨hs₁, hl₁, b, hb, hc⟩ := lowerExpr_sound condition hs hcur h₁
    obtain ⟨hsA, hlA⟩ := sound_firstWay ifElseKinds hs₁ hb (by decide) hc
    obtain ⟨-, -, -, hloops, -⟩ := enter_fork_first ifElseKinds c hs₁.good hb (by decide)
    obtain ⟨hs₂, hl₂⟩ := lowerStmts_sound ifTrue hsA h₂
    have hy := (lowerStmts_extends ifTrue hsA.good h₂).of_eq_loops hloops
    have hf := forked hs₁.good hb (fun _ => loopTarget_lt hs₁.good) hy rfl
    obtain ⟨hsB, hlB⟩ := sound_secondWay hs₁ hb rfl hy hf hs₂
    obtain ⟨hs₃, hl₃⟩ := lowerStmts_sound ifFalse hsB h₃
    have hz := (lowerStmts_extends ifFalse hsB.good h₃).of_eq_loops hf.loops
    have hd := diamond hs₁.good hb (fun _ => loopTarget_lt hs₁.good) hy rfl hz
    obtain ⟨hs₄, hl₄⟩ := sound_jump hs₃ (hz.near.unbegun hf.meet)
    obtain ⟨hs₅, hl₅⟩ := hd.join.sound_enter hs₁.good hs₄
    have hlAB : Leads s₁.size s₁ (s₁.secondWay s₂) := (hlA.trans (hl₂.mono hlA.grows.size_le)).trans hlB
    have hl₁₃ := hlAB.trans (hl₃.mono hlAB.grows.size_le)
    exact ⟨hs₅, hl₁.trans (((hl₁₃.trans (hl₄ _)).trans hl₅).mono hl₁.grows.size_le)⟩
  | .while_ condition body none, s, s', a, hs, hcur, h => by
    obtain ⟨guard, s₁, pre, h₁, hpre, s₂, h₂, h₃⟩ := (lowerStmt_while hs.good hcur).mp h
    obtain ⟨hs₁, hl₁, b, hb, hguard⟩ := lowerExpr_sound condition hs hcur h₁
    obtain rfl : pre = b := Option.some.inj (hpre.symm.trans hb)
    have hl := apart_loopBlocks s₁.size false
    have ho : Opened s₁ _ pre guard (assigned body) _ := opened hs₁.good hpre false
    obtain ⟨hs₀, hl₀, hpreds⟩ := sound_startLoop hs₁ hpre false (assigned body) hguard
    obtain ⟨hs₂, hl₂⟩ := lowerStmts_sound body hs₀ h₂
    have hy := lowerStmts_extends body ho.good h₂
    obtain ⟨hs₃, hl₃⟩ := sound_endBody (l := loopBlocks s₁.size false) hs₂ (hy.near.unbegun ho.next)
    rw [startLoop_fst hs₁.good hpre] at h₃
    obtain ⟨hs₄, hl₄⟩ := closeLoop_sound hs₁ hpre hl (fun _ => loopTarget_lt hs₁.good) ho hl₀ hpreds
      (turning_body hl ho hy) hs₃ ((hl₂.mono hl₀.grows.size_le).trans (hl₃ _)) h₃
    exact ⟨hs₄, hl₁.trans (hl₄.mono hl₁.grows.size_le)⟩
  | .while_ condition body (some step), s, s', a, hs, hcur, h => by
    obtain ⟨guard, s₁, pre, h₁, hpre, s₂, s₃, h₂, h₃, h₄⟩ := (lowerStmt_while hs.good hcur).mp h
    obtain ⟨hs₁, hl₁, b, hb, hguard⟩ := lowerExpr_sound condition hs hcur h₁
    obtain rfl : pre = b := Option.some.inj (hpre.symm.trans hb)
    have hl := apart_loopBlocks s₁.size true
    have ho : Opened s₁ _ pre guard (IdSet.union (assigned body) (assigned step)) _ := opened hs₁.good hpre true
    obtain ⟨hs₀, hl₀, hpreds⟩ := sound_startLoop hs₁ hpre true (IdSet.union (assigned body) (assigned step)) hguard
    obtain ⟨hs₂, hl₂⟩ := lowerStmts_sound body hs₀ h₂
    have hy := lowerStmts_extends body ho.good h₂
    obtain ⟨hsE, hlE⟩ := sound_endBody (l := loopBlocks s₁.size true) hs₂ (hy.near.unbegun ho.next)
    have ht : Turning (LoopTarget s₁) s₁ _ pre _ _ _ := turning_body hl ho hy
    obtain ⟨hsN, hlN⟩ := ht.sound_enter hs₁.good hl.next_ge hsE
    have hlN₀ : Leads s₁.size _ _ := ((hl₂.mono hl₀.grows.size_le).trans (hlE _)).trans hlN
    obtain ⟨hs₃, hl₃⟩ := lowerStmts_sound step hsN h₃
    have hz := (lowerStmts_extends step hsN.good h₃).of_eq_loops ((loops_enter _ _).trans ht.loops)
    have hne : (loopBlocks s₁.size true).next ≠ (loopBlocks s₁.size true).cond := by simp [loopBlocks, LoopBlocks.next]
    obtain ⟨hs₄, hl₄⟩ := sound_jump hs₃ (hz.near.unbegun (unbegun_enter ht.unbegun ht.cond hne.symm))
    rw [startLoop_fst hs₁.good hpre] at h₄
    have hl₀₄ := (hlN₀.trans (hl₃.mono (hl₀.trans hlN₀).grows.size_le)).trans (hl₄ _)
    obtain ⟨hs₅, hl₅⟩ := closeLoop_sound hs₁ hpre hl (fun _ => loopTarget_lt hs₁.good) ho hl₀ hpreds
      (turning_step ht hs₁.good hl hne (fun _ => loopTarget_lt hs₁.good) hz) hs₄ hl₀₄ h₄
    exact ⟨hs₅, hl₁.trans (hl₅.mono hl₁.grows.size_le)⟩
  | .break_, s, s', a, hs, hcur, h => by
    obtain ⟨l, rest, hl, rfl⟩ := lowerStmt_break.mp h
    exact jump_sound hs ⟨l, by rw [hl]; rfl, Or.inr rfl⟩
  | .continue_, s, s', a, hs, hcur, h => by
    obtain ⟨l, rest, hl, rfl⟩ := lowerStmt_continue.mp h
    exact jump_sound hs ⟨l, by rw [hl]; rfl, Or.inl rfl⟩
  | .return_ value, s, s', a, hs, hcur, h => by
    obtain ⟨v, s₁, h₁, rfl⟩ := lowerStmt_return.mp h
    obtain ⟨hs₁, hl₁, b, hb, hv⟩ := lowerExpr_sound value hs hcur h₁
    rw [ret_eq hb]
    obtain ⟨hs₂, hl₂⟩ := sound_ret hs₁ hb hv
    exact ⟨hs₂, hl₁.trans (hl₂ _)⟩
  | .block body, s, s', a, hs, hcur, h => by
    rw [lowerStmt] at h
    exact lowerStmts_sound body hs h
  | .expr value, s, s', a, hs, hcur, h => by
    obtain ⟨v, h₁⟩ := lowerStmt_expr.mp h
    obtain ⟨hs₁, hl₁, -⟩ := lowerExpr_sound value hs hcur h₁
    exact ⟨hs₁, hl₁⟩

/-- Building statements keeps a builder sound. -/
theorem lowerStmts_sound : ∀ (stmts : List Stmt) {s s' : Builder}, s.Sound → lowerStmts stmts s = .ok s' →
    s'.Sound ∧ Leads s.size s s'
  | [], s, s', hs, h => by
    rw [lowerStmts] at h
    obtain rfl := Except.ok.inj h
    exact ⟨hs, .refl _ _⟩
  | stmt :: rest, s, s', hs, h => by
    cases hcur : s.current with
    | none =>
      rw [lowerStmts_of_none hcur] at h
      obtain rfl := Except.ok.inj h
      exact ⟨hs, .refl _ _⟩
    | some a =>
      obtain ⟨s₁, h₁, h₂⟩ := (lowerStmts_cons hcur).mp h
      obtain ⟨hs₁, hl₁⟩ := lowerStmt_sound stmt hs hcur h₁
      obtain ⟨hs₂, hl₂⟩ := lowerStmts_sound rest hs₁ h₂
      exact ⟨hs₂, hl₁.trans (hl₂.mono hl₁.grows.size_le)⟩

end

end Builder
end Chordal.Ssa
