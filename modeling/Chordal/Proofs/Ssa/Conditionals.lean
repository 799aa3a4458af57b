/-
# Expressions bind nothing

Building an expression leaves the bindings as they are, however deep conditionals
are nested in it, and control goes on from it. The blocks there were keep their
phis and their predecessors. Of the blocks it adds, only those where the two arms of
a conditional meet have phis: each of them has one, for the conditional's value, with
an entry for each arm from the block where that arm ended, and these two blocks are
its predecessors.

A conditional is met at some place of the expression, and built by some builder on
the way. `Calls` is one step down the tree: from an expression and the builder that
builds it to a part and the builder that builds the part.

Key definitions: `Func.outline`, `Builder.Calls`, `Builder.ArmsMeet`, `Builder.Accounted`,
`Builder.Silent`.
Key theorems: `Builder.ternary_silent`, `Builder.lowerExpr_silent`,
`Builder.lowerExpr_binds_nothing`.
-/
import Mathlib
import Chordal.Proofs.Ssa.ProperBuilder
import Chordal.Proofs.Ssa.Wiring

namespace Chordal.Ssa

open Typed (Expr)

/-! ### Outlines of blocks -/

namespace Func

variable {f : Func} {a b c : BlockId}

/-- The kind, the phis and the predecessors of a block. -/
def outline (f : Func) (b : BlockId) : Option (String × List Instr × List BlockId) :=
  (f.block? b).map fun blk => (blk.kind, blk.code.filter Instr.isPhi, blk.preds)

theorem lt_of_outline {o : String × List Instr × List BlockId} (h : f.outline b = some o) : b < f.blocks.size := by
  unfold outline at h
  obtain ⟨blk, hblk, -⟩ := Option.map_eq_some_iff.mp h
  exact lt_of_block? hblk

/-- An instruction that is no phi does not show. -/
theorem outline_push (f : Func) (b : BlockId) {i : Instr} (hi : i.isPhi = false) (c : BlockId) :
    (f.push b i).outline c = f.outline c := by
  unfold outline push
  rw [block?_modifyBlock]
  split_ifs with h
  · rw [h, Option.map_map]
    refine congrArg (Option.map · _) (funext fun blk => ?_)
    simp [hi]
  · rfl

theorem outline_addBlock (f : Func) (kind : String) (c : BlockId) :
    (f.addBlock kind).2.outline c = if c = f.blocks.size then some (kind, [], []) else f.outline c := by
  unfold outline addBlock block?
  simp only [Array.getElem?_push]
  split_ifs with h
  · rfl
  · rfl

theorem outline_addEdge (ha : a < f.blocks.size) (c : BlockId) : (f.addEdge a b).outline c =
    if c = b then (f.outline c).map fun o => (o.1, o.2.1, pushNew o.2.2 a) else f.outline c := by
  have hsuccs : ∀ d, (f.modifyBlock a fun blk => { blk with succs := pushNew blk.succs b }).outline d =
      f.outline d := by
    intro d
    unfold outline
    rw [block?_modifyBlock]
    split_ifs with h
    · rw [h, Option.map_map]
      rfl
    · rfl
  rw [← hsuccs]
  unfold addEdge
  rw [if_pos ha]
  generalize f.modifyBlock a _ = g
  unfold outline
  rw [block?_modifyBlock]
  split_ifs with h
  · rw [h, Option.map_map, Option.map_map]
    rfl
  · rfl

end Func

/-- Code without phis has none at its head. -/
theorem takeWhile_of_filter_eq_nil {code : List Instr} (h : code.filter Instr.isPhi = []) :
    code.takeWhile Instr.isPhi = [] := by
  cases code with
  | nil => rfl
  | cons i rest =>
    rw [List.filter_eq_nil_iff] at h
    rw [List.takeWhile_cons, if_neg (h i List.mem_cons_self)]

namespace Builder

variable {s s' x y : Builder} {a b : BlockId} {v : Value}

theorem outline_define (s : Builder) (ty : Ty) {make : Value → Instr} (hphi : ∀ t, (make t).isPhi = false)
    (b : BlockId) : (s.define ty make).2.func.outline b = s.func.outline b := by
  unfold define emit
  cases s.current with
  | none => rfl
  | some a => exact Func.outline_push _ a (hphi _) b

theorem outline_close (s : Builder) (a : BlockId) {i : Instr} (hi : i.isPhi = false) (b : BlockId) :
    (s.close a i).func.outline b = s.func.outline b := Func.outline_push s.func a hi b

theorem outline_addBlock (s : Builder) (kind : String) (c : BlockId) : (s.addBlock kind).2.func.outline c =
    if c = s.size then some (kind, [], []) else s.func.outline c := Func.outline_addBlock s.func kind c

theorem outline_recordEdge (ha : a < s.size) (c : BlockId) : (s.recordEdge a b).func.outline c =
    if c = b then (s.func.outline c).map fun o => (o.1, o.2.1, Func.pushNew o.2.2 a) else s.func.outline c :=
  Func.outline_addEdge ha c

theorem size_close (s : Builder) (a : BlockId) (i : Instr) : (s.close a i).size = s.size := Func.size_push ..

/-- Leaving a block for another one shows in the predecessors of that one. -/
theorem outline_jump (hs : s.Proper) (hcur : s.current = some a) (c : BlockId) : (s.jump b).func.outline c =
    if c = b then (s.func.outline c).map fun o => (o.1, o.2.1, Func.pushNew o.2.2 a) else s.func.outline c := by
  rw [jump_eq hcur, outline_recordEdge (by rw [size_close]; exact hs.current a hcur), outline_close s a rfl]

/-- The blocks of a conditional expression where it is entered. -/
theorem outline_fork (hs : s.Proper) (hcur : s.current = some a) (c : BlockId) :
    (s.fork ternaryKinds v).func.outline c =
      if c = s.size then some ("tern_true", [], [a])
      else if c = (s.size + 1 : Nat) then some ("tern_false", [], [a])
      else if c = (s.size + 2 : Nat) then some ("tern_merge", [], [])
      else s.func.outline c := by
  have hblocks : (s.addBlocks ternaryKinds).func.outline c =
      if c = (s.size + 2 : Nat) then some ("tern_merge", [], [])
      else if c = (s.size + 1 : Nat) then some ("tern_false", [], [])
      else if c = s.size then some ("tern_true", [], [])
      else s.func.outline c := by
    simp only [ternaryKinds, addBlocks, outline_addBlock, size_addBlock]
  have hcur' : (s.addBlocks ternaryKinds).current = some a := (current_addBlocks ternaryKinds s).trans hcur
  have ha := (hs.addBlocks ternaryKinds).current a hcur'
  unfold fork
  rw [branch_eq hcur', outline_recordEdge (by rwa [size_recordEdge, size_close]),
    outline_recordEdge (by rwa [size_close]), outline_close _ _ rfl, hblocks]
  by_cases h0 : c = s.size
  · subst h0
    simp [Func.pushNew]
  · by_cases h1 : c = (s.size + 1 : Nat)
    · subst h1
      simp [Func.pushNew]
    · simp [h0, h1]

/-- The phi of a conditional in a block that has none yet. -/
theorem outline_insertPhi {ty : Ty} {entries : List (Value × BlockId)} {kind : String} {preds : List BlockId}
    (h : s.func.outline b = some (kind, [], preds)) (c : BlockId) :
    (s.insertPhi b ty entries).2.func.outline c =
      if c = b then some (kind, [.phi ⟨s.count, ty⟩ entries], preds) else s.func.outline c := by
  unfold Func.outline at h
  obtain ⟨blk, hblk, heq⟩ := Option.map_eq_some_iff.mp h
  obtain ⟨rfl, hnil, rfl⟩ := Prod.mk.inj heq |>.imp_right Prod.mk.inj
  have hfunc : (s.insertPhi b ty entries).2.func =
      ({ s.func with valueCount := s.count + 1 } : Func).modifyBlock b fun blk =>
        { blk with code := blk.phis ++ .phi ⟨s.count, ty⟩ entries :: blk.body } := rfl
  rw [hfunc]
  unfold Func.outline
  rw [Func.block?_modifyBlock]
  split_ifs with hc
  · have hb : ({ s.func with valueCount := s.count + 1 } : Func).block? b = some blk := hblk
    have hbody : blk.phis ++ blk.body = blk.code := List.takeWhile_append_dropWhile
    have hphis : blk.phis = [] := takeWhile_of_filter_eq_nil hnil
    rw [hphis, List.nil_append] at hbody
    rw [hb, Option.map_some, Option.map_some, hphis, hbody, List.nil_append,
      List.filter_cons_of_pos (by rfl), hnil]
  · rfl

/-! ### The parts of an expression -/

/-- One step down the tree: from an expression and the builder that builds it to a
part and the builder that builds the part. -/
inductive Calls : Expr × Builder → Expr × Builder → Prop
  | operand (op : UnaryOp) (e : Expr) (s : Builder) : Calls (.unary op e, s) (e, s)
  | left (op : BinaryOp) (l r : Expr) (s : Builder) : Calls (.binary op l r, s) (l, s)
  | right (op : BinaryOp) {l : Expr} (r : Expr) {s s₁ : Builder} {v : Value} (h : lowerExpr l s = .ok (v, s₁)) :
      Calls (.binary op l r, s) (r, s₁)
  | condition (c t e : Expr) (s : Builder) : Calls (.ternary c t e, s) (c, s)
  | ifTrue {c : Expr} (t e : Expr) {s s₁ : Builder} {v : Value} (h : lowerExpr c s = .ok (v, s₁)) :
      Calls (.ternary c t e, s) (t, (s₁.fork ternaryKinds v).enter s₁.size)
  | ifFalse {c t : Expr} (e : Expr) {s s₁ s₂ : Builder} {v w : Value} (h : lowerExpr c s = .ok (v, s₁))
      (h' : lowerExpr t ((s₁.fork ternaryKinds v).enter s₁.size) = .ok (w, s₂)) :
      Calls (.ternary c t e, s) (e, s₁.secondWay s₂)

/-- The arms of a conditional that is built at `r` have the values `t` and `e` and
end in the blocks `x` and `y`; they meet in the block `b`, and `target` is the value
of the conditional. -/
def ArmsMeet (condition ifTrue ifFalse : Expr) (r : Builder) (b : BlockId) (target t e : Value)
    (x y : BlockId) : Prop :=
  ∃ c r₁ r₂ r₃ r', lowerExpr condition r = .ok (c, r₁) ∧
    lowerExpr ifTrue ((r₁.fork ternaryKinds c).enter r₁.size) = .ok (t, r₂) ∧ r₂.current = some x ∧
    lowerExpr ifFalse (r₁.secondWay r₂) = .ok (e, r₃) ∧ r₃.current = some y ∧
    b = (r₁.size + 2 : Nat) ∧ lowerExpr (.ternary condition ifTrue ifFalse) r = .ok (target, r')

/-- The phis and predecessors of a block `b` that building `e` at `s` adds. A block
where arms meet has the phi of a conditional in `e`, and other blocks have no phi. -/
def Accounted (e : Expr) (s : Builder) (b : BlockId) (kind : String) (phis : List Instr) (preds : List BlockId) :
    Prop :=
  if kind = "tern_merge" then
    ∃ condition ifTrue ifFalse r target t f x y,
      Relation.ReflTransGen Calls (e, s) (.ternary condition ifTrue ifFalse, r) ∧
      ArmsMeet condition ifTrue ifFalse r b target t f x y ∧
      phis = [.phi target [(t, x), (f, y)]] ∧ preds = [x, y] ∧ x ≠ y
  else phis = []

variable {e e₁ e₂ : Expr} {kind : String} {phis : List Instr} {preds : List BlockId}

/-- A block where no arms meet is to have no phi. -/
theorem accounted_of_ne (hkind : kind ≠ "tern_merge") : Accounted e s b kind [] preds := by
  unfold Accounted
  rw [if_neg hkind]

/-- What a part adds is accounted for by the whole. -/
theorem Accounted.lift (h : Accounted e₁ x b kind phis preds) (hc : Relation.ReflTransGen Calls (e, s) (e₁, x)) :
    Accounted e s b kind phis preds := by
  unfold Accounted at h ⊢
  split_ifs at h ⊢
  · obtain ⟨condition, ifTrue, ifFalse, r, target, t, f, i, j, hr, hrest⟩ := h
    exact ⟨condition, ifTrue, ifFalse, r, target, t, f, i, j, hc.trans hr, hrest⟩
  · exact h

/-- What building the expression `e` has done to a builder. -/
structure Silent (e : Expr) (s s' : Builder) : Prop where
  proper : s'.Proper
  size_le : s.size ≤ s'.size
  current : ∃ b, s'.current = some b ∧ (s.current = some b ∨ s.size ≤ b)
  bindings : s'.bindings = s.bindings
  pending : s'.pending = s.pending
  loops : s'.loops = s.loops
  kept : Kept (· < s.size) s s'
  old : ∀ b, b < s.size → s'.func.outline b = s.func.outline b
  new : ∀ b kind phis preds, s.size ≤ b → s'.func.outline b = some (kind, phis, preds) →
    Accounted e s b kind phis preds

namespace Silent

theorem refl (e : Expr) (hs : s.Proper) (hcur : s.current = some a) : Silent e s s where
  proper := hs
  size_le := le_rfl
  current := ⟨a, hcur, Or.inl hcur⟩
  bindings := rfl
  pending := rfl
  loops := rfl
  kept := .refl _ s
  old _ _ := rfl
  new _ _ _ _ hb ho := absurd (Func.lt_of_outline ho) (Nat.not_lt.mpr hb)

theorem lift (h : Silent e₁ s x) (hc : Relation.ReflTransGen Calls (e, s) (e₁, s)) : Silent e s x :=
  { h with new := fun b kind phis preds hb ho => (h.new b kind phis preds hb ho).lift hc }

/-- One part after the other. -/
theorem trans (h₁ : Silent e s x) (h₂ : Silent e₂ x s') (hc : Relation.ReflTransGen Calls (e, s) (e₂, x)) :
    Silent e s s' where
  proper := h₂.proper
  size_le := h₁.size_le.trans h₂.size_le
  current := by
    obtain ⟨b, hb, hbx⟩ := h₂.current
    refine ⟨b, hb, ?_⟩
    rcases hbx with hbx | hbx
    · obtain ⟨c, hc, hcs⟩ := h₁.current
      rw [hc] at hbx
      exact Option.some.inj hbx ▸ hcs
    · exact Or.inr (h₁.size_le.trans hbx)
  bindings := h₂.bindings.trans h₁.bindings
  pending := h₂.pending.trans h₁.pending
  loops := h₂.loops.trans h₁.loops
  kept := h₁.kept.trans h₂.kept fun _ hb => hb.trans_le h₁.size_le
  old b hb := (h₂.old b (hb.trans_le h₁.size_le)).trans (h₁.old b hb)
  new b kind phis preds hb ho := by
    by_cases hlt : b < x.size
    · rw [h₂.old b hlt] at ho
      exact h₁.new b kind phis preds hb ho
    · exact (h₂.new b kind phis preds (Nat.le_of_not_lt hlt) ho).lift hc

/-- The instruction that defines the value of an expression. -/
theorem define (h : Silent e s x) (ty : Ty) {make : Value → Instr} (hphi : ∀ t, (make t).isPhi = false) :
    Silent e s (x.define ty make).2 where
  proper := h.proper.define ty make
  size_le := by
    rw [size_define]
    exact h.size_le
  current := by
    rw [current_define]
    exact h.current
  bindings := (bindings_define_snd x ty make).trans h.bindings
  pending := (pending_define x ty make).trans h.pending
  loops := (loops_define x ty make).trans h.loops
  kept := h.kept.next (kept_define x ty make)
  old b hb := (outline_define x ty hphi b).trans (h.old b hb)
  new b kind phis preds hb ho := h.new b kind phis preds hb ((outline_define x ty hphi b).symm.trans ho)

end Silent

/-! ### Conditionals -/

section Ternary

variable {condition ifTrue ifFalse : Expr} {s₁ s₂ s₃ : Builder} {c t f : Value}

theorem size_first (hcur : s₁.current = some a) : ((s₁.fork ternaryKinds c).enter s₁.size).size = s₁.size + 3 := by
  rw [size_enter, size_fork hcur]
  rfl

theorem size_secondWay (s x : Builder) : (s.secondWay x).size = x.size := by
  unfold secondWay
  rw [size_enter, size_jump]

section First

variable (hs : s₁.Proper) (hcur : s₁.current = some a)
  (ht : Silent ifTrue ((s₁.fork ternaryKinds c).enter s₁.size) s₂)

include hs hcur ht

/-- The false arm begins with the bindings there were, and the end of the true arm waits. -/
theorem begins_ifFalse : Begins s₁ (s₁.secondWay s₂) (s₁.size + 1 : Nat) (s₂.exitEdge (s₁.size + 2 : Nat)) ∧
    (s₁.secondWay s₂).func = (s₂.jump (s₁.size + 2 : Nat)).func := by
  obtain ⟨hfirst, -⟩ := begins_first ternaryKinds c hs hcur (by decide)
  have hpend : s₂.pending = (s₁.pending ++ [⟨a, (s₁.size + 1 : Nat), s₁.bindings⟩]) ++ [] := by
    rw [ht.pending, hfirst.pending, List.append_nil]
  exact begins_second hs ht.proper ((size_first hcur).ge.trans ht.size_le) hpend (ht.loops.trans hfirst.loops)
    fun _ he => absurd he List.not_mem_nil

/-- The true arm ends in its first block or in a block that it added. -/
theorem ifTrue_end {i : BlockId} (hi : s₂.current = some i) :
    (i = s₁.size ∨ s₁.size + 3 ≤ i) ∧ i < s₂.size := by
  refine ⟨?_, ht.proper.current i hi⟩
  obtain ⟨hfirst, -⟩ := begins_first ternaryKinds c hs hcur (by decide)
  obtain ⟨b, hb, hbi⟩ := ht.current
  rw [hi] at hb
  obtain rfl := Option.some.inj hb
  rw [hfirst.current, size_first hcur] at hbi
  exact hbi.imp_left fun h => (Option.some.inj h).symm

/-- The blocks where the false arm begins. The true arm has left those of the
conditional as they were. -/
theorem outline_secondWay {i : BlockId} (hi : s₂.current = some i) (b : BlockId) :
    (s₁.secondWay s₂).func.outline b =
      if b = (s₁.size + 2 : Nat) then some ("tern_merge", [], [i]) else s₂.func.outline b := by
  obtain ⟨-, hfunc⟩ := begins_ifFalse hs hcur ht
  obtain ⟨-, hfork⟩ := begins_first ternaryKinds c hs hcur (by decide)
  rw [hfunc, outline_jump ht.proper hi]
  split_ifs with hb
  · subst hb
    rw [ht.old _ (by rw [size_first hcur]; exact Nat.lt_succ_self _), hfork, outline_fork hs hcur]
    simp [Func.pushNew]
  · rfl

end First

/-- The builders of a conditional: its condition is built, and then its arms. -/
structure Arms (ifTrue ifFalse : Expr) (s₁ s₂ s₃ : Builder) (c : Value) (a i j : BlockId) : Prop where
  proper : s₁.Proper
  before : s₁.current = some a
  first : Silent ifTrue ((s₁.fork ternaryKinds c).enter s₁.size) s₂
  second : Silent ifFalse (s₁.secondWay s₂) s₃
  firstEnd : s₂.current = some i
  secondEnd : s₃.current = some j

namespace Arms

variable {i j : BlockId} (h : Arms ifTrue ifFalse s₁ s₂ s₃ c a i j)

include h

/-- The arms end in different blocks. -/
theorem ends_ne : i ≠ j := by
  obtain ⟨hi, hlt⟩ := ifTrue_end h.proper h.before h.first h.firstEnd
  obtain ⟨hsecond, -⟩ := begins_ifFalse h.proper h.before h.first
  obtain ⟨b, hb, hbj⟩ := h.second.current
  rw [h.secondEnd] at hb
  obtain rfl := Option.some.inj hb
  rw [hsecond.current, size_secondWay] at hbj
  rintro rfl
  rcases hbj with hbj | hbj
  · have hnew : s₁.size + 1 = i := Option.some.inj hbj
    rcases hi with rfl | hi
    · exact Nat.succ_ne_self _ hnew
    · omega
  · exact absurd hlt (Nat.not_lt.mpr hbj)

theorem size_le : s₁.size + 3 ≤ s₂.size ∧ s₂.size ≤ s₃.size := by
  have hle₂ := h.first.size_le
  have hle₃ := h.second.size_le
  rw [size_first h.before] at hle₂
  rw [size_secondWay] at hle₃
  exact ⟨hle₂, hle₃⟩

/-- The block where the arms meet has their ends as its predecessors. -/
theorem outline_meet (b : BlockId) : (s₃.jump (s₁.size + 2 : Nat)).func.outline b =
    if b = (s₁.size + 2 : Nat) then some ("tern_merge", [], [i, j]) else s₃.func.outline b := by
  have hlt : (s₁.size + 2 : Nat) < (s₁.secondWay s₂).size := by
    rw [size_secondWay]
    exact Nat.lt_of_lt_of_le (Nat.lt_succ_self _) h.size_le.1
  rw [outline_jump h.second.proper h.secondEnd]
  split_ifs with hb
  · subst hb
    rw [h.second.old _ hlt, outline_secondWay h.proper h.before h.first h.firstEnd, if_pos rfl]
    simp [Func.pushNew, h.ends_ne.symm]
  · rfl

/-- Nothing is merged where the arms meet. -/
theorem enter_meet : ((s₃.jump (s₁.size + 2 : Nat)).enter (s₁.size + 2 : Nat)).func =
      (s₃.jump (s₁.size + 2 : Nat)).func ∧
    ((s₃.jump (s₁.size + 2 : Nat)).enter (s₁.size + 2 : Nat)).bindings = s₁.bindings ∧
    ((s₃.jump (s₁.size + 2 : Nat)).enter (s₁.size + 2 : Nat)).current = some (s₁.size + 2 : Nat) ∧
    ((s₃.jump (s₁.size + 2 : Nat)).enter (s₁.size + 2 : Nat)).pending = s₁.pending := by
  obtain ⟨hfirst, -⟩ := begins_first ternaryKinds c h.proper h.before (by decide)
  obtain ⟨hsecond, -⟩ := begins_ifFalse h.proper h.before h.first
  have hnil : Older s₁.size [] := fun _ he => absurd he List.not_mem_nil
  have hpend : s₃.pending = (s₁.pending ++ ([] ++ s₂.exitEdge (s₁.size + 2 : Nat))) ++ [] := by
    rw [h.second.pending, hsecond.pending, List.nil_append, List.append_nil]
  obtain ⟨hedges, hmet⟩ := meet_two h.proper hnil hnil hpend
  have hagree : ∀ e ∈ (s₃.jump (s₁.size + 2 : Nat)).edgesTo (s₁.size + 2 : Nat), e.bindings = s₁.bindings := by
    intro e he
    rw [hedges] at he
    unfold exitEdge at he
    rcases List.mem_append.mp he with he | he
    · obtain ⟨b, -, rfl⟩ := List.mem_map.mp he
      exact h.first.bindings.trans hfirst.bindings
    · obtain ⟨b, -, rfl⟩ := List.mem_map.mp he
      exact h.second.bindings.trans hsecond.bindings
  obtain ⟨hfunc, hbind, hcur⟩ := enter_of_agree h.proper.bindings (by simp [hedges, exitEdge, h.firstEnd]) hagree
  exact ⟨hfunc, hbind, hcur, by rw [hmet, List.append_nil, List.append_nil]⟩

/-- The blocks there were before a conditional only get longer. -/
theorem kept (ty : Ty) (entries : List (Value × BlockId)) :
    Kept (· < s₁.size) s₁ ((s₃.jump (s₁.size + 2 : Nat)).enterPhi (s₁.size + 2 : Nat) ty entries) := by
  have hnot : ∀ k, ¬ (s₁.size + k : Nat) < s₁.size := fun k => Nat.not_lt.mpr (Nat.le_add_right _ _)
  have hA : Kept (· < s₁.size) s₁ ((s₁.fork ternaryKinds c).enter s₁.size) :=
    (kept_fork h.before ternaryKinds c).next (kept_enter _ (Nat.lt_irrefl _))
  have hB : Kept (· < s₁.size) s₂ (s₁.secondWay s₂) := (kept_jump s₂ _).next (kept_enter _ (hnot 1))
  have hC : Kept (· < s₁.size) s₃ ((s₃.jump (s₁.size + 2 : Nat)).enterPhi (s₁.size + 2 : Nat) ty entries) := by
    refine (kept_jump s₃ _).next (kept_enterPhi _ ?_ ty entries)
    exact hnot 2
  obtain ⟨hle₂, -⟩ := h.size_le
  have hx : Kept (· < s₁.size) s₁ s₂ := hA.trans h.first.kept fun b hb => by
    rw [size_first h.before]
    exact Nat.lt_add_right 3 hb
  have hy : Kept (· < s₁.size) s₁ s₃ := (hx.next hB).trans h.second.kept fun b hb => by
    rw [size_secondWay]
    exact hb.trans_le ((Nat.le_add_right _ _).trans hle₂)
  exact hy.next hC

/-- The blocks behind a conditional. -/
theorem outline_enterPhi (ty : Ty) (entries : List (Value × BlockId)) (b : BlockId) :
    ((s₃.jump (s₁.size + 2 : Nat)).enterPhi (s₁.size + 2 : Nat) ty entries).func.outline b =
      if b = (s₁.size + 2 : Nat) then
        some ("tern_merge",
          [.phi ⟨((s₃.jump (s₁.size + 2 : Nat)).enter (s₁.size + 2 : Nat)).count, ty⟩ entries], [i, j])
      else s₃.func.outline b := by
  obtain ⟨hfunc, -⟩ := h.enter_meet
  have hb := h.outline_meet (s₁.size + 2 : Nat)
  rw [if_pos rfl, ← hfunc] at hb
  unfold enterPhi
  rw [outline_insertPhi hb, hfunc, h.outline_meet]
  split_ifs <;> rfl

/-- The false arm leaves alone what was there before. -/
theorem outline_second {b : BlockId} (hb : b < s₂.size) (hne : b ≠ (s₁.size + 2 : Nat)) :
    s₃.func.outline b = s₂.func.outline b := by
  rw [h.second.old b (by rwa [size_secondWay]), outline_secondWay h.proper h.before h.first h.firstEnd, if_neg hne]

/-- The true arm leaves alone what was there before. -/
theorem outline_first {b : BlockId} (hb : b < (s₁.size + 2 : Nat)) : s₂.func.outline b =
    if b = s₁.size then some ("tern_true", [], [a])
    else if b = (s₁.size + 1 : Nat) then some ("tern_false", [], [a]) else s₁.func.outline b := by
  obtain ⟨-, hfork⟩ := begins_first ternaryKinds c h.proper h.before (by decide)
  rw [h.first.old b (by rw [size_first h.before]; exact Nat.lt_succ_of_lt hb), hfork, outline_fork h.proper h.before,
    if_neg (Nat.ne_of_lt hb)]

end Arms

section

variable {i j : BlockId} (hc : Silent condition s s₁) (h : Arms ifTrue ifFalse s₁ s₂ s₃ c a i j)
  (h₁ : lowerExpr condition s = .ok (c, s₁))
  (h₂ : lowerExpr ifTrue ((s₁.fork ternaryKinds c).enter s₁.size) = .ok (t, s₂))
  (h₃ : lowerExpr ifFalse (s₁.secondWay s₂) = .ok (f, s₃))

include hc h h₁ h₂ h₃

/-- Each new block of a conditional is accounted for: that where the arms meet by the
conditional, those where they begin since they have no phi, and the others by the part
that added them. -/
theorem accounted_ternary (hb : s.size ≤ b)
    (ho : ((s₃.jump (s₁.size + 2 : Nat)).enterPhi (s₁.size + 2 : Nat) ifTrue.ty
      (s₂.armEntry t ++ s₃.armEntry f)).func.outline b = some (kind, phis, preds)) :
    Accounted (.ternary condition ifTrue ifFalse) s b kind phis preds := by
  have hentries : s₂.armEntry t ++ s₃.armEntry f = [(t, i), (f, j)] := by
    simp [armEntry, h.firstEnd, h.secondEnd]
  rw [h.outline_enterPhi] at ho
  split_ifs at ho with hmerge
  · obtain ⟨rfl, rfl, rfl⟩ := Prod.mk.inj (Option.some.inj ho) |>.imp_right Prod.mk.inj
    unfold Accounted
    rw [if_pos rfl]
    exact ⟨condition, ifTrue, ifFalse, s, _, t, f, i, j, .refl,
      ⟨c, s₁, s₂, s₃, _, h₁, h₂, h.firstEnd, h₃, h.secondEnd, hmerge,
        lowerExpr_ternary.mpr ⟨c, s₁, t, s₂, f, s₃, h₁, h₂, h₃, rfl⟩⟩, by rw [hentries], rfl, h.ends_ne⟩
  by_cases hb₂ : b < s₂.size
  · rw [h.outline_second hb₂ hmerge] at ho
    by_cases hb₁ : b < (s₁.size + 2 : Nat)
    · rw [h.outline_first hb₁] at ho
      split_ifs at ho
      · obtain ⟨rfl, rfl, rfl⟩ := Prod.mk.inj (Option.some.inj ho) |>.imp_right Prod.mk.inj
        exact accounted_of_ne (by decide)
      · obtain ⟨rfl, rfl, rfl⟩ := Prod.mk.inj (Option.some.inj ho) |>.imp_right Prod.mk.inj
        exact accounted_of_ne (by decide)
      · exact (hc.new b kind phis preds hb ho).lift (.single (.condition condition ifTrue ifFalse s))
    · refine (h.first.new b kind phis preds ?_ ho).lift (.single (.ifTrue ifTrue ifFalse h₁))
      rw [size_first h.before]
      exact Nat.lt_of_le_of_ne (Nat.le_of_not_lt hb₁) (Ne.symm hmerge)
  · refine (h.second.new b kind phis preds ?_ ho).lift (.single (.ifFalse ifFalse h₁ h₂))
    rw [size_secondWay]
    exact Nat.le_of_not_lt hb₂

/-- A conditional binds nothing if its parts do not. -/
theorem ternary_silent :
    Silent (.ternary condition ifTrue ifFalse) s ((s₃.jump (s₁.size + 2 : Nat)).enterPhi (s₁.size + 2 : Nat)
      ifTrue.ty (s₂.armEntry t ++ s₃.armEntry f)) := by
  obtain ⟨-, hbind, hcur, hpend⟩ := h.enter_meet
  obtain ⟨hle₂, hle₃⟩ := h.size_le
  have hlt : (s₁.size + 2 : Nat) < s₃.size :=
    Nat.lt_of_lt_of_le (Nat.lt_succ_self _) (hle₂.trans hle₃)
  have hloops : s₃.loops = s₁.loops :=
    h.second.loops.trans (begins_ifFalse h.proper h.before h.first).1.loops
  have hproper : ((s₃.jump (s₁.size + 2 : Nat)).enter (s₁.size + 2 : Nat)).Proper :=
    (h.second.proper.jump hlt).enter (by rwa [size_jump])
  refine ⟨hproper.congr (Func.size_modifyBlock ..).ge rfl rfl rfl rfl, ?_, ⟨(s₁.size + 2 : Nat), hcur, Or.inr ?_⟩,
    hbind.trans hc.bindings, hpend.trans hc.pending, ?_,
    hc.kept.trans (h.kept _ _) fun _ hb => hb.trans_le hc.size_le, fun b hb => ?_,
    fun b kind phis preds => accounted_ternary hc h h₁ h₂ h₃⟩
  · rw [size_enterPhi, size_jump]
    exact hc.size_le.trans ((Nat.le_add_right _ _).trans (hle₂.trans hle₃))
  · exact hc.size_le.trans (Nat.le_add_right _ _)
  · rw [loops_enterPhi, loops_jump, hloops, hc.loops]
  · have hb₁ : b < s₁.size := hb.trans_le hc.size_le
    have hb₂ : b < (s₁.size + 2 : Nat) := Nat.lt_add_right 2 hb₁
    rw [h.outline_enterPhi, if_neg (Nat.ne_of_lt hb₂), h.outline_second (hb₂.trans_le (by omega)) (Nat.ne_of_lt hb₂),
      h.outline_first hb₂, if_neg (Nat.ne_of_lt hb₁), if_neg (Nat.ne_of_lt (Nat.lt_succ_of_lt hb₁))]
    exact hc.old b hb

end

end Ternary

/-! ### All expressions -/

/-- Building an expression binds nothing. -/
theorem lowerExpr_silent : ∀ (e : Expr) {s s' : Builder} {a : BlockId} {v : Value}, s.Proper →
    s.current = some a → lowerExpr e s = .ok (v, s') → Silent e s s'
  | .int value, s, s', a, v, hs, hcur, h => by
    rw [lowerExpr] at h
    obtain rfl := congrArg Prod.snd (Except.ok.inj h)
    exact (Silent.refl _ hs hcur).define .int fun _ => rfl
  | .bool value, s, s', a, v, hs, hcur, h => by
    rw [lowerExpr] at h
    obtain rfl := congrArg Prod.snd (Except.ok.inj h)
    exact (Silent.refl _ hs hcur).define .bool fun _ => rfl
  | .var symbol, s, s', a, v, hs, hcur, h => by
    obtain ⟨w, -, heq⟩ := lowerExpr_var.mp h
    obtain ⟨-, rfl⟩ := Prod.mk.inj heq
    exact .refl _ hs hcur
  | .unary op operand, s, s', a, v, hs, hcur, h => by
    obtain ⟨w, s₁, h₁, heq⟩ := lowerExpr_unary.mp h
    obtain rfl := congrArg Prod.snd heq
    have hx := lowerExpr_silent operand hs hcur h₁
    exact (hx.lift (.single (.operand op operand s))).define operand.ty fun _ => rfl
  | .binary op left right, s, s', a, v, hs, hcur, h => by
    obtain ⟨w, s₁, w', s₂, h₁, h₂, heq⟩ := lowerExpr_binary.mp h
    obtain rfl := congrArg Prod.snd heq
    have hx := lowerExpr_silent left hs hcur h₁
    obtain ⟨b, hb, -⟩ := hx.current
    have hy := lowerExpr_silent right hx.proper hb h₂
    have hxy := (hx.lift (.single (.left op left right s))).trans hy (.single (.right op right h₁))
    exact hxy.define (Expr.binary op left right).ty fun _ => rfl
  | .ternary condition ifTrue ifFalse, s, s', a, v, hs, hcur, h => by
    obtain ⟨c, s₁, t, s₂, f, s₃, h₁, h₂, h₃, heq⟩ := lowerExpr_ternary.mp h
    obtain rfl := congrArg Prod.snd heq
    have hc := lowerExpr_silent condition hs hcur h₁
    obtain ⟨b, hb, -⟩ := hc.current
    obtain ⟨hfirst, -⟩ := begins_first ternaryKinds c hc.proper hb (by decide)
    have ht := lowerExpr_silent ifTrue hfirst.proper hfirst.current h₂
    obtain ⟨hsecond, -⟩ := begins_ifFalse hc.proper hb ht
    have hf := lowerExpr_silent ifFalse hsecond.proper hsecond.current h₃
    obtain ⟨i, hi, -⟩ := ht.current
    obtain ⟨j, hj, -⟩ := hf.current
    exact ternary_silent hc ⟨hc.proper, hb, ht, hf, hi, hj⟩ h₁ h₂ h₃

theorem Silent.block (h : Silent e s s') {blk : Block} (hb : s.size ≤ b) (hblk : s'.func.block? b = some blk) :
    Accounted e s b blk.kind (blk.code.filter Instr.isPhi) blk.preds :=
  h.new b _ _ _ hb (by unfold Func.outline; rw [hblk]; rfl)

theorem Silent.phis_old (h : Silent e s s') (hb : b < s.size) :
    (s'.code b).filter Instr.isPhi = (s.code b).filter Instr.isPhi := by
  obtain ⟨blk, hblk, hcode⟩ := Func.exists_block hb
  obtain ⟨blk', hblk', hcode'⟩ := Func.exists_block (hb.trans_le h.size_le)
  have hold := h.old b hb
  unfold Func.outline at hold
  rw [hblk, hblk'] at hold
  change (s'.func.code b).filter Instr.isPhi = (s.func.code b).filter Instr.isPhi
  rw [hcode, hcode']
  exact congrArg (fun o => o.2.1) (Option.some.inj hold)

/-- **Expressions bind nothing.** From a proper builder where control can be, building
an expression leads to one where control can be, with the same bindings, here and on
the edges that wait. Blocks there were before have the phis they had. A new block has
no phi, unless it is one where the arms of a conditional meet: then its only phi is the
conditional's value, with an entry for the value of each arm, from the block where that
arm ended, and these two blocks are its predecessors. -/
theorem lowerExpr_binds_nothing (e : Expr) (hs : s.Proper) (hcur : s.current = some a)
    (h : lowerExpr e s = .ok (v, s')) :
    (∃ b, s'.current = some b) ∧ s'.bindings = s.bindings ∧ s'.pending = s.pending ∧
      (∀ b, b < s.size → (s'.code b).filter Instr.isPhi = (s.code b).filter Instr.isPhi) ∧
      (∀ b blk, s.size ≤ b → s'.func.block? b = some blk → blk.kind ≠ "tern_merge" →
        blk.code.filter Instr.isPhi = []) ∧
      ∀ b blk, s.size ≤ b → s'.func.block? b = some blk → blk.kind = "tern_merge" →
        ∃ condition ifTrue ifFalse r target t f x y,
          Relation.ReflTransGen Calls (e, s) (.ternary condition ifTrue ifFalse, r) ∧
          ArmsMeet condition ifTrue ifFalse r b target t f x y ∧
          blk.code.filter Instr.isPhi = [.phi target [(t, x), (f, y)]] ∧ blk.preds = [x, y] ∧ x ≠ y := by
  have hsilent := lowerExpr_silent e hs hcur h
  obtain ⟨b, hb, -⟩ := hsilent.current
  refine ⟨⟨b, hb⟩, hsilent.bindings, hsilent.pending, fun b hb => hsilent.phis_old hb, ?_, ?_⟩
  · intro b blk hb hblk hkind
    have hacc := hsilent.block hb hblk
    unfold Accounted at hacc
    rwa [if_neg hkind] at hacc
  · intro b blk hb hblk hkind
    have hacc := hsilent.block hb hblk
    unfold Accounted at hacc
    rwa [if_pos hkind] at hacc

/-- A builder in the first block of a function, with one variable. -/
def oneVariable : Builder :=
  ⟨⟨"f", .int, false, 0, #[⟨0, "entry", [.const ⟨0, .int⟩ 5], [], []⟩], 1⟩, some 0, [(7, ⟨0, .int⟩)], [], []⟩

theorem proper_oneVariable : oneVariable.Proper :=
  ⟨by decide, fun _ he => absurd he List.not_mem_nil, by decide, List.pairwise_singleton _ _,
    fun _ he => absurd he List.not_mem_nil⟩

/-- A conditional with conditionals in its condition and in both arms. -/
def nestedConditional : Expr :=
  .ternary (.ternary (.bool true) (.bool false) (.bool true))
    (.ternary (.bool false) (.var ⟨7, "x", .int⟩) (.int 1))
    (.unary .neg (.ternary (.bool true) (.int 2) (.var ⟨7, "x", .int⟩)))

theorem lowerExpr_nestedConditional : ((lowerExpr nestedConditional oneVariable).toOption.bind fun r =>
    (r.2.func.block? 6).map fun blk => (blk.kind, blk.preds)) = some ("tern_merge", [9, 12]) := by
  decide +kernel

/-- The phi of the outer conditional stands in the block 6. Its entries come from the
blocks 9 and 12, where the arms' own conditionals met. -/
theorem nestedConditional_binds_nothing : oneVariable.Proper ∧
    ∃ v s', lowerExpr nestedConditional oneVariable = .ok (v, s') ∧ s'.bindings = oneVariable.bindings ∧
    ∃ blk target t f, s'.func.block? 6 = some blk ∧ blk.code.filter Instr.isPhi = [.phi target [(t, 9), (f, 12)]] := by
  refine ⟨proper_oneVariable, ?_⟩
  obtain ⟨⟨v, s'⟩, hr, hmap⟩ := Option.bind_eq_some_iff.mp lowerExpr_nestedConditional
  obtain ⟨blk, hblk, heq⟩ := Option.map_eq_some_iff.mp hmap
  obtain ⟨hkind, hends⟩ := Prod.mk.inj heq
  have h : lowerExpr nestedConditional oneVariable = .ok (v, s') := eq_ok_of_toOption hr
  obtain ⟨-, hbind, -, -, -, hmeet⟩ := lowerExpr_binds_nothing nestedConditional proper_oneVariable rfl h
  obtain ⟨-, -, -, -, target, t, f, x, y, -, -, hphis, hpreds, -⟩ := hmeet 6 blk (by decide) hblk hkind
  rw [hends] at hpreds
  obtain ⟨rfl, hy⟩ := List.cons.inj hpreds
  obtain ⟨rfl, -⟩ := List.cons.inj hy
  exact ⟨v, s', h, hbind, blk, target, t, f, hblk, hphis⟩

end Builder
end Chordal.Ssa
