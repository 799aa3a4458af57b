/-
# Kinds and numbers of blocks

Blocks are named for what they are there for. Construction and the removal of
phis use a fixed list of kinds, so what is known of the labels of all functions
can be decided on that list. A block is given the number of its place when it is
added, and keeps it.

Key definitions: `blockKinds`, `Func.Named`.
Key theorems: `named_of_build`, `Func.Named.removePhisOf`.
-/
import Mathlib
import Chordal.Proofs.Ssa.Lowering
import Chordal.Proofs.Ssa.PhiRemoval

namespace Chordal.Ssa

/-- The kinds of blocks that construction and the removal of phis make. -/
def blockKinds : List String :=
  ["entry", "then", "else", "merge", "body", "post", "cond", "exit", "tern_true", "tern_false", "tern_merge", "split"]

namespace Func

/-- All blocks bear the numbers of their places and are of known kinds. -/
def Named (f : Func) : Prop := ∀ b blk, f.block? b = some blk → blk.id = b ∧ blk.kind ∈ blockKinds

namespace Named

variable {f g : Func} {b : BlockId}

theorem indexed (h : f.Named) : f.Indexed := fun b blk hblk => (h b blk hblk).1

theorem of_blocks (h : f.Named) (heq : g.blocks = f.blocks) : g.Named := by
  intro b blk hblk
  unfold block? at hblk
  rw [heq] at hblk
  exact h b blk hblk

theorem modifyBlock (h : f.Named) {k : Block → Block}
    (hk : ∀ blk, (k blk).id = blk.id ∧ (k blk).kind = blk.kind) : (f.modifyBlock b k).Named := by
  intro c blk hblk
  rw [block?_modifyBlock] at hblk
  split_ifs at hblk with hc
  · obtain ⟨blk', hblk', rfl⟩ := Option.map_eq_some_iff.mp hblk
    rw [(hk blk').1, (hk blk').2, hc]
    exact h b blk' hblk'
  · exact h c blk hblk

theorem addBlock (h : f.Named) {kind : String} (hkind : kind ∈ blockKinds) : (f.addBlock kind).2.Named := by
  intro c blk hblk
  have hpush : (f.blocks.push (.empty f.blocks.size kind))[c]? = some blk := hblk
  rw [Array.getElem?_push] at hpush
  split_ifs at hpush with hc
  · obtain rfl := Option.some.inj hpush
    exact ⟨hc.symm, hkind⟩
  · exact h c blk hpush

theorem addEdge (h : f.Named) (a b : BlockId) : (f.addEdge a b).Named := by
  unfold Func.addEdge
  split_ifs
  · exact modifyBlock (modifyBlock h (by intro blk; exact ⟨rfl, rfl⟩)) (by intro blk; exact ⟨rfl, rfl⟩)
  · exact h

/-! ### Taking phis out -/

theorem splitEdge (h : f.Named) (a b : BlockId) : (f.splitEdge a b).2.Named := by
  have hadd : (f.addBlock "split").2.Named := h.addBlock (by decide)
  unfold Func.splitEdge
  dsimp only
  split_ifs
  · exact modifyBlock (modifyBlock (modifyBlock hadd (by intro blk; exact ⟨rfl, rfl⟩))
      (by intro blk; exact ⟨rfl, rfl⟩)) (by intro blk; exact ⟨rfl, rfl⟩)
  · exact modifyBlock hadd (by intro blk; exact ⟨rfl, rfl⟩)
  · exact hadd

theorem copyOnEdge (h : f.Named) (b p : BlockId) (copies : List Copy) : (f.copyOnEdge b p copies).Named := by
  unfold Func.copyOnEdge
  dsimp only
  split_ifs
  · have hcount : ({ (f.splitEdge p b).2 with valueCount := _ } : Func).Named := (h.splitEdge p b).of_blocks rfl
    exact hcount.modifyBlock fun _ => ⟨rfl, rfl⟩
  · have hcount : ({ f with valueCount := _ } : Func).Named := h.of_blocks rfl
    exact hcount.modifyBlock fun _ => ⟨rfl, rfl⟩

theorem removeFrom {phis : List Instr} : ∀ (preds : List BlockId) {f g : Func}, f.Named →
    Func.removeFrom b phis preds f = .ok g → g.Named
  | [], f, g, h, heq => Except.ok.inj heq ▸ h
  | p :: preds, f, g, h, heq => by
    rw [Func.removeFrom] at heq
    split at heq
    · cases heq
    · exact removeFrom preds h heq
    · exact removeFrom preds (h.copyOnEdge b p _) heq

theorem removeBlockPhis (h : f.Named) (heq : f.removeBlockPhis b = .ok g) : g.Named := by
  rcases removeBlockPhis_cases heq with rfl | ⟨blk, -, heq⟩
  · exact h
  · exact removeFrom _ (h.modifyBlock (by intro blk; exact ⟨rfl, rfl⟩)) heq

theorem removePhisOf {f g : Func} {n : Nat} (bs : List BlockId) (h : f.Named)
    (heq : Func.removePhisOf bs f = .ok (g, n)) : g.Named :=
  removePhisOf_keeps removeBlockPhis bs h heq

end Named
end Func

/-! ### Construction -/

namespace Builder

open Typed (Expr Stmt)

section Operations

variable {s s' : Builder} (h : s.func.Named)

include h

theorem named_emit (i : Instr) : (s.emit i).func.Named := by
  unfold emit
  split
  · exact h.modifyBlock fun _ => ⟨rfl, rfl⟩
  · exact h

theorem named_define (ty : Ty) (make : Value → Instr) : (s.define ty make).2.func.Named := by
  have hnew : (s.func.newValue ty).2.Named := h.of_blocks rfl
  exact named_emit (s := { s with func := (s.func.newValue ty).2 }) hnew _

theorem named_recordEdge (a b : BlockId) : (s.recordEdge a b).func.Named := h.addEdge a b

theorem named_jump (b : BlockId) : (s.jump b).func.Named := by
  unfold jump
  split
  · exact h
  · exact named_recordEdge (named_emit h _) _ b

theorem named_branch (c : Value) (a b : BlockId) : (s.branch c a b).func.Named := by
  unfold branch
  split
  · exact h
  · exact named_recordEdge (named_recordEdge (named_emit h _) _ a) _ b

theorem named_enter (b : BlockId) : (s.enter b).func.Named := by
  unfold enter
  dsimp only
  split
  · exact h
  · exact h
  · have hcount : ({ s.func with valueCount := _ } : Func).Named := h.of_blocks rfl
    exact hcount.modifyBlock fun _ => ⟨rfl, rfl⟩

theorem named_insertPhi (b : BlockId) (ty : Ty) (entries : List (Value × BlockId)) :
    (s.insertPhi b ty entries).2.func.Named := by
  have hnew : (s.func.newValue ty).2.Named := h.of_blocks rfl
  exact hnew.modifyBlock fun _ => ⟨rfl, rfl⟩

end Operations

theorem named_addBlocks : ∀ (kinds : List String) {s : Builder}, s.func.Named → (∀ k ∈ kinds, k ∈ blockKinds) →
    (s.addBlocks kinds).func.Named
  | [], _, h, _ => h
  | kind :: kinds, s, h, hk =>
    named_addBlocks kinds (s := (s.addBlock kind).2) (h.addBlock (hk kind List.mem_cons_self))
      fun k hkk => hk k (List.mem_cons_of_mem kind hkk)

variable {s s' : Builder}

theorem named_fork (h : s.func.Named) {kinds : List String} (hk : ∀ k ∈ kinds, k ∈ blockKinds)
    (v : Value) : (s.fork kinds v).func.Named := named_branch (named_addBlocks kinds h hk) v _ _

theorem lowerExpr_named {e : Expr} {v : Value} (hs : s.func.Named) (h : lowerExpr e s = .ok (v, s')) :
    s'.func.Named := by
  induction e generalizing s s' v with
  | int value =>
    have heq : (s.define .int fun target => .const target value) = (v, s') := Except.ok.inj h
    obtain rfl := congrArg Prod.snd heq
    exact named_define hs _ _
  | bool value =>
    have heq : (s.define .bool fun target => .bool target value) = (v, s') := Except.ok.inj h
    obtain rfl := congrArg Prod.snd heq
    exact named_define hs _ _
  | var symbol =>
    obtain ⟨w, -, heq⟩ := lowerExpr_var.mp h
    obtain ⟨-, rfl⟩ := Prod.mk.inj heq
    exact hs
  | unary op operand ih =>
    obtain ⟨w, s₁, h₁, heq⟩ := lowerExpr_unary.mp h
    obtain rfl := congrArg Prod.snd heq
    exact named_define (ih hs h₁) _ _
  | binary op left right ihl ihr =>
    obtain ⟨w, s₁, u, s₂, h₁, h₂, heq⟩ := lowerExpr_binary.mp h
    obtain rfl := congrArg Prod.snd heq
    exact named_define (ihr (ihl hs h₁) h₂) _ _
  | ternary condition ifTrue ifFalse ihc iht ihe =>
    obtain ⟨c, s₁, t, s₂, e, s₃, h₁, h₂, h₃, heq⟩ := lowerExpr_ternary.mp h
    obtain rfl := congrArg Prod.snd heq
    have hfork : (s₁.fork ternaryKinds c).func.Named := named_fork (ihc hs h₁) (by decide) c
    have hfirst := iht (named_enter hfork _) h₂
    have hsecond := ihe (named_enter (named_jump hfirst _) _) h₃
    exact named_insertPhi (named_enter (named_jump hsecond _) _) _ _ _

theorem assign_named {j : Nat} {e : Expr} (hs : s.func.Named) (h : s.assign j e = .ok s') :
    s'.func.Named := by
  obtain ⟨v, s₁, h₁, rfl⟩ := assign_iff.mp h
  exact named_define (lowerExpr_named hs h₁) _ _

theorem named_header (pre : BlockId) : ∀ (carried : List (Nat × Value)) {s : Builder}, s.func.Named →
    (header pre carried s).2.func.Named
  | [], _, h => h
  | (j, v) :: rest, s, h =>
    named_header pre rest (s := (s.define v.ty fun target => .phi target [(v, pre)]).2.bind j _) (named_define h _ _)

theorem closeHeader_named {body latch : BlockId} : ∀ (targets : List (Nat × Value)) {s s' : Builder}, s.func.Named →
    closeHeader body latch targets s = .ok s' → s'.func.Named
  | [], s, s', hs, h => Except.ok.inj h ▸ hs
  | (j, phi) :: rest, s, s', hs, h => by
    rw [closeHeader] at h
    split at h
    · cases h
    · exact closeHeader_named rest (hs.modifyBlock (by intro blk; exact ⟨rfl, rfl⟩)) h

theorem named_branchLoop (h : s.func.Named) (l : LoopBlocks) (a : BlockId) (c : Value) :
    (s.branchLoop l a c).func.Named := (((named_emit h _).addEdge a l.body).addEdge a l.exit)

theorem named_startLoop (h : s.func.Named) (hasStep : Bool) (pre : BlockId) (guard : Value)
    (symbols : IdSet) : (s.startLoop hasStep pre guard symbols).2.func.Named := by
  have hadd : (s.addBlocks (loopKinds hasStep)).func.Named := named_addBlocks _ h (by cases hasStep <;> decide)
  have hbranch := named_branchLoop hadd (loopBlocks s.size hasStep) pre guard
  unfold startLoop openLoop
  dsimp only
  exact named_header pre _ hbranch

theorem named_endBody (h : s.func.Named) (l : LoopBlocks) : (s.endBody l).func.Named :=
  named_jump (s := s.leaveLoop) h l.next

theorem closeLoop_named {x : Builder} {l : LoopBlocks} {targets : List (Nat × Value)} {c : Expr}
    (hx : x.func.Named) (h : x.closeLoop l targets c = .ok s') : s'.func.Named := by
  have henter := named_enter hx l.cond
  unfold closeLoop at h
  dsimp only at h
  split at h
  · exact Except.ok.inj h ▸ named_enter henter l.exit
  · obtain ⟨⟨v, y⟩, hy, h⟩ := bind_eq_ok.mp h
    have hy := lowerExpr_named henter hy
    dsimp only at h
    split at h
    · exact Except.ok.inj h ▸ hy
    · obtain ⟨z, hz, h⟩ := bind_eq_ok.mp h
      have hz := closeHeader_named _ hy hz
      obtain rfl := Except.ok.inj h
      apply named_enter
      exact named_branchLoop hz l _ v

mutual

theorem lowerStmt_named : ∀ (stmt : Stmt) {s s' : Builder}, s.func.Named → lowerStmt stmt s = .ok s' → s'.func.Named
  | .declare _ none, s, s', hs, h => by
    rw [lowerStmt] at h
    exact Except.ok.inj h ▸ hs
  | .declare symbol (some e), s, s', hs, h | .assign symbol e, s, s', hs, h => by
    rw [lowerStmt] at h
    exact assign_named hs h
  | .ifElse c t none, s, s', hs, h => by
    obtain ⟨v, s₁, s₂, h₁, h₂, rfl⟩ := lowerStmt_if.mp h
    have hfork : (s₁.fork ifKinds v).func.Named := named_fork (lowerExpr_named hs h₁) (by decide) v
    exact named_enter (named_jump (lowerStmts_named t (named_enter hfork _) h₂) _) _
  | .ifElse c t (some e), s, s', hs, h => by
    obtain ⟨v, s₁, s₂, s₃, h₁, h₂, h₃, rfl⟩ := lowerStmt_ifElse.mp h
    have hfork : (s₁.fork ifElseKinds v).func.Named := named_fork (lowerExpr_named hs h₁) (by decide) v
    have hfirst := lowerStmts_named t (named_enter hfork _) h₂
    exact named_enter (named_jump (lowerStmts_named e (named_enter (named_jump hfirst _) _) h₃) _) _
  | .while_ c body none, s, s', hs, h => by
    obtain ⟨v, s₁, h₁, ⟨-, rfl⟩ | ⟨pre, -, s₂, h₂, h₃⟩⟩ := lowerStmt_while_cases.mp h
    · exact lowerExpr_named hs h₁
    · have hbody := lowerStmts_named body (named_startLoop (lowerExpr_named hs h₁) false pre v _) h₂
      exact closeLoop_named (named_endBody hbody (loopBlocks s₁.size false)) h₃
  | .while_ c body (some step), s, s', hs, h => by
    obtain ⟨v, s₁, h₁, ⟨-, rfl⟩ | ⟨pre, -, s₂, s₃, h₂, h₃, h₄⟩⟩ := lowerStmt_while_cases.mp h
    · exact lowerExpr_named hs h₁
    · have hbody := lowerStmts_named body (named_startLoop (lowerExpr_named hs h₁) true pre v _) h₂
      have hstep := lowerStmts_named step (named_enter (named_endBody hbody (loopBlocks s₁.size true)) _) h₃
      exact closeLoop_named (named_jump hstep _) h₄
  | .break_, s, s', hs, h => by
    obtain ⟨l, rest, -, rfl⟩ := lowerStmt_break.mp h
    exact named_jump hs _
  | .continue_, s, s', hs, h => by
    obtain ⟨l, rest, -, rfl⟩ := lowerStmt_continue.mp h
    exact named_jump hs _
  | .return_ e, s, s', hs, h => by
    obtain ⟨v, s₁, h₁, rfl⟩ := lowerStmt_return.mp h
    exact named_emit (lowerExpr_named hs h₁) _
  | .block body, s, s', hs, h => by
    rw [lowerStmt] at h
    exact lowerStmts_named body hs h
  | .expr e, s, s', hs, h => by
    obtain ⟨v, h₁⟩ := lowerStmt_expr.mp h
    exact lowerExpr_named hs h₁

theorem lowerStmts_named : ∀ (stmts : List Stmt) {s s' : Builder}, s.func.Named → lowerStmts stmts s = .ok s' →
    s'.func.Named
  | [], s, s', hs, h => by
    rw [lowerStmts] at h
    exact Except.ok.inj h ▸ hs
  | stmt :: rest, s, s', hs, h => by
    cases hcur : s.current with
    | none =>
      rw [lowerStmts_of_none hcur] at h
      exact Except.ok.inj h ▸ hs
    | some a =>
      obtain ⟨s₁, h₁, h₂⟩ := (lowerStmts_cons hcur).mp h
      exact lowerStmts_named rest (lowerStmt_named stmt hs h₁) h₂

end

end Builder

/-- The blocks of a built graph bear their numbers and are of known kinds. -/
theorem named_of_build {t : Typed.Func} {f : Func} (h : build t = .ok f) : f.Named := by
  obtain ⟨s, hs, h⟩ := bind_eq_ok.mp h
  have hempty : (Func.empty t.name t.returns t.isEntry).Named := fun b blk hblk => by cases hblk
  have hstart : (Builder.start t).func.Named := (hempty.addBlock (show "entry" ∈ blockKinds by decide)).of_blocks rfl
  have hnamed := Builder.lowerStmts_named t.body hstart hs
  split at h
  · cases h
  · exact Except.ok.inj h ▸ hnamed

end Chordal.Ssa
