/-
# Places do not matter to the checker

A place is used for nothing but the diagnostic that names it. Trees that differ in
places only are both rejected, or they are checked to the same typed tree.

Key definitions: `Agree`.
Key theorems: `checkStmt_unplaced`, `checkFunc_unique`.
-/
import Mathlib
import Chordal.Proofs.Syntax.Grammar
import Chordal.Proofs.Typed.FlowExact

namespace Chordal.Typed

/-- Both fail, or both give the same. -/
def Agree {α : Type} (x y : Except Diagnostic α) : Prop := x.toOption = y.toOption

namespace Agree

variable {α β : Type}

theorem bind {x y : Except Diagnostic α} {f g : α → Except Diagnostic β} (h : Agree x y)
    (hf : ∀ a, Agree (f a) (g a)) : Agree (x >>= f) (y >>= g) := by
  unfold Agree at h
  cases x with
  | error d =>
    cases y with
    | error d' => rfl
    | ok b => cases h
  | ok a =>
    cases y with
    | error d' => cases h
    | ok b =>
      obtain rfl := Option.some.inj h
      exact hf a

theorem eq_of_ok {x y : Except Diagnostic α} {a b : α} (h : Agree x y) (hx : x = .ok a) (hy : y = .ok b) : a = b := by
  subst hx hy
  exact Option.some.inj h

end Agree

/-! ### Steps that name a place -/

section

variable (ctx : Context) (p q : Span)

theorem lookup_agree (name : String) : Agree (ctx.lookup p name) (ctx.lookup q name) := by
  unfold Context.lookup
  split <;> rfl

theorem declare_agree (name : String) (ty : Ty) : Agree (ctx.declare p name ty) (ctx.declare q name ty) := by
  unfold Context.declare
  split_ifs <;> rfl

theorem readable_agree (s : Symbol) : Agree (readable ctx p s) (readable ctx q s) := by
  unfold readable
  split_ifs <;> rfl

theorem expectTy_agree (wanted : Ty) (e : Expr) : Agree (expectTy p wanted e) (expectTy q wanted e) := by
  unfold expectTy
  split_ifs <;> rfl

theorem compound_agree (s : Symbol) (op : BinaryOp) (rhs : Expr) :
    Agree (compound ctx p s op rhs) (compound ctx q s op rhs) := by
  unfold compound
  split_ifs
  · exact (readable_agree ctx p q s).bind fun _ => rfl
  · rfl

end

/-! ### Trees -/

theorem checkExpr_unplaced (ctx : Context) : ∀ e : Syntax.Expr, Agree (checkExpr ctx e.unplaced) (checkExpr ctx e)
  | .int _ _ => rfl
  | .bool _ _ => rfl
  | .var p name => by
    rw [Syntax.Expr.unplaced, checkExpr, checkExpr]
    exact (lookup_agree ctx _ p name).bind fun s => (readable_agree ctx _ p s).bind fun _ => rfl
  | .unary _ op operand => by
    rw [Syntax.Expr.unplaced, checkExpr, checkExpr]
    exact (checkExpr_unplaced ctx operand).bind fun e => (expectTy_agree _ _ _ e).bind fun _ => rfl
  | .binary _ op left right => by
    rw [Syntax.Expr.unplaced, checkExpr, checkExpr]
    refine (checkExpr_unplaced ctx left).bind fun l => (checkExpr_unplaced ctx right).bind fun r => ?_
    split_ifs <;> rfl
  | .ternary _ condition ifTrue ifFalse => by
    rw [Syntax.Expr.unplaced, checkExpr, checkExpr]
    exact (checkExpr_unplaced ctx condition).bind fun c => (expectTy_agree _ _ _ c).bind fun _ =>
      (checkExpr_unplaced ctx ifTrue).bind fun t => (checkExpr_unplaced ctx ifFalse).bind fun e =>
        (expectTy_agree _ _ _ e).bind fun _ => rfl

theorem checkTyped_unplaced (ctx : Context) (wanted : Ty) (e : Syntax.Expr) :
    Agree (checkTyped ctx wanted e.unplaced) (checkTyped ctx wanted e) :=
  (checkExpr_unplaced ctx e).bind fun r => expectTy_agree _ _ wanted r

theorem checkSimple_unplaced (ctx : Context) : ∀ s : Syntax.Simple,
    Agree (checkSimple ctx s.unplaced) (checkSimple ctx s)
  | .declare p ty name none => (declare_agree ctx _ p name ty).bind fun _ => rfl
  | .declare p ty name (some init) =>
    (checkTyped_unplaced ctx ty init).bind fun _ => (declare_agree ctx _ p name ty).bind fun _ => rfl
  | .assign p name none value =>
    (lookup_agree ctx _ p name).bind fun s => (checkTyped_unplaced ctx s.ty value).bind fun _ => rfl
  | .assign p name (some op) value =>
    (lookup_agree ctx _ p name).bind fun s => (checkExpr_unplaced ctx value).bind fun rhs =>
      (compound_agree ctx _ p s op rhs).bind fun _ => rfl
  | .count p name _ =>
    (lookup_agree ctx _ p name).bind fun s => (compound_agree ctx _ p s _ _).bind fun _ => rfl
  | .expr _ value => (checkExpr_unplaced ctx value).bind fun _ => rfl

theorem checkOptional_unplaced (ctx : Context) (s : Option Syntax.Simple) :
    Agree (checkOptional ctx (s.map Syntax.Simple.unplaced)) (checkOptional ctx s) := by
  cases s with
  | none => rfl
  | some s => exact (checkSimple_unplaced ctx s).bind fun _ => rfl

theorem bodyOf_unplaced (s : Syntax.Stmt) (t : Stmt) : bodyOf s.unplaced t = bodyOf s t := by
  cases s with
  | ifElse p c i e => cases e <;> rfl
  | _ => cases t <;> rfl

mutual

theorem checkStmt_unplaced (returns : Ty) : ∀ (s : Syntax.Stmt) (ctx : Context),
    Agree (checkStmt returns s.unplaced ctx) (checkStmt returns s ctx)
  | .simple s, ctx => by
    rw [Syntax.Stmt.unplaced, checkStmt, checkStmt]
    exact checkSimple_unplaced ctx s
  | .block _ body, ctx => by
    rw [Syntax.Stmt.unplaced, checkStmt, checkStmt]
    exact (checkStmts_unplaced returns body ctx).bind fun _ => rfl
  | .ifElse _ condition ifTrue none, ctx => by
    rw [Syntax.Stmt.unplaced, checkStmt, checkStmt]
    refine (checkTyped_unplaced ctx .bool condition).bind fun c =>
      (checkStmt_unplaced returns ifTrue ctx).bind fun ⟨t, inner⟩ => ?_
    simp only [bodyOf_unplaced]
    rfl
  | .ifElse _ condition ifTrue (some ifFalse), ctx => by
    rw [Syntax.Stmt.unplaced, checkStmt, checkStmt]
    refine (checkTyped_unplaced ctx .bool condition).bind fun c =>
      (checkStmt_unplaced returns ifTrue ctx).bind fun ⟨t, inner⟩ =>
        (checkStmt_unplaced returns ifFalse _).bind fun ⟨e, outer⟩ => ?_
    simp only [bodyOf_unplaced]
    rfl
  | .while_ _ condition body, ctx => by
    rw [Syntax.Stmt.unplaced, checkStmt, checkStmt]
    refine (checkTyped_unplaced ctx .bool condition).bind fun c =>
      (checkStmt_unplaced returns body _).bind fun ⟨b, inner⟩ => ?_
    simp only [bodyOf_unplaced]
    rfl
  | .for_ _ init condition step body, ctx => by
    rw [Syntax.Stmt.unplaced, checkStmt_for_eq, checkStmt_for_eq]
    refine (checkOptional_unplaced ctx init).bind fun ⟨i, head⟩ =>
      (checkTyped_unplaced head .bool condition).bind fun c =>
        (checkStmt_unplaced returns body _).bind fun ⟨b, inner⟩ =>
          (checkOptional_unplaced _ step).bind fun ⟨st, tail⟩ => ?_
    simp only [bodyOf_unplaced, Option.map_map]
    rfl
  | .break_ _, ctx | .continue_ _, ctx => by
    rw [Syntax.Stmt.unplaced, checkStmt, checkStmt]
    split <;> rfl
  | .return_ _ value, ctx => by
    rw [Syntax.Stmt.unplaced, checkStmt, checkStmt]
    exact (checkTyped_unplaced ctx returns value).bind fun _ => rfl

theorem checkStmts_unplaced (returns : Ty) : ∀ (body : List Syntax.Stmt) (ctx : Context),
    Agree (checkStmts returns (Syntax.unplacedAll body) ctx) (checkStmts returns body ctx)
  | [], _ => rfl
  | s :: rest, ctx => by
    rw [Syntax.unplacedAll, checkStmts, checkStmts]
    exact (checkStmt_unplaced returns s ctx).bind fun ⟨_, ctx⟩ =>
      (checkStmts_unplaced returns rest ctx).bind fun _ => rfl

end

theorem checkFunc_unplaced (f : Syntax.Func) : Agree (checkFunc f.unplaced) (checkFunc f) := by
  refine (checkStmts_unplaced f.returns f.body .start).bind fun ⟨body, ctx⟩ => ?_
  dsimp only
  split_ifs <;> rfl

/-- Functions that differ in places only are checked to the same typed function. -/
theorem checkFunc_unique {f f' : Syntax.Func} {t t' : Func} (h : checkFunc f = .ok t) (h' : checkFunc f' = .ok t')
    (hsame : f.unplaced = f'.unplaced) : t = t' := by
  have hagree := checkFunc_unplaced f
  rw [hsame] at hagree
  exact Agree.eq_of_ok (hagree.symm.trans (checkFunc_unplaced f')) h h'

end Chordal.Typed
