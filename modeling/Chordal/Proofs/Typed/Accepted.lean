/-
# What the checker accepts

Where checking a piece of a tree succeeds, its parts have been checked before, each
in its own context, and the typed piece is made of theirs. One lemma for each form
of a piece says so. What holds of accepted trees is proved with these lemmas, so
that a proof by induction over a tree has to say only what its own parts add.

Key theorems: `checkTyped_inv`, `checkExpr_binary_inv`, `checkSimple_init_inv`,
`checkStmt_ifElse_inv`, `checkStmt_for_inv`, `checkFunc_inv`.
-/
import Mathlib
import Chordal.Proofs.Typed.FlowExact

namespace Chordal.Typed

-- The equations of the recursion, made once before the proofs that rewrite with them.
attribute [local simp] checkStmt checkStmts

/-! ### Names -/

section Names

variable {ctx ctx' : Context} {p : Span} {name : String} {s : Symbol}

theorem find_of_lookup (h : ctx.lookup p name = .ok s) : (ctx.visible.find? fun s => s.name == name) = some s := by
  unfold Context.lookup at h
  cases hfind : ctx.visible.find? fun s => s.name == name with
  | none => simp [hfind] at h
  | some t =>
    simp only [hfind, Except.ok.injEq] at h
    rw [h]

theorem lookup_mem (h : ctx.lookup p name = .ok s) : s ∈ ctx.visible :=
  List.mem_of_find?_eq_some (find_of_lookup h)

/-- A new symbol has a new name and gets the next number. -/
theorem declare_inv {ty : Ty} (h : ctx.declare p name ty = .ok (s, ctx')) :
    (∀ t ∈ ctx.visible, t.name ≠ name) ∧ s = ⟨ctx.nextSymbol, name, ty⟩ ∧
      ctx' = { ctx with visible := s :: ctx.visible, nextSymbol := ctx.nextSymbol + 1 } := by
  unfold Context.declare at h
  split_ifs at h with hname
  obtain ⟨rfl, rfl⟩ := ok_pair_inj h
  simp only [List.any_eq_true, beq_iff_eq, not_exists, not_and] at hname
  exact ⟨hname, rfl, rfl⟩

theorem readable_inv (h : readable ctx p s = .ok ()) : ctx.flow.isAssigned s.id = true := by
  unfold readable at h
  split_ifs at h with hs
  exact hs

end Names

/-! ### Expressions -/

section Expressions

variable {ctx : Context} {p : Span} {e' : Expr}

theorem expectTy_inv {wanted : Ty} {e : Expr} (h : expectTy p wanted e = .ok e') : e' = e ∧ e'.ty = wanted := by
  unfold expectTy at h
  split_ifs at h with hty
  obtain rfl := Except.ok.inj h
  exact ⟨rfl, hty⟩

theorem checkTyped_inv {wanted : Ty} {e : Syntax.Expr} (h : checkTyped ctx wanted e = .ok e') :
    checkExpr ctx e = .ok e' ∧ e'.ty = wanted := by
  obtain ⟨e₁, h₁, h₂⟩ := bind_eq_ok.mp h
  obtain ⟨rfl, hty⟩ := expectTy_inv h₂
  exact ⟨h₁, hty⟩

theorem checkExpr_var_inv {name : String} (h : checkExpr ctx (.var p name) = .ok e') :
    ∃ s, ctx.lookup p name = .ok s ∧ ctx.flow.isAssigned s.id = true ∧ e' = .var s := by
  obtain ⟨s, hs, h⟩ := bind_eq_ok.mp h
  obtain ⟨_, hread, h⟩ := bind_eq_ok.mp h
  exact ⟨s, hs, readable_inv hread, (Except.ok.inj h).symm⟩

theorem checkExpr_unary_inv {op : UnaryOp} {operand : Syntax.Expr} (h : checkExpr ctx (.unary p op operand) = .ok e') :
    ∃ e, checkExpr ctx operand = .ok e ∧ e.ty = op.operandTy ∧ e' = .unary op e := by
  obtain ⟨e₁, h₁, h⟩ := bind_eq_ok.mp h
  obtain ⟨e₂, h₂, rfl⟩ := bind_pure_inj h
  obtain ⟨rfl, hty⟩ := expectTy_inv h₂
  exact ⟨e₂, h₁, hty, rfl⟩

theorem checkExpr_binary_inv {op : BinaryOp} {left right : Syntax.Expr}
    (h : checkExpr ctx (.binary p op left right) = .ok e') :
    ∃ l r, checkExpr ctx left = .ok l ∧ checkExpr ctx right = .ok r ∧ operandsFit op l.ty r.ty = true ∧
      e' = .binary op l r := by
  obtain ⟨l, hl, h⟩ := bind_eq_ok.mp h
  obtain ⟨r, hr, h⟩ := bind_eq_ok.mp h
  split_ifs at h with hfit
  exact ⟨l, r, hl, hr, hfit, (Except.ok.inj h).symm⟩

theorem checkExpr_ternary_inv {condition ifTrue ifFalse : Syntax.Expr}
    (h : checkExpr ctx (.ternary p condition ifTrue ifFalse) = .ok e') :
    ∃ c t e, checkExpr ctx condition = .ok c ∧ checkExpr ctx ifTrue = .ok t ∧ checkExpr ctx ifFalse = .ok e ∧
      c.ty = .bool ∧ e.ty = t.ty ∧ e' = .ternary c t e := by
  obtain ⟨c, hc, h⟩ := bind_eq_ok.mp h
  obtain ⟨c', hc', h⟩ := bind_eq_ok.mp h
  obtain ⟨t, ht, h⟩ := bind_eq_ok.mp h
  obtain ⟨e, he, h⟩ := bind_eq_ok.mp h
  obtain ⟨e', he', rfl⟩ := bind_pure_inj h
  obtain ⟨rfl, hcty⟩ := expectTy_inv hc'
  obtain ⟨rfl, hety⟩ := expectTy_inv he'
  exact ⟨c', t, e', hc, ht, he, hcty, hety, rfl⟩

/-- A compound assignment is one of an integer to an integer, which it reads. -/
theorem compound_inv {s : Symbol} {op : BinaryOp} {rhs : Expr} (h : compound ctx p s op rhs = .ok e') :
    s.ty = .int ∧ rhs.ty = .int ∧ ctx.flow.isAssigned s.id = true ∧ e' = .binary op (.var s) rhs := by
  unfold compound at h
  split_ifs at h with hty
  obtain ⟨_, hread, h⟩ := bind_eq_ok.mp h
  exact ⟨hty.1, hty.2, readable_inv hread, (Except.ok.inj h).symm⟩

end Expressions

/-! ### Simple statements -/

section Simple

variable {ctx ctx' : Context} {p : Span} {name : String} {t : Stmt}

theorem checkSimple_declare_inv {ty : Ty} (h : checkSimple ctx (.declare p ty name none) = .ok (t, ctx')) :
    ∃ s, ctx.declare p name ty = .ok (s, ctx') ∧ t = .declare s none := by
  obtain ⟨⟨s, ctx₁⟩, hd, rfl, rfl⟩ := bind_pure_pair h
  exact ⟨s, hd, rfl⟩

/-- The initial value is checked before the name is visible. -/
theorem checkSimple_init_inv {ty : Ty} {init : Syntax.Expr}
    (h : checkSimple ctx (.declare p ty name (some init)) = .ok (t, ctx')) :
    ∃ e s ctx₁, checkTyped ctx ty init = .ok e ∧ ctx.declare p name ty = .ok (s, ctx₁) ∧
      t = .declare s (some e) ∧ ctx' = ctx₁.assign s := by
  obtain ⟨e, he, h⟩ := bind_eq_ok.mp h
  obtain ⟨⟨s, ctx₁⟩, hd, rfl, rfl⟩ := bind_pure_pair h
  exact ⟨e, s, ctx₁, he, hd, rfl, rfl⟩

theorem checkSimple_assign_inv {value : Syntax.Expr} (h : checkSimple ctx (.assign p name none value) = .ok (t, ctx')) :
    ∃ s e, ctx.lookup p name = .ok s ∧ checkTyped ctx s.ty value = .ok e ∧ t = .assign s e ∧ ctx' = ctx.assign s := by
  obtain ⟨s, hs, h⟩ := bind_eq_ok.mp h
  obtain ⟨e, he, rfl, rfl⟩ := bind_pure_pair h
  exact ⟨s, e, hs, he, rfl, rfl⟩

theorem checkSimple_compound_inv {op : BinaryOp} {value : Syntax.Expr}
    (h : checkSimple ctx (.assign p name (some op) value) = .ok (t, ctx')) :
    ∃ s rhs e, ctx.lookup p name = .ok s ∧ checkExpr ctx value = .ok rhs ∧ compound ctx p s op rhs = .ok e ∧
      t = .assign s e ∧ ctx' = ctx.assign s := by
  obtain ⟨s, hs, h⟩ := bind_eq_ok.mp h
  obtain ⟨rhs, hrhs, h⟩ := bind_eq_ok.mp h
  obtain ⟨e, he, rfl, rfl⟩ := bind_pure_pair h
  exact ⟨s, rhs, e, hs, hrhs, he, rfl, rfl⟩

theorem checkSimple_count_inv {direction : Syntax.Count}
    (h : checkSimple ctx (.count p name direction) = .ok (t, ctx')) :
    ∃ s e, ctx.lookup p name = .ok s ∧ compound ctx p s (countOp direction) (.int 1) = .ok e ∧ t = .assign s e ∧
      ctx' = ctx.assign s := by
  obtain ⟨s, hs, h⟩ := bind_eq_ok.mp h
  obtain ⟨e, he, rfl, rfl⟩ := bind_pure_pair h
  exact ⟨s, e, hs, he, rfl, rfl⟩

theorem checkSimple_expr_inv {value : Syntax.Expr} (h : checkSimple ctx (.expr p value) = .ok (t, ctx')) :
    ∃ e, checkExpr ctx value = .ok e ∧ t = .expr e ∧ ctx' = ctx := by
  obtain ⟨e, he, rfl, rfl⟩ := bind_pure_pair h
  exact ⟨e, he, rfl, rfl⟩

theorem checkOptional_none_inv {l : List Stmt} (h : checkOptional ctx none = .ok (l, ctx')) : l = [] ∧ ctx' = ctx := by
  obtain ⟨rfl, rfl⟩ := ok_pair_inj h
  exact ⟨rfl, rfl⟩

theorem checkOptional_some_inv {s : Syntax.Simple} {l : List Stmt} (h : checkOptional ctx (some s) = .ok (l, ctx')) :
    ∃ t, checkSimple ctx s = .ok (t, ctx') ∧ l = [t] := by
  obtain ⟨⟨t, ctx₁⟩, ht, rfl, rfl⟩ := bind_pure_pair h
  exact ⟨t, ht, rfl⟩

end Simple

/-! ### Statements -/

section Statements

variable {returns : Ty} {ctx ctx' : Context} {p : Span} {t : Stmt}

theorem checkStmt_simple_inv {s : Syntax.Simple} (h : checkStmt returns (.simple s) ctx = .ok (t, ctx')) :
    checkSimple ctx s = .ok (t, ctx') := by
  rwa [checkStmt] at h

theorem checkStmt_block_inv {body : List Syntax.Stmt} (h : checkStmt returns (.block p body) ctx = .ok (t, ctx')) :
    ∃ l inner, checkStmts returns body ctx = .ok (l, inner) ∧ t = .block l ∧
      ctx' = { inner with visible := ctx.visible } := by
  rw [checkStmt] at h
  obtain ⟨⟨l, inner⟩, hbody, rfl, rfl⟩ := bind_pure_pair h
  exact ⟨l, inner, hbody, rfl, rfl⟩

variable {condition : Syntax.Expr}

theorem checkStmt_if_inv {ifTrue : Syntax.Stmt}
    (h : checkStmt returns (.ifElse p condition ifTrue none) ctx = .ok (t, ctx')) :
    ∃ c a inner, checkTyped ctx .bool condition = .ok c ∧ checkStmt returns ifTrue ctx = .ok (a, inner) ∧
      t = .ifElse c (bodyOf ifTrue a) none ∧
      ctx' = { inner with visible := ctx.visible, flow := inner.flow.join ctx.flow } := by
  rw [checkStmt] at h
  obtain ⟨c, hc, h⟩ := bind_eq_ok.mp h
  obtain ⟨⟨a, inner⟩, ha, rfl, rfl⟩ := bind_pure_pair h
  exact ⟨c, a, inner, hc, ha, rfl, rfl⟩

/-- The second way is checked with what is known before the first, but behind its
numbers and its `continue` statements. -/
theorem checkStmt_ifElse_inv {ifTrue ifFalse : Syntax.Stmt}
    (h : checkStmt returns (.ifElse p condition ifTrue (some ifFalse)) ctx = .ok (t, ctx')) :
    ∃ c a inner b outer, checkTyped ctx .bool condition = .ok c ∧ checkStmt returns ifTrue ctx = .ok (a, inner) ∧
      checkStmt returns ifFalse { inner with visible := ctx.visible, flow := ctx.flow } = .ok (b, outer) ∧
      t = .ifElse c (bodyOf ifTrue a) (some (bodyOf ifFalse b)) ∧
      ctx' = { outer with visible := ctx.visible, flow := inner.flow.join outer.flow } := by
  rw [checkStmt] at h
  obtain ⟨c, hc, h⟩ := bind_eq_ok.mp h
  obtain ⟨⟨a, inner⟩, ha, h⟩ := bind_eq_ok.mp h
  obtain ⟨⟨b, outer⟩, hb, rfl, rfl⟩ := bind_pure_pair h
  exact ⟨c, a, inner, b, outer, hc, ha, hb, rfl, rfl⟩

theorem checkStmt_while_inv {body : Syntax.Stmt}
    (h : checkStmt returns (.while_ p condition body) ctx = .ok (t, ctx')) :
    ∃ c b inner, checkTyped ctx .bool condition = .ok c ∧
      checkStmt returns body { ctx with continues := some [] } = .ok (b, inner) ∧
      t = .while_ c (bodyOf body b) none ∧ ctx' = { ctx with nextSymbol := inner.nextSymbol } := by
  rw [checkStmt] at h
  obtain ⟨c, hc, h⟩ := bind_eq_ok.mp h
  obtain ⟨⟨b, inner⟩, hb, rfl, rfl⟩ := bind_pure_pair h
  exact ⟨c, b, inner, hc, hb, rfl, rfl⟩

/-- The step is checked with what is known where the body ends. -/
theorem checkStmt_for_inv {init step : Option Syntax.Simple} {body : Syntax.Stmt}
    (h : checkStmt returns (.for_ p init condition step body) ctx = .ok (t, ctx')) :
    ∃ i head c b inner st tail, checkOptional ctx init = .ok (i, head) ∧ checkTyped head .bool condition = .ok c ∧
      checkStmt returns body { head with continues := some [] } = .ok (b, inner) ∧
      checkOptional { head with nextSymbol := inner.nextSymbol, flow := inner.endOfBody } step = .ok (st, tail) ∧
      t = .block (i ++ [.while_ c (bodyOf body b) (step.map fun _ => st)]) ∧
      ctx' = { head with visible := ctx.visible, nextSymbol := tail.nextSymbol } := by
  rw [checkStmt_for_eq] at h
  obtain ⟨⟨i, head⟩, hi, h⟩ := bind_eq_ok.mp h
  obtain ⟨c, hc, h⟩ := bind_eq_ok.mp h
  obtain ⟨⟨b, inner⟩, hb, h⟩ := bind_eq_ok.mp h
  obtain ⟨⟨st, tail⟩, hst, rfl, rfl⟩ := bind_pure_pair h
  exact ⟨i, head, c, b, inner, st, tail, hi, hc, hb, hst, rfl, rfl⟩

theorem checkStmt_break_inv (h : checkStmt returns (.break_ p) ctx = .ok (t, ctx')) :
    ctx.continues.isSome = true ∧ t = .break_ ∧ ctx' = ctx.leave := by
  rw [checkStmt] at h
  cases hloop : ctx.continues with
  | none => simp [hloop] at h
  | some flows =>
    simp only [hloop, Except.ok.injEq, Prod.mk.injEq] at h
    exact ⟨rfl, h.1.symm, h.2.symm⟩

/-- What is known at a `continue` is kept for the loop around it. -/
theorem checkStmt_continue_inv (h : checkStmt returns (.continue_ p) ctx = .ok (t, ctx')) :
    ∃ flows, ctx.continues = some flows ∧ t = .continue_ ∧
      ctx' = { ctx.leave with continues := some (flows ++ [ctx.flow]) } := by
  rw [checkStmt] at h
  cases hloop : ctx.continues with
  | none => simp [hloop] at h
  | some flows =>
    simp only [hloop, Except.ok.injEq, Prod.mk.injEq] at h
    exact ⟨flows, rfl, h.1.symm, h.2.symm⟩

theorem checkStmt_return_inv {value : Syntax.Expr} (h : checkStmt returns (.return_ p value) ctx = .ok (t, ctx')) :
    ∃ e, checkTyped ctx returns value = .ok e ∧ t = .return_ e ∧ ctx' = ctx.leave := by
  rw [checkStmt] at h
  obtain ⟨e, he, rfl, rfl⟩ := bind_pure_pair h
  exact ⟨e, he, rfl, rfl⟩

theorem checkStmts_nil_inv {l : List Stmt} (h : checkStmts returns [] ctx = .ok (l, ctx')) : l = [] ∧ ctx' = ctx := by
  rw [checkStmts] at h
  obtain ⟨rfl, rfl⟩ := ok_pair_inj h
  exact ⟨rfl, rfl⟩

theorem checkStmts_cons_inv {s : Syntax.Stmt} {rest : List Syntax.Stmt} {l : List Stmt}
    (h : checkStmts returns (s :: rest) ctx = .ok (l, ctx')) :
    ∃ t ctx₁ ts, checkStmt returns s ctx = .ok (t, ctx₁) ∧ checkStmts returns rest ctx₁ = .ok (ts, ctx') ∧
      l = t :: ts := by
  rw [checkStmts] at h
  obtain ⟨⟨t, ctx₁⟩, hs, h⟩ := bind_eq_ok.mp h
  obtain ⟨⟨ts, ctx₂⟩, hrest, rfl, rfl⟩ := bind_pure_pair h
  exact ⟨t, ctx₁, ts, hs, hrest, rfl⟩

end Statements

/-- Control does not come to the end of the body of a function. -/
theorem checkFunc_inv {f : Syntax.Func} {t : Func} (h : checkFunc f = .ok t) :
    ∃ body ctx, checkStmts f.returns f.body .start = .ok (body, ctx) ∧ ctx.flow.live = false ∧
      t = ⟨f.name, f.returns, body, f.name == entryName⟩ := by
  obtain ⟨⟨body, ctx⟩, hbody, h⟩ := bind_eq_ok.mp h
  dsimp only at h
  split_ifs at h with hlive
  exact ⟨body, ctx, hbody, Bool.eq_false_iff.mpr hlive, (Except.ok.inj h).symm⟩

theorem checkEntry_inv {functions : List Syntax.Func} (h : checkEntry functions = .ok ()) :
    ∃ f ∈ functions, f.name = entryName ∧ f.returns = .int := by
  unfold checkEntry at h
  cases hfind : functions.find? fun f => f.name == entryName with
  | none => simp [hfind] at h
  | some f =>
    simp only [hfind] at h
    split_ifs at h with hty
    exact ⟨f, List.mem_of_find?_eq_some hfind, by simpa using List.find?_some hfind, hty⟩

end Chordal.Typed
