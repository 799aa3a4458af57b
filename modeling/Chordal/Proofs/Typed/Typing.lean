/-
# Typing of typed trees

Rules that say when a typed tree is in order, without the checker: which types
expressions have in a scope, which symbols statements may use, and where `break`,
`continue` and `return` may stand. A scope is the list of the symbols that have
been declared so far and whose block is still open; a symbol in it has its number,
its name and its type, so a use of it refers to that declaration.

The checker delivers trees that follow these rules. It also gives every
declaration of a function a number of its own: the numbers it gives out in a
statement lie between the next number before and the next number behind the
statement.

That an assignment stores a value of the type of its variable is a rule of its own:
it needs the operators of compound assignments to be arithmetic, as the grammar has
them. A comparison in their place would store a truth value in an integer, and the
checker lets it pass.

Key definitions: `Expr.HasTy`, `Stmt.WellTyped`, `Stmt.KeepsTypes`, `Stmt.declared`,
`Func.WellFormed`.
Key theorems: `checkExpr_hasTy`, `checkStmt_delivers`, `checkFunc_wellFormed`,
`checkFunc_keepsTypes`.
-/
import Mathlib
import Chordal.Proofs.Typed.Assignment

namespace Chordal.Syntax

/-- No comparison is the operator of a compound assignment. -/
def Simple.Arithmetic : Simple → Prop
  | .assign _ _ (some op) _ => op.isComparison = false
  | _ => True

mutual

/-- No compound assignment of a statement compares. -/
def Stmt.Arithmetic : Stmt → Prop
  | .simple s => s.Arithmetic
  | .block _ body => AllArithmetic body
  | .ifElse _ _ ifTrue none => ifTrue.Arithmetic
  | .ifElse _ _ ifTrue (some ifFalse) => ifTrue.Arithmetic ∧ ifFalse.Arithmetic
  | .while_ _ _ body => body.Arithmetic
  | .for_ _ init _ step body => (∀ s ∈ init, s.Arithmetic) ∧ body.Arithmetic ∧ ∀ s ∈ step, s.Arithmetic
  | .break_ _ | .continue_ _ | .return_ _ _ => True

/-- No compound assignment of some statements compares. -/
def AllArithmetic : List Stmt → Prop
  | [] => True
  | s :: rest => s.Arithmetic ∧ AllArithmetic rest

end

end Chordal.Syntax

namespace Chordal.Typed

/-! ### Rules -/

/-- The expression has a type in a scope. -/
inductive Expr.HasTy (Γ : List Symbol) : Expr → Ty → Prop
  | int {value} : HasTy Γ (.int value) .int
  | bool {value} : HasTy Γ (.bool value) .bool
  | var {symbol} : symbol ∈ Γ → HasTy Γ (.var symbol) symbol.ty
  | unary {op operand} : HasTy Γ operand op.operandTy → HasTy Γ (.unary op operand) op.operandTy
  | equality {op left right ty} : op.isEquality = true → HasTy Γ left ty → HasTy Γ right ty →
      HasTy Γ (.binary op left right) .bool
  | comparison {op left right} : op.isEquality = false → op.isComparison = true → HasTy Γ left .int →
      HasTy Γ right .int → HasTy Γ (.binary op left right) .bool
  | arithmetic {op left right} : op.isComparison = false → HasTy Γ left .int → HasTy Γ right .int →
      HasTy Γ (.binary op left right) .int
  | ternary {condition ifTrue ifFalse ty} : HasTy Γ condition .bool → HasTy Γ ifTrue ty → HasTy Γ ifFalse ty →
      HasTy Γ (.ternary condition ifTrue ifFalse) ty

/-- The scope behind a statement. -/
def Stmt.scope (Γ : List Symbol) : Stmt → List Symbol
  | .declare symbol _ => symbol :: Γ
  | _ => Γ

mutual

/-- A statement of a function that returns `returns` is in order in a scope. -/
def Stmt.WellTyped (returns : Ty) (inLoop : Bool) (Γ : List Symbol) : Stmt → Prop
  | .declare _ none => True
  | .declare symbol (some init) => init.HasTy Γ symbol.ty
  | .assign symbol value => symbol ∈ Γ ∧ ∃ ty, value.HasTy Γ ty
  | .ifElse condition ifTrue none => condition.HasTy Γ .bool ∧ AllWellTyped returns inLoop Γ ifTrue
  | .ifElse condition ifTrue (some ifFalse) =>
    condition.HasTy Γ .bool ∧ AllWellTyped returns inLoop Γ ifTrue ∧ AllWellTyped returns inLoop Γ ifFalse
  | .while_ condition body none => condition.HasTy Γ .bool ∧ AllWellTyped returns true Γ body
  | .while_ condition body (some step) =>
    condition.HasTy Γ .bool ∧ AllWellTyped returns true Γ body ∧ AllWellTyped returns false Γ step
  | .break_ => inLoop = true
  | .continue_ => inLoop = true
  | .return_ value => value.HasTy Γ returns
  | .block body => AllWellTyped returns inLoop Γ body
  | .expr value => ∃ ty, value.HasTy Γ ty

/-- Statements one after another are in order; a declaration holds for those
behind it. -/
def AllWellTyped (returns : Ty) (inLoop : Bool) (Γ : List Symbol) : List Stmt → Prop
  | [] => True
  | s :: rest => s.WellTyped returns inLoop Γ ∧ AllWellTyped returns inLoop (s.scope Γ) rest

end

mutual

/-- The assignments of a statement store values of the type of their variable. -/
def Stmt.KeepsTypes : Stmt → Prop
  | .assign symbol value => value.ty = symbol.ty
  | .ifElse _ ifTrue none => AllKeepTypes ifTrue
  | .ifElse _ ifTrue (some ifFalse) => AllKeepTypes ifTrue ∧ AllKeepTypes ifFalse
  | .while_ _ body none => AllKeepTypes body
  | .while_ _ body (some step) => AllKeepTypes body ∧ AllKeepTypes step
  | .block body => AllKeepTypes body
  | .declare _ _ | .break_ | .continue_ | .return_ _ | .expr _ => True

/-- The assignments of some statements do. -/
def AllKeepTypes : List Stmt → Prop
  | [] => True
  | s :: rest => s.KeepsTypes ∧ AllKeepTypes rest

end

mutual

/-- The symbols that are declared in a statement, at any depth. -/
def Stmt.declared : Stmt → List Symbol
  | .declare symbol _ => [symbol]
  | .ifElse _ ifTrue none => declaredAll ifTrue
  | .ifElse _ ifTrue (some ifFalse) => declaredAll ifTrue ++ declaredAll ifFalse
  | .while_ _ body none => declaredAll body
  | .while_ _ body (some step) => declaredAll body ++ declaredAll step
  | .block body => declaredAll body
  | .assign _ _ | .break_ | .continue_ | .return_ _ | .expr _ => []

/-- The symbols that are declared in some statements. -/
def declaredAll : List Stmt → List Symbol
  | [] => []
  | s :: rest => s.declared ++ declaredAll rest

end

/-- The names, types and jumps of a function are in order, and no number is
declared twice. -/
structure Func.WellFormed (f : Func) : Prop where
  typed : AllWellTyped f.returns false [] f.body
  declared : ((declaredAll f.body).map Symbol.id).Nodup

/-- The assignments of a function store values of the type of their variable. -/
def Func.KeepsTypes (f : Func) : Prop := AllKeepTypes f.body

/-- An expression has no other type than the one it carries. -/
theorem Expr.HasTy.ty_eq {Γ : List Symbol} {e : Expr} {ty : Ty} (h : e.HasTy Γ ty) : e.ty = ty := by
  induction h with
  | int | bool | var => rfl
  | unary _ ih => exact ih
  | @equality op _ _ _ hop _ _ _ _ =>
    have hcmp : op.isComparison = true := by cases op <;> first | rfl | cases hop
    simp [Expr.ty, hcmp]
  | comparison _ hcmp => simp [Expr.ty, hcmp]
  | arithmetic hcmp _ _ ih => simpa [Expr.ty, hcmp] using ih
  | ternary _ _ _ _ ih => exact ih

theorem AllWellTyped.append {returns : Ty} {inLoop : Bool} : ∀ {Γ : List Symbol} {s t : List Stmt},
    AllWellTyped returns inLoop Γ s → AllWellTyped returns inLoop (s.foldl Stmt.scope Γ) t →
    AllWellTyped returns inLoop Γ (s ++ t)
  | _, [], _, _, ht => ht
  | _, _ :: _, _, ⟨hs, hrest⟩, ht => ⟨hs, hrest.append ht⟩

theorem AllKeepTypes.append : ∀ {s t : List Stmt}, AllKeepTypes s → AllKeepTypes t → AllKeepTypes (s ++ t)
  | [], _, _, ht => ht
  | _ :: _, _, ⟨hs, hrest⟩, ht => ⟨hs, hrest.append ht⟩

theorem declaredAll_append : ∀ s t : List Stmt, declaredAll (s ++ t) = declaredAll s ++ declaredAll t
  | [], _ => rfl
  | s :: rest, t => by rw [List.cons_append, declaredAll, declaredAll, declaredAll_append rest t, List.append_assoc]

/-! ### Expressions -/

section Expressions

variable {ctx : Context}

theorem hasTy_binary {Γ : List Symbol} {op : BinaryOp} {l r : Expr} (hl : l.HasTy Γ l.ty) (hr : r.HasTy Γ r.ty)
    (hfit : operandsFit op l.ty r.ty = true) : (Expr.binary op l r).HasTy Γ (Expr.binary op l r).ty := by
  unfold operandsFit at hfit
  by_cases hop : op.isEquality = true
  · have hcmp : op.isComparison = true := by cases op <;> first | rfl | cases hop
    rw [if_pos hop, beq_iff_eq] at hfit
    rw [Expr.ty, if_pos hcmp]
    exact .equality hop hl (hfit ▸ hr)
  · rw [if_neg hop, Bool.and_eq_true, beq_iff_eq, beq_iff_eq] at hfit
    rw [hfit.1] at hl
    rw [hfit.2] at hr
    by_cases hcmp : op.isComparison = true
    · rw [Expr.ty, if_pos hcmp]
      exact .comparison (Bool.eq_false_iff.mpr hop) hcmp hl hr
    · rw [Expr.ty, if_neg hcmp, hfit.1]
      exact .arithmetic (Bool.eq_false_iff.mpr hcmp) hl hr

/-- The type that an expression carries follows from those of its parts. -/
theorem checkExpr_hasTy : ∀ (e : Syntax.Expr) {e' : Expr}, checkExpr ctx e = .ok e' →
    e'.HasTy ctx.visible e'.ty
  | .int _ _, _, h => by
    obtain rfl := Except.ok.inj h
    exact .int
  | .bool _ _, _, h => by
    obtain rfl := Except.ok.inj h
    exact .bool
  | .var p name, _, h => by
    obtain ⟨s, hs, -, rfl⟩ := checkExpr_var_inv h
    exact .var (lookup_mem hs)
  | .unary _ op operand, _, h => by
    obtain ⟨e, he, hty, rfl⟩ := checkExpr_unary_inv h
    have hoperand : e.HasTy ctx.visible e.ty := checkExpr_hasTy operand he
    rw [Expr.ty, hty]
    rw [hty] at hoperand
    exact .unary hoperand
  | .binary p op left right, _, h => by
    obtain ⟨l, r, hl, hr, hfit, rfl⟩ := checkExpr_binary_inv h
    exact hasTy_binary (checkExpr_hasTy left hl) (checkExpr_hasTy right hr) hfit
  | .ternary _ condition ifTrue ifFalse, _, h => by
    obtain ⟨c, t, e, hc, ht, he, hcty, hety, rfl⟩ := checkExpr_ternary_inv h
    have hcond : c.HasTy ctx.visible c.ty := checkExpr_hasTy condition hc
    have helse : e.HasTy ctx.visible e.ty := checkExpr_hasTy ifFalse he
    rw [hcty] at hcond
    rw [hety] at helse
    exact .ternary hcond (checkExpr_hasTy ifTrue ht) helse

theorem checkTyped_hasTy {wanted : Ty} {e : Syntax.Expr} {e' : Expr} (h : checkTyped ctx wanted e = .ok e') :
    e'.HasTy ctx.visible wanted := by
  obtain ⟨he, hty⟩ := checkTyped_inv h
  exact hty ▸ checkExpr_hasTy e he

end Expressions

/-! ### Statements -/

/-- The visible symbols are told apart by name and by number, and no number that is
still to be given out counts as assigned. -/
structure Context.Regular (ctx : Context) : Prop where
  proper : Proper ctx.visible ctx.nextSymbol
  assigned_lt : ∀ id ∈ ctx.flow.assigned, id < ctx.nextSymbol
  continues_lt : ∀ flow ∈ ctx.continues.getD [], ∀ id ∈ flow.assigned, id < ctx.nextSymbol

/-- Symbols that were declared one after another: their numbers are all different,
from `first` on and below `next`. -/
structure Numbered (symbols : List Symbol) (first next : Nat) : Prop where
  le : first ≤ next
  nodup : (symbols.map Symbol.id).Nodup
  bounds : ∀ s ∈ symbols, first ≤ s.id ∧ s.id < next

namespace Numbered

variable {symbols symbols' : List Symbol} {n m k : Nat}

theorem nil (h : n ≤ m) : Numbered [] n m := ⟨h, List.nodup_nil, by simp⟩

theorem next (n : Nat) (name : String) (ty : Ty) : Numbered [⟨n, name, ty⟩] n (n + 1) :=
  ⟨Nat.le_succ n, List.nodup_singleton n, by simp⟩

theorem append (h : Numbered symbols n m) (h' : Numbered symbols' m k) : Numbered (symbols ++ symbols') n k := by
  refine ⟨h.le.trans h'.le, ?_, fun s hs => ?_⟩
  · rw [List.map_append, List.nodup_append]
    refine ⟨h.nodup, h'.nodup, fun a ha b hb => ?_⟩
    obtain ⟨s, hs, rfl⟩ := List.mem_map.mp ha
    obtain ⟨s', hs', rfl⟩ := List.mem_map.mp hb
    have := (h.bounds s hs).2
    have := (h'.bounds s' hs').1
    omega
  · have := h.le
    have := h'.le
    rcases List.mem_append.mp hs with hs | hs
    · have := h.bounds s hs
      omega
    · have := h'.bounds s hs
      omega

end Numbered

/-- What the checker delivers for a statement: a tree in order, in a loop or not, and
a context that goes with the scope behind it. -/
structure Delivers (returns : Ty) (inLoop : Bool) (ctx : Context) (t : Stmt) (ctx' : Context) : Prop where
  regular : ctx'.Regular
  visible : ctx'.visible = t.scope ctx.visible
  continues : ctx'.continues.isSome = ctx.continues.isSome
  typed : t.WellTyped returns inLoop ctx.visible
  declared : Numbered t.declared ctx.nextSymbol ctx'.nextSymbol

/-- The same for statements one after another. -/
structure DeliversAll (returns : Ty) (inLoop : Bool) (ctx : Context) (t : List Stmt) (ctx' : Context) : Prop where
  regular : ctx'.Regular
  visible : ctx'.visible = t.foldl Stmt.scope ctx.visible
  continues : ctx'.continues.isSome = ctx.continues.isSome
  typed : AllWellTyped returns inLoop ctx.visible t
  declared : Numbered (declaredAll t) ctx.nextSymbol ctx'.nextSymbol

namespace Context.Regular

variable {ctx : Context} (h : ctx.Regular)

include h

theorem assign {s : Symbol} (hs : s ∈ ctx.visible) : (ctx.assign s).Regular := by
  refine ⟨h.proper, fun id hid => ?_, h.continues_lt⟩
  rcases List.mem_cons.mp hid with rfl | hid
  · exact h.proper.id_lt s hs
  · exact h.assigned_lt id hid

theorem declare {p : Span} {name : String} {ty : Ty} {s : Symbol} {ctx' : Context}
    (hd : ctx.declare p name ty = .ok (s, ctx')) : ctx'.Regular := by
  obtain ⟨hname, rfl, rfl⟩ := declare_inv hd
  refine ⟨⟨?_, ?_, fun t ht => ?_⟩, fun id hid => Nat.lt_succ_of_lt (h.assigned_lt id hid),
    fun f hf id hid => Nat.lt_succ_of_lt (h.continues_lt f hf id hid)⟩
  · refine List.nodup_cons.mpr ⟨fun hmem => ?_, h.proper.names⟩
    obtain ⟨t, ht, heq⟩ := List.mem_map.mp hmem
    exact hname t ht heq
  · refine List.nodup_cons.mpr ⟨fun hmem => ?_, h.proper.ids⟩
    obtain ⟨t, ht, heq⟩ := List.mem_map.mp hmem
    have := h.proper.id_lt t ht
    simp only at heq
    omega
  · rcases List.mem_cons.mp ht with rfl | ht
    · exact Nat.lt_succ_self _
    · exact Nat.lt_succ_of_lt (h.proper.id_lt t ht)

/-- The context of a loop's body. -/
theorem enterLoop : ({ ctx with continues := some [] } : Context).Regular :=
  ⟨h.proper, h.assigned_lt, by simp⟩

theorem leave : ctx.leave.Regular := ⟨h.proper, by simp [Context.leave, Flow.dead], h.continues_lt⟩

/-- The end of a scope that began with `outer`. -/
theorem restrict {outer : Context} (ho : outer.Regular) (hle : outer.nextSymbol ≤ ctx.nextSymbol) :
    ({ ctx with visible := outer.visible } : Context).Regular :=
  ⟨ho.proper.mono hle, h.assigned_lt, h.continues_lt⟩

theorem mono {n : Nat} (hn : ctx.nextSymbol ≤ n) : ({ ctx with nextSymbol := n } : Context).Regular :=
  ⟨h.proper.mono hn, fun id hid => (h.assigned_lt id hid).trans_le hn,
    fun f hf id hid => (h.continues_lt f hf id hid).trans_le hn⟩

theorem withFlow {flow : Flow} (hf : ∀ id ∈ flow.assigned, id < ctx.nextSymbol) :
    ({ ctx with flow := flow } : Context).Regular := ⟨h.proper, hf, h.continues_lt⟩

theorem endOfBody_lt : ∀ id ∈ ctx.endOfBody.assigned, id < ctx.nextSymbol :=
  lt_of_mem_foldl_join h.assigned_lt h.continues_lt

end Context.Regular

section Statements

variable {returns : Ty} {inLoop : Bool} {ctx ctx' : Context}

variable {t : Stmt} {s : Symbol} {e : Expr}

theorem DeliversAll.singleton (h : Delivers returns inLoop ctx t ctx') :
    DeliversAll returns inLoop ctx [t] ctx' :=
  ⟨h.regular, h.visible, h.continues, ⟨h.typed, trivial⟩, by
    rw [declaredAll, declaredAll, List.append_nil]
    exact h.declared⟩

theorem wellTyped_bodyOf {Γ : List Symbol} (s : Syntax.Stmt) (h : t.WellTyped returns inLoop Γ) :
    AllWellTyped returns inLoop Γ (bodyOf s t) := by
  unfold bodyOf
  split
  · rwa [Stmt.WellTyped] at h
  · exact ⟨h, trivial⟩

theorem declaredAll_bodyOf (s : Syntax.Stmt) (t : Stmt) : declaredAll (bodyOf s t) = t.declared := by
  unfold bodyOf
  split
  · rw [Stmt.declared]
  · rw [declaredAll, declaredAll, List.append_nil]

/-- An assignment to a visible symbol. -/
theorem delivers_assign (hr : ctx.Regular) {ty : Ty} (hs : s ∈ ctx.visible)
    (he : e.HasTy ctx.visible ty) : Delivers returns inLoop ctx (.assign s e) (ctx.assign s) :=
  ⟨hr.assign hs, rfl, rfl, ⟨hs, ty, he⟩, .nil le_rfl⟩

theorem compound_hasTy {p : Span} {op : BinaryOp} {rhs : Expr} (hs : s ∈ ctx.visible)
    (hrhs : rhs.HasTy ctx.visible rhs.ty) (h : compound ctx p s op rhs = .ok e) :
    e.HasTy ctx.visible e.ty := by
  obtain ⟨hsty, hty, -, rfl⟩ := compound_inv h
  have hvar : (Expr.var s).HasTy ctx.visible (Expr.var s).ty := .var hs
  refine hasTy_binary hvar hrhs ?_
  have hl : (Expr.var s).ty = .int := hsty
  rw [hl, hty]
  cases op <;> rfl

theorem checkSimple_delivers (hr : ctx.Regular) {s : Syntax.Simple}
    (h : checkSimple ctx s = .ok (t, ctx')) : Delivers returns inLoop ctx t ctx' := by
  cases s with
  | declare p ty name init =>
    cases init with
    | none =>
      obtain ⟨s, hd, rfl⟩ := checkSimple_declare_inv h
      have hr' := hr.declare hd
      obtain ⟨-, rfl, rfl⟩ := declare_inv hd
      exact ⟨hr', rfl, rfl, trivial, .next _ _ _⟩
    | some e =>
      obtain ⟨e', s, ctx₁, he, hd, rfl, rfl⟩ := checkSimple_init_inv h
      have hr' := hr.declare hd
      obtain ⟨-, rfl, rfl⟩ := declare_inv hd
      exact ⟨hr'.assign List.mem_cons_self, rfl, rfl, checkTyped_hasTy he, .next _ _ _⟩
  | assign p name op value =>
    cases op with
    | none =>
      obtain ⟨s, e, hlookup, he, rfl, rfl⟩ := checkSimple_assign_inv h
      exact delivers_assign hr (lookup_mem hlookup) (checkTyped_hasTy he)
    | some op =>
      obtain ⟨s, rhs, e, hlookup, hrhs, he, rfl, rfl⟩ := checkSimple_compound_inv h
      have hmem := lookup_mem hlookup
      exact delivers_assign hr hmem (compound_hasTy hmem (checkExpr_hasTy value hrhs) he)
  | count p name direction =>
    obtain ⟨s, e, hlookup, he, rfl, rfl⟩ := checkSimple_count_inv h
    have hmem := lookup_mem hlookup
    have hone : (Expr.int 1).HasTy ctx.visible (Expr.int 1).ty := .int
    exact delivers_assign hr hmem (compound_hasTy hmem hone he)
  | expr p value =>
    obtain ⟨e, he, rfl, rfl⟩ := checkSimple_expr_inv h
    exact ⟨hr, rfl, rfl, ⟨_, checkExpr_hasTy value he⟩, .nil le_rfl⟩

theorem checkOptional_delivers (hr : ctx.Regular) {s : Option Syntax.Simple} {t : List Stmt}
    (h : checkOptional ctx s = .ok (t, ctx')) : DeliversAll returns inLoop ctx t ctx' := by
  cases s with
  | none =>
    obtain ⟨rfl, rfl⟩ := checkOptional_none_inv h
    exact ⟨hr, rfl, rfl, trivial, .nil le_rfl⟩
  | some s =>
    obtain ⟨t, ht, rfl⟩ := checkOptional_some_inv h
    exact .singleton (checkSimple_delivers hr ht)

mutual

/-- The checker delivers trees in order. -/
theorem checkStmt_delivers : ∀ (s : Syntax.Stmt) {ctx ctx' : Context} {t : Stmt}, ctx.Regular →
    checkStmt returns s ctx = .ok (t, ctx') → Delivers returns ctx.continues.isSome ctx t ctx'
  | .simple s, ctx, ctx', t, hr, h => checkSimple_delivers hr (checkStmt_simple_inv h)
  | .block p body, ctx, ctx', t, hr, h => by
    obtain ⟨stmts, inner, hbody, rfl, rfl⟩ := checkStmt_block_inv h
    have hin := checkStmts_delivers body hr hbody
    exact ⟨hin.regular.restrict hr hin.declared.le, rfl, hin.continues, hin.typed, hin.declared⟩
  | .ifElse p c ifTrue none, ctx, ctx', t, hr, h => by
    obtain ⟨c', t', inner, hc, ht, rfl, rfl⟩ := checkStmt_if_inv h
    have hin := checkStmt_delivers ifTrue hr ht
    have hle := hin.declared.le
    refine ⟨(hin.regular.restrict hr hle).withFlow ?_, rfl, hin.continues,
      ⟨checkTyped_hasTy hc, wellTyped_bodyOf ifTrue hin.typed⟩, ?_⟩
    · intro id hid
      rcases Flow.mem_assigned_join hid with hid | hid
      · exact hin.regular.assigned_lt id hid
      · exact (hr.assigned_lt id hid).trans_le hle
    · rw [Stmt.declared, declaredAll_bodyOf]
      exact hin.declared
  | .ifElse p c ifTrue (some ifFalse), ctx, ctx', t, hr, h => by
    obtain ⟨c', t', inner, e', outer, hc, ht, he, rfl, rfl⟩ := checkStmt_ifElse_inv h
    have hin := checkStmt_delivers ifTrue hr ht
    have hle := hin.declared.le
    have hmid := (hin.regular.restrict hr hle).withFlow fun id hid => (hr.assigned_lt id hid).trans_le hle
    have hout := checkStmt_delivers ifFalse hmid he
    have hle' := hout.declared.le
    refine ⟨(hout.regular.restrict hr (hle.trans hle')).withFlow ?_, rfl, hout.continues.trans hin.continues,
      ⟨checkTyped_hasTy hc, wellTyped_bodyOf ifTrue hin.typed, wellTyped_bodyOf ifFalse ?_⟩, ?_⟩
    · intro id hid
      rcases Flow.mem_assigned_join hid with hid | hid
      · exact (hin.regular.assigned_lt id hid).trans_le hle'
      · exact hout.regular.assigned_lt id hid
    · rw [← hin.continues]
      exact hout.typed
    · rw [Stmt.declared, declaredAll_bodyOf, declaredAll_bodyOf]
      exact hin.declared.append hout.declared
  | .while_ p c body, ctx, ctx', t, hr, h => by
    obtain ⟨c', b, inner, hc, hb, rfl, rfl⟩ := checkStmt_while_inv h
    have hin := checkStmt_delivers body hr.enterLoop hb
    refine ⟨hr.mono hin.declared.le, rfl, rfl, ⟨checkTyped_hasTy hc, wellTyped_bodyOf body hin.typed⟩, ?_⟩
    rw [Stmt.declared, declaredAll_bodyOf]
    exact hin.declared
  | .for_ p init c step body, ctx, ctx', t, hr, h => by
    obtain ⟨i, head, c', b, inner, st, tail, hi, hc, hb, hst, rfl, rfl⟩ := checkStmt_for_inv h
    have hinit : DeliversAll returns ctx.continues.isSome ctx i head :=
      checkOptional_delivers hr hi
    have hbody := checkStmt_delivers body hinit.regular.enterLoop hb
    have htail := (hinit.regular.mono hbody.declared.le).withFlow hbody.regular.endOfBody_lt
    have hstep : DeliversAll returns false _ st tail :=
      checkOptional_delivers htail hst
    have hle : head.nextSymbol ≤ tail.nextSymbol := hbody.declared.le.trans hstep.declared.le
    have hcond : Expr.HasTy (i.foldl Stmt.scope ctx.visible) c' .bool := hinit.visible ▸ checkTyped_hasTy hc
    have hbodyTyped : AllWellTyped returns true (i.foldl Stmt.scope ctx.visible) (bodyOf body b) :=
      hinit.visible ▸ wellTyped_bodyOf body hbody.typed
    have hstepTyped : AllWellTyped returns false (i.foldl Stmt.scope ctx.visible) st :=
      hinit.visible ▸ hstep.typed
    refine ⟨(hinit.regular.mono hle).restrict hr (hinit.declared.le.trans hle), rfl, hinit.continues, ?_, ?_⟩
    · rw [Stmt.WellTyped]
      refine hinit.typed.append ⟨?_, trivial⟩
      cases step with
      | none => exact ⟨hcond, hbodyTyped⟩
      | some s => exact ⟨hcond, hbodyTyped, hstepTyped⟩
    · rw [Stmt.declared, declaredAll_append]
      refine hinit.declared.append ?_
      cases step with
      | none =>
        obtain ⟨rfl, rfl⟩ := checkOptional_none_inv hst
        rw [Option.map_none, declaredAll, declaredAll, Stmt.declared, declaredAll_bodyOf, List.append_nil]
        exact hbody.declared
      | some s =>
        rw [Option.map_some, declaredAll, declaredAll, Stmt.declared, declaredAll_bodyOf, List.append_nil]
        exact hbody.declared.append hstep.declared
  | .break_ p, ctx, ctx', t, hr, h => by
    obtain ⟨hloop, rfl, rfl⟩ := checkStmt_break_inv h
    exact ⟨hr.leave, rfl, rfl, hloop, .nil le_rfl⟩
  | .continue_ p, ctx, ctx', t, hr, h => by
    obtain ⟨flows, hloop, rfl, rfl⟩ := checkStmt_continue_inv h
    have hsome : ctx.continues.isSome = true := by rw [hloop, Option.isSome_some]
    refine ⟨⟨hr.proper, hr.leave.assigned_lt, fun f hf => ?_⟩, rfl, hsome.symm, hsome, .nil le_rfl⟩
    rcases List.mem_append.mp hf with hf | hf
    · exact hr.continues_lt f (by rw [hloop]; exact hf)
    · obtain rfl := List.mem_singleton.mp hf
      exact hr.assigned_lt
  | .return_ p value, ctx, ctx', t, hr, h => by
    obtain ⟨e, he, rfl, rfl⟩ := checkStmt_return_inv h
    exact ⟨hr.leave, rfl, rfl, checkTyped_hasTy he, .nil le_rfl⟩

theorem checkStmts_delivers : ∀ (body : List Syntax.Stmt) {ctx ctx' : Context} {t : List Stmt}, ctx.Regular →
    checkStmts returns body ctx = .ok (t, ctx') → DeliversAll returns ctx.continues.isSome ctx t ctx'
  | [], ctx, ctx', t, hr, h => by
    obtain ⟨rfl, rfl⟩ := checkStmts_nil_inv h
    exact ⟨hr, rfl, rfl, trivial, .nil le_rfl⟩
  | s :: rest, ctx, ctx', t, hr, h => by
    obtain ⟨t₁, ctx₁, ts, h₁, hrest, rfl⟩ := checkStmts_cons_inv h
    have hfirst := checkStmt_delivers s hr h₁
    have hthen := checkStmts_delivers rest hfirst.regular hrest
    refine ⟨hthen.regular, ?_, hthen.continues.trans hfirst.continues, ⟨hfirst.typed, ?_⟩, ?_⟩
    · rw [hthen.visible, hfirst.visible, List.foldl_cons]
    · rw [← hfirst.visible, ← hfirst.continues]
      exact hthen.typed
    · rw [declaredAll]
      exact hfirst.declared.append hthen.declared

end

/-! ### Types of assigned values -/

theorem keepsTypes_bodyOf (s : Syntax.Stmt) (h : t.KeepsTypes) : AllKeepTypes (bodyOf s t) := by
  unfold bodyOf
  split
  · rwa [Stmt.KeepsTypes] at h
  · exact ⟨h, trivial⟩

/-- A compound assignment stores an integer in an integer, unless it compares. -/
theorem compound_ty {p : Span} {op : BinaryOp} {rhs : Expr} (hop : op.isComparison = false)
    (h : compound ctx p s op rhs = .ok e) : e.ty = s.ty := by
  obtain ⟨-, -, -, rfl⟩ := compound_inv h
  simp [Expr.ty, hop]

theorem checkSimple_keepsTypes {s : Syntax.Simple} (hs : s.Arithmetic)
    (h : checkSimple ctx s = .ok (t, ctx')) : t.KeepsTypes := by
  cases s with
  | declare p ty name init =>
    cases init with
    | none =>
      obtain ⟨s, -, rfl⟩ := checkSimple_declare_inv h
      trivial
    | some e =>
      obtain ⟨e', s, ctx₁, -, -, rfl, -⟩ := checkSimple_init_inv h
      trivial
  | assign p name op value =>
    cases op with
    | none =>
      obtain ⟨s, e, -, he, rfl, -⟩ := checkSimple_assign_inv h
      exact (checkTyped_inv he).2
    | some op =>
      obtain ⟨s, rhs, e, -, -, he, rfl, -⟩ := checkSimple_compound_inv h
      exact compound_ty hs he
  | count p name direction =>
    obtain ⟨s, e, -, he, rfl, -⟩ := checkSimple_count_inv h
    exact compound_ty (by cases direction <;> rfl) he
  | expr p value =>
    obtain ⟨e, -, rfl, -⟩ := checkSimple_expr_inv h
    trivial

theorem checkOptional_keepsTypes {s : Option Syntax.Simple} (hs : ∀ x ∈ s, x.Arithmetic) {t : List Stmt}
    (h : checkOptional ctx s = .ok (t, ctx')) : AllKeepTypes t := by
  cases s with
  | none =>
    obtain ⟨rfl, -⟩ := checkOptional_none_inv h
    trivial
  | some s =>
    obtain ⟨t, ht, rfl⟩ := checkOptional_some_inv h
    exact ⟨checkSimple_keepsTypes (hs s rfl) ht, trivial⟩

mutual

/-- Where no compound assignment compares, the checker delivers assignments that keep
the type of their variable. -/
theorem checkStmt_keepsTypes : ∀ (s : Syntax.Stmt) {ctx ctx' : Context} {t : Stmt}, s.Arithmetic →
    checkStmt returns s ctx = .ok (t, ctx') → t.KeepsTypes
  | .simple s, _, _, _, hs, h => checkSimple_keepsTypes hs (checkStmt_simple_inv h)
  | .block p body, _, _, _, hs, h => by
    obtain ⟨stmts, inner, hbody, rfl, -⟩ := checkStmt_block_inv h
    exact checkStmts_keepsTypes body hs hbody
  | .ifElse p c ifTrue none, _, _, _, hs, h => by
    obtain ⟨c', t', inner, -, ht, rfl, -⟩ := checkStmt_if_inv h
    exact keepsTypes_bodyOf ifTrue (checkStmt_keepsTypes ifTrue hs ht)
  | .ifElse p c ifTrue (some ifFalse), _, _, _, hs, h => by
    obtain ⟨c', t', inner, e', outer, -, ht, he, rfl, -⟩ := checkStmt_ifElse_inv h
    exact ⟨keepsTypes_bodyOf ifTrue (checkStmt_keepsTypes ifTrue hs.1 ht),
      keepsTypes_bodyOf ifFalse (checkStmt_keepsTypes ifFalse hs.2 he)⟩
  | .while_ p c body, _, _, _, hs, h => by
    obtain ⟨c', b, inner, -, hb, rfl, -⟩ := checkStmt_while_inv h
    exact keepsTypes_bodyOf body (checkStmt_keepsTypes body hs hb)
  | .for_ p init c step body, _, _, _, hs, h => by
    obtain ⟨i, head, c', b, inner, st, tail, hi, -, hb, hst, rfl, -⟩ := checkStmt_for_inv h
    have hbody := keepsTypes_bodyOf body (checkStmt_keepsTypes body hs.2.1 hb)
    have hstep := checkOptional_keepsTypes hs.2.2 hst
    rw [Stmt.KeepsTypes]
    refine (checkOptional_keepsTypes hs.1 hi).append ⟨?_, trivial⟩
    cases step with
    | none => exact hbody
    | some s => exact ⟨hbody, hstep⟩
  | .break_ p, _, _, _, _, h => by
    obtain ⟨-, rfl, -⟩ := checkStmt_break_inv h
    trivial
  | .continue_ p, _, _, _, _, h => by
    obtain ⟨flows, -, rfl, -⟩ := checkStmt_continue_inv h
    trivial
  | .return_ p value, _, _, _, _, h => by
    obtain ⟨e, -, rfl, -⟩ := checkStmt_return_inv h
    trivial

theorem checkStmts_keepsTypes : ∀ (body : List Syntax.Stmt) {ctx ctx' : Context} {t : List Stmt},
    Syntax.AllArithmetic body → checkStmts returns body ctx = .ok (t, ctx') → AllKeepTypes t
  | [], _, _, _, _, h => by
    obtain ⟨rfl, -⟩ := checkStmts_nil_inv h
    trivial
  | s :: rest, _, _, _, hs, h => by
    obtain ⟨t₁, ctx₁, ts, h₁, hrest, rfl⟩ := checkStmts_cons_inv h
    exact ⟨checkStmt_keepsTypes s hs.1 h₁, checkStmts_keepsTypes rest hs.2 hrest⟩

end

end Statements

/-! ### Functions and programs -/

theorem Context.Regular.start : Context.start.Regular :=
  ⟨⟨List.nodup_nil, List.nodup_nil, by simp [Context.start]⟩, by simp [Context.start, Flow.start],
    by simp [Context.start]⟩

/-- The functions that the checker delivers are in order. -/
theorem checkFunc_wellFormed {f : Syntax.Func} {t : Func} (h : checkFunc f = .ok t) : t.WellFormed := by
  obtain ⟨body, ctx, hbody, -, rfl⟩ := checkFunc_inv h
  have hall := checkStmts_delivers f.body Context.Regular.start hbody
  exact ⟨hall.typed, hall.declared.nodup⟩

theorem checkFunc_keepsTypes {f : Syntax.Func} {t : Func} (hf : Syntax.AllArithmetic f.body)
    (h : checkFunc f = .ok t) : t.KeepsTypes := by
  obtain ⟨body, ctx, hbody, -, rfl⟩ := checkFunc_inv h
  exact checkStmts_keepsTypes f.body hf hbody

end Chordal.Typed
