/-
# Definite assignment of typed trees

The checker follows flow states on syntax trees. `Stmt.Flows` says on the typed
tree what it has found: every variable that is read is assigned, `break` and
`continue` stand in loops, and the flow state behind a statement follows from the
one before it. The rules of a loop are those of the checker's single pass: what
is known before a loop is known at every test of its condition and behind it.

Every tree the checker gives has a derivation by these rules, and control does
not come to the end of a function it accepts.

Key definitions: `Expr.ReadsIn`, `Stmt.Flows`, `AllFlow`.
Key theorems: `checkStmts_flows`, `checkFunc_flows`.
-/
import Mathlib
import Chordal.Proofs.Typed.Accepted

namespace Chordal.Typed

/-- All variables that an expression reads are assigned. -/
def Expr.ReadsIn (flow : Flow) : Expr → Prop
  | .int _ => True
  | .bool _ => True
  | .var symbol => flow.isAssigned symbol.id = true
  | .unary _ operand => operand.ReadsIn flow
  | .binary _ left right => left.ReadsIn flow ∧ right.ReadsIn flow
  | .ternary condition ifTrue ifFalse =>
    condition.ReadsIn flow ∧ ifTrue.ReadsIn flow ∧ ifFalse.ReadsIn flow

mutual

/-- The flow state before a statement, in a loop or not, gives the one behind it
and those at the `continue` statements that leave it. -/
inductive Stmt.Flows : Bool → Flow → Stmt → Flow → List Flow → Prop
  | declare {inLoop : Bool} {flow : Flow} {symbol : Symbol} : Stmt.Flows inLoop flow (.declare symbol none) flow []
  | init {inLoop : Bool} {flow : Flow} {symbol : Symbol} {e : Expr} : e.ReadsIn flow →
    Stmt.Flows inLoop flow (.declare symbol (some e)) (flow.assign symbol.id) []
  | assign {inLoop : Bool} {flow : Flow} {symbol : Symbol} {e : Expr} : e.ReadsIn flow →
    Stmt.Flows inLoop flow (.assign symbol e) (flow.assign symbol.id) []
  | expr {inLoop : Bool} {flow : Flow} {e : Expr} : e.ReadsIn flow → Stmt.Flows inLoop flow (.expr e) flow []
  | return_ {inLoop : Bool} {flow : Flow} {e : Expr} : e.ReadsIn flow → Stmt.Flows inLoop flow (.return_ e) .dead []
  | break_ {flow : Flow} : Stmt.Flows true flow .break_ .dead []
  | continue_ {flow : Flow} : Stmt.Flows true flow .continue_ .dead [flow]
  | block {inLoop : Bool} {flow flow' : Flow} {body : List Stmt} {new : List Flow} :
    AllFlow inLoop flow body flow' new → Stmt.Flows inLoop flow (.block body) flow' new
  | ifThen {inLoop : Bool} {flow flow' : Flow} {c : Expr} {t : List Stmt} {new : List Flow} : c.ReadsIn flow →
    AllFlow inLoop flow t flow' new → Stmt.Flows inLoop flow (.ifElse c t none) (flow'.join flow) new
  | ifElse {inLoop : Bool} {flow flow₁ flow₂ : Flow} {c : Expr} {t e : List Stmt} {new₁ new₂ : List Flow} :
    c.ReadsIn flow → AllFlow inLoop flow t flow₁ new₁ → AllFlow inLoop flow e flow₂ new₂ →
    Stmt.Flows inLoop flow (.ifElse c t (some e)) (flow₁.join flow₂) (new₁ ++ new₂)
  | loop {inLoop : Bool} {flow flow' : Flow} {c : Expr} {body : List Stmt} {new : List Flow} : c.ReadsIn flow →
    AllFlow true flow body flow' new → Stmt.Flows inLoop flow (.while_ c body none) flow []
  | stepLoop {inLoop : Bool} {flow flow₁ flow₂ : Flow} {c : Expr} {body step : List Stmt} {new : List Flow} :
    c.ReadsIn flow → AllFlow true flow body flow₁ new →
    AllFlow inLoop (new.foldl Flow.join flow₁) step flow₂ [] →
    Stmt.Flows inLoop flow (.while_ c body (some step)) flow []

/-- The same for statements one after another. -/
inductive AllFlow : Bool → Flow → List Stmt → Flow → List Flow → Prop
  | nil {inLoop : Bool} {flow : Flow} : AllFlow inLoop flow [] flow []
  | cons {inLoop : Bool} {flow flow₁ flow₂ : Flow} {s : Stmt} {rest : List Stmt} {new₁ new₂ : List Flow} :
    s.Flows inLoop flow flow₁ new₁ → AllFlow inLoop flow₁ rest flow₂ new₂ →
    AllFlow inLoop flow (s :: rest) flow₂ (new₁ ++ new₂)

end

namespace AllFlow

variable {inLoop : Bool} {flow₁ flow₂ : Flow} {t : List Stmt} {new₂ : List Flow}

theorem singleton {s : Stmt} {flow : Flow} {new₁ : List Flow} (h : s.Flows inLoop flow flow₁ new₁) :
    AllFlow inLoop flow [s] flow₁ new₁ := by
  have hall := AllFlow.cons h .nil
  rwa [List.append_nil] at hall

theorem append : ∀ {s : List Stmt} {flow : Flow} {new₁ : List Flow}, AllFlow inLoop flow s flow₁ new₁ →
    AllFlow inLoop flow₁ t flow₂ new₂ → AllFlow inLoop flow (s ++ t) flow₂ (new₁ ++ new₂)
  | [], _, _, .nil, h' => h'
  | _ :: _, _, _, .cons h hrest, h' => by
    rw [List.append_assoc]
    exact .cons h (append hrest h')

end AllFlow

/-! ### What may be read -/

/-- The variables that may be read where a flow state holds: all of them where
control cannot be. -/
def Flow.reads (flow : Flow) : Set Nat := {j | flow.isAssigned j = true}

namespace Flow

variable {flow : Flow}

theorem reads_of_not_live (h : flow.live = false) : flow.reads = Set.univ := by
  ext j
  simp [reads, isAssigned, h]

theorem reads_join (a b : Flow) : (a.join b).reads = a.reads ∩ b.reads := by
  ext j
  simp [reads, isAssigned_join]

theorem reads_assign (flow : Flow) (j : Nat) : (flow.assign j).reads ⊆ insert j flow.reads := by
  intro k hk
  change (flow.assign j).isAssigned k = true at hk
  change k = j ∨ flow.isAssigned k = true
  simp only [isAssigned, assign, Bool.or_eq_true, Bool.not_eq_true', List.contains_iff_mem, List.mem_cons] at hk ⊢
  tauto

/-- Joins allow to read only what all their flow states allow. -/
theorem reads_foldl_join : ∀ (flows : List Flow) (flow : Flow), (flows.foldl join flow).reads ⊆ flow.reads
  | [], _ => subset_rfl
  | f :: flows, flow => by
    refine (reads_foldl_join flows (flow.join f)).trans ?_
    rw [reads_join]
    exact Set.inter_subset_left

theorem reads_foldl_join_mem : ∀ {flows : List Flow} {flow f : Flow}, f ∈ flows →
    (flows.foldl join flow).reads ⊆ f.reads
  | g :: flows, flow, f, h => by
    rcases List.mem_cons.mp h with rfl | h
    · refine (reads_foldl_join flows (flow.join f)).trans ?_
      rw [reads_join]
      exact Set.inter_subset_right
    · have hrest : (flows.foldl join (flow.join g)).reads ⊆ f.reads := reads_foldl_join_mem h
      exact hrest

end Flow

/-! ### What the checker gives -/

section Checking

variable {ctx ctx' : Context} {returns : Ty}

theorem checkExpr_reads : ∀ (e : Syntax.Expr) {e' : Expr}, checkExpr ctx e = .ok e' → e'.ReadsIn ctx.flow
  | .int _ _, _, h => by
    obtain rfl := Except.ok.inj h
    trivial
  | .bool _ _, _, h => by
    obtain rfl := Except.ok.inj h
    trivial
  | .var p name, _, h => by
    obtain ⟨s, -, hread, rfl⟩ := checkExpr_var_inv h
    exact hread
  | .unary _ op operand, _, h => by
    obtain ⟨e, he, -, rfl⟩ := checkExpr_unary_inv h
    have hread : e.ReadsIn ctx.flow := checkExpr_reads operand he
    exact hread
  | .binary p op left right, _, h => by
    obtain ⟨l, r, hl, hr, -, rfl⟩ := checkExpr_binary_inv h
    exact ⟨checkExpr_reads left hl, checkExpr_reads right hr⟩
  | .ternary _ condition ifTrue ifFalse, _, h => by
    obtain ⟨c, t, e, hc, ht, he, -, -, rfl⟩ := checkExpr_ternary_inv h
    exact ⟨checkExpr_reads condition hc, checkExpr_reads ifTrue ht, checkExpr_reads ifFalse he⟩

theorem checkTyped_reads {wanted : Ty} {e : Syntax.Expr} {e' : Expr} (h : checkTyped ctx wanted e = .ok e') :
    e'.ReadsIn ctx.flow := checkExpr_reads e (checkTyped_inv h).1

theorem compound_reads {p : Span} {s : Symbol} {op : BinaryOp} {rhs e : Expr} (hrhs : rhs.ReadsIn ctx.flow)
    (h : compound ctx p s op rhs = .ok e) : e.ReadsIn ctx.flow := by
  obtain ⟨-, -, hread, rfl⟩ := compound_inv h
  exact ⟨hread, hrhs⟩

/-- A simple statement has no `continue` in it. -/
theorem checkSimple_flows {s : Syntax.Simple} {t : Stmt} (h : checkSimple ctx s = .ok (t, ctx')) (inLoop : Bool) :
    t.Flows inLoop ctx.flow ctx'.flow [] ∧ ctx'.continues = ctx.continues := by
  cases s with
  | declare p ty name init =>
    cases init with
    | none =>
      obtain ⟨s, hd, rfl⟩ := checkSimple_declare_inv h
      obtain ⟨-, rfl, rfl⟩ := declare_inv hd
      exact ⟨.declare, rfl⟩
    | some e =>
      obtain ⟨e', s, ctx₁, he, hd, rfl, rfl⟩ := checkSimple_init_inv h
      obtain ⟨-, rfl, rfl⟩ := declare_inv hd
      exact ⟨.init (checkTyped_reads he), rfl⟩
  | assign p name op value =>
    cases op with
    | none =>
      obtain ⟨s, e, -, he, rfl, rfl⟩ := checkSimple_assign_inv h
      exact ⟨.assign (checkTyped_reads he), rfl⟩
    | some op =>
      obtain ⟨s, rhs, e, -, hrhs, he, rfl, rfl⟩ := checkSimple_compound_inv h
      exact ⟨.assign (compound_reads (checkExpr_reads value hrhs) he), rfl⟩
  | count p name direction =>
    obtain ⟨s, e, -, he, rfl, rfl⟩ := checkSimple_count_inv h
    exact ⟨.assign (compound_reads (show Expr.ReadsIn ctx.flow (.int 1) from trivial) he), rfl⟩
  | expr p value =>
    obtain ⟨e, he, rfl, rfl⟩ := checkSimple_expr_inv h
    exact ⟨.expr (checkExpr_reads value he), rfl⟩

theorem checkOptional_flows {s : Option Syntax.Simple} {t : List Stmt} (h : checkOptional ctx s = .ok (t, ctx'))
    (inLoop : Bool) : AllFlow inLoop ctx.flow t ctx'.flow [] ∧ ctx'.continues = ctx.continues := by
  cases s with
  | none =>
    obtain ⟨rfl, rfl⟩ := checkOptional_none_inv h
    exact ⟨.nil, rfl⟩
  | some s =>
    obtain ⟨t, hs, rfl⟩ := checkOptional_some_inv h
    obtain ⟨hflows, hcontinues⟩ := checkSimple_flows hs inLoop
    exact ⟨.singleton hflows, hcontinues⟩

/-- What checking a statement finds, with the flow states it adds to those at the
`continue` statements of the loop around it. -/
def Finds (ctx : Context) (flows : Bool → Flow → Flow → List Flow → Prop) (ctx' : Context) : Prop :=
  ∃ new, ctx'.continues = ctx.continues.map (· ++ new) ∧ flows ctx.continues.isSome ctx.flow ctx'.flow new

theorem Finds.of_eq {flows : Bool → Flow → Flow → List Flow → Prop} (hcontinues : ctx'.continues = ctx.continues)
    (h : flows ctx.continues.isSome ctx.flow ctx'.flow []) : Finds ctx flows ctx' := by
  refine ⟨[], ?_, h⟩
  rw [hcontinues]
  cases ctx.continues <;> simp

theorem Finds.continues_append {ctx'' : Context} {new new' : List Flow}
    (hnew : ctx'.continues = ctx.continues.map (· ++ new)) (hnew' : ctx''.continues = ctx'.continues.map (· ++ new')) :
    ctx''.continues = ctx.continues.map (· ++ (new ++ new')) ∧ ctx'.continues.isSome = ctx.continues.isSome := by
  refine ⟨?_, by rw [hnew, Option.isSome_map]⟩
  rw [hnew', hnew, Option.map_map]
  simp [Function.comp_def]

/-- A nested statement flows as the list of its statements does. -/
theorem flows_bodyOf {inLoop : Bool} {flow flow' : Flow} {new : List Flow} (s : Syntax.Stmt) {t : Stmt}
    (h : t.Flows inLoop flow flow' new) : AllFlow inLoop flow (bodyOf s t) flow' new := by
  unfold bodyOf
  split
  · cases h with
    | block h => exact h
  · exact .singleton h

/-- The `continue` statements of a loop's body are all there are. -/
theorem Finds.body {flows : Bool → Flow → Flow → List Flow → Prop}
    (h : Finds { ctx with continues := some [] } flows ctx') :
    flows true ctx.flow ctx'.flow (ctx'.continues.getD []) := by
  obtain ⟨new, hnew, h⟩ := h
  rw [hnew]
  exact h

mutual

theorem checkStmt_flows : ∀ (s : Syntax.Stmt) {ctx ctx' : Context} {t : Stmt},
    checkStmt returns s ctx = .ok (t, ctx') → Finds ctx (fun l a b new => t.Flows l a b new) ctx'
  | .simple s, ctx, ctx', t, h => by
    obtain ⟨hflows, hcontinues⟩ := checkSimple_flows (checkStmt_simple_inv h) ctx.continues.isSome
    exact .of_eq hcontinues hflows
  | .block p body, ctx, ctx', t, h => by
    obtain ⟨stmts, inner, hbody, rfl, rfl⟩ := checkStmt_block_inv h
    obtain ⟨new, hnew, hflows⟩ := checkStmts_flows body hbody
    exact ⟨new, hnew, .block hflows⟩
  | .ifElse p c ifTrue none, ctx, ctx', t, h => by
    obtain ⟨c', t', inner, hc, ht, rfl, rfl⟩ := checkStmt_if_inv h
    obtain ⟨new, hnew, hflows⟩ := checkStmt_flows ifTrue ht
    exact ⟨new, hnew, .ifThen (checkTyped_reads hc) (flows_bodyOf ifTrue hflows)⟩
  | .ifElse p c ifTrue (some ifFalse), ctx, ctx', t, h => by
    obtain ⟨c', t', inner, e', outer, hc, ht, he, rfl, rfl⟩ := checkStmt_ifElse_inv h
    obtain ⟨new₁, hnew₁, hflows₁⟩ := checkStmt_flows ifTrue ht
    obtain ⟨new₂, hnew₂, hflows₂⟩ := checkStmt_flows ifFalse he
    obtain ⟨hnew, hsome⟩ := Finds.continues_append hnew₁ hnew₂
    dsimp only at hflows₂
    rw [hsome] at hflows₂
    exact ⟨new₁ ++ new₂, hnew,
      .ifElse (checkTyped_reads hc) (flows_bodyOf ifTrue hflows₁) (flows_bodyOf ifFalse hflows₂)⟩
  | .while_ p c body, ctx, ctx', t, h => by
    obtain ⟨c', b, inner, hc, hb, rfl, rfl⟩ := checkStmt_while_inv h
    exact .of_eq rfl (.loop (checkTyped_reads hc) (flows_bodyOf body (checkStmt_flows body hb).body))
  | .for_ p init c step body, ctx, ctx', t, h => by
    obtain ⟨i, head, c', b, inner, st, tail, hi, hc, hb, hst, rfl, rfl⟩ := checkStmt_for_inv h
    obtain ⟨hinit, hcontinues⟩ := checkOptional_flows hi ctx.continues.isSome
    have hbody := flows_bodyOf body (checkStmt_flows body hb).body
    refine .of_eq hcontinues (.block (hinit.append (.singleton ?_)))
    cases step with
    | none => exact .loop (checkTyped_reads hc) hbody
    | some s => exact .stepLoop (checkTyped_reads hc) hbody (checkOptional_flows hst _).1
  | .break_ p, ctx, ctx', t, h => by
    obtain ⟨hloop, rfl, rfl⟩ := checkStmt_break_inv h
    refine .of_eq rfl ?_
    rw [hloop]
    exact .break_
  | .continue_ p, ctx, ctx', t, h => by
    obtain ⟨flows, hloop, rfl, rfl⟩ := checkStmt_continue_inv h
    refine ⟨[ctx.flow], by simp [hloop], ?_⟩
    rw [hloop]
    exact .continue_
  | .return_ p value, ctx, ctx', t, h => by
    obtain ⟨e, he, rfl, rfl⟩ := checkStmt_return_inv h
    exact .of_eq rfl (.return_ (checkTyped_reads he))

theorem checkStmts_flows : ∀ (body : List Syntax.Stmt) {ctx ctx' : Context} {t : List Stmt},
    checkStmts returns body ctx = .ok (t, ctx') → Finds ctx (fun l a b new => AllFlow l a t b new) ctx'
  | [], ctx, ctx', t, h => by
    obtain ⟨rfl, rfl⟩ := checkStmts_nil_inv h
    exact .of_eq rfl .nil
  | s :: rest, ctx, ctx', t, h => by
    obtain ⟨t₁, ctx₁, ts, hs, hrest, rfl⟩ := checkStmts_cons_inv h
    obtain ⟨new₁, hnew₁, hflows₁⟩ := checkStmt_flows s hs
    obtain ⟨new₂, hnew₂, hflows₂⟩ := checkStmts_flows rest hrest
    obtain ⟨hnew, hsome⟩ := Finds.continues_append hnew₁ hnew₂
    rw [hsome] at hflows₂
    exact ⟨new₁ ++ new₂, hnew, .cons hflows₁ hflows₂⟩

end

end Checking

/-- The body of an accepted function reads assigned variables only, and control
does not come to its end. -/
theorem checkFunc_flows {f : Syntax.Func} {t : Func} (h : checkFunc f = .ok t) :
    ∃ flow new, AllFlow false .start t.body flow new ∧ flow.live = false := by
  obtain ⟨body, ctx, hbody, hend, rfl⟩ := checkFunc_inv h
  obtain ⟨new, -, hflows⟩ := checkStmts_flows f.body hbody
  exact ⟨ctx.flow, new, hflows, hend⟩

end Chordal.Typed
