/-
# Executions of a function, whatever its conditions say

What a function may do when nothing is known about the values it computes: every
condition may turn out either way, each time it is tested. A state of such an
execution is the set of the names that are assigned. A declaration without an
initial value begins a variable that is not assigned, so it takes its name out of
the set. An execution faults where it reads a name that is not in the set.

This only says something about functions that are in order: names are declared
before they are used and not declared again while they are visible, expressions
have the types they need, and `break` and `continue` stand in loops.

What is visible when a statement begins is not lost in it (`Runs.kept`), since a
declaration in it is of another name.

Key definitions: `Func.InOrder`, `Runs`, `Func.MayReadUnassigned`, `Func.MayFinish`.
Key theorems: `Runs.kept`, `runs_loop_iff`.
-/
import Mathlib
import Chordal.Syntax

namespace Chordal.Syntax

/-! ### Names and types -/

/-- The visible names and their types. -/
abbrev Scope := List (String × Ty)

/-- The names of a scope. -/
def Scope.names (Γ : Scope) : List String := Γ.map Prod.fst

/-- The expression has a type. -/
inductive Expr.HasTy (Γ : Scope) : Expr → Ty → Prop
  | int {p value} : HasTy Γ (.int p value) .int
  | bool {p value} : HasTy Γ (.bool p value) .bool
  | var {p name ty} : (name, ty) ∈ Γ → HasTy Γ (.var p name) ty
  | unary {p op operand} : HasTy Γ operand op.operandTy → HasTy Γ (.unary p op operand) op.operandTy
  | equality {p op left right ty} : op.isEquality = true → HasTy Γ left ty → HasTy Γ right ty →
      HasTy Γ (.binary p op left right) .bool
  | comparison {p op left right} : op.isEquality = false → op.isComparison = true → HasTy Γ left .int →
      HasTy Γ right .int → HasTy Γ (.binary p op left right) .bool
  | arithmetic {p op left right} : op.isComparison = false → HasTy Γ left .int → HasTy Γ right .int →
      HasTy Γ (.binary p op left right) .int
  | ternary {p condition ifTrue ifFalse ty} : HasTy Γ condition .bool → HasTy Γ ifTrue ty → HasTy Γ ifFalse ty →
      HasTy Γ (.ternary p condition ifTrue ifFalse) ty

/-- What is visible behind a simple statement. -/
def Simple.scope (Γ : Scope) : Simple → Scope
  | .declare _ ty name _ => (name, ty) :: Γ
  | _ => Γ

/-- The names and types of a simple statement are right. -/
def Simple.InOrder (Γ : Scope) : Simple → Prop
  | .declare _ _ name none => name ∉ Γ.names
  | .declare _ ty name (some init) => init.HasTy Γ ty ∧ name ∉ Γ.names
  | .assign _ name none value => ∃ ty, (name, ty) ∈ Γ ∧ value.HasTy Γ ty
  | .assign _ name (some _) value => (name, .int) ∈ Γ ∧ value.HasTy Γ .int
  | .count _ name _ => (name, .int) ∈ Γ
  | .expr _ value => ∃ ty, value.HasTy Γ ty

/-- What is visible behind a part of a loop's head that may be missing. -/
def scopeOf (Γ : Scope) : Option Simple → Scope
  | none => Γ
  | some s => s.scope Γ

/-- The names and types of a part of a loop's head that may be missing. -/
def InOrderOf (Γ : Scope) : Option Simple → Prop
  | none => True
  | some s => s.InOrder Γ

/-- What is visible behind a statement. -/
def Stmt.scope (Γ : Scope) : Stmt → Scope
  | .simple s => s.scope Γ
  | _ => Γ

mutual

/-- The names and types of a statement are right, and its `break` and `continue`
statements stand in loops. -/
def Stmt.InOrder (returns : Ty) (inLoop : Bool) (Γ : Scope) : Stmt → Prop
  | .simple s => s.InOrder Γ
  | .block _ body => AllInOrder returns inLoop Γ body
  | .ifElse _ condition ifTrue none => condition.HasTy Γ .bool ∧ ifTrue.InOrder returns inLoop Γ
  | .ifElse _ condition ifTrue (some ifFalse) =>
    condition.HasTy Γ .bool ∧ ifTrue.InOrder returns inLoop Γ ∧ ifFalse.InOrder returns inLoop Γ
  | .while_ _ condition body => condition.HasTy Γ .bool ∧ body.InOrder returns true Γ
  | .for_ _ init condition step body => InOrderOf Γ init ∧ condition.HasTy (scopeOf Γ init) .bool ∧
      body.InOrder returns true (scopeOf Γ init) ∧ InOrderOf (scopeOf Γ init) step
  | .break_ _ | .continue_ _ => inLoop = true
  | .return_ _ value => value.HasTy Γ returns

/-- Statements one after another are in order. -/
def AllInOrder (returns : Ty) (inLoop : Bool) (Γ : Scope) : List Stmt → Prop
  | [] => True
  | s :: rest => s.InOrder returns inLoop Γ ∧ AllInOrder returns inLoop (s.scope Γ) rest

end

/-- Names, scopes, types and the places of `break` and `continue` are right. -/
def Func.InOrder (f : Func) : Prop := AllInOrder f.returns false [] f.body

/-! ### What is read -/

/-- An evaluation of the expression reads these names, one after another. -/
inductive Expr.Reads : Expr → List String → Prop
  | int {p value} : Reads (.int p value) []
  | bool {p value} : Reads (.bool p value) []
  | var {p name} : Reads (.var p name) [name]
  | unary {p op operand xs} : Reads operand xs → Reads (.unary p op operand) xs
  | binary {p op left right xs ys} : Reads left xs → Reads right ys → Reads (.binary p op left right) (xs ++ ys)
  | ifTrue {p condition ifTrue ifFalse xs ys} : Reads condition xs → Reads ifTrue ys →
      Reads (.ternary p condition ifTrue ifFalse) (xs ++ ys)
  | ifFalse {p condition ifTrue ifFalse xs ys} : Reads condition xs → Reads ifFalse ys →
      Reads (.ternary p condition ifTrue ifFalse) (xs ++ ys)

/-- A simple statement reads these names. An assignment with an operator reads its
variable last. -/
inductive Simple.Reads : Simple → List String → Prop
  | declare {p ty name} : Reads (.declare p ty name none) []
  | init {p ty name value xs} : value.Reads xs → Reads (.declare p ty name (some value)) xs
  | assign {p name value xs} : value.Reads xs → Reads (.assign p name none value) xs
  | compound {p name op value xs} : value.Reads xs → Reads (.assign p name (some op) value) (xs ++ [name])
  | count {p name direction} : Reads (.count p name direction) [name]
  | expr {p value xs} : value.Reads xs → Reads (.expr p value) xs

/-- What a part of a loop's head that may be missing reads. -/
def ReadsOf : Option Simple → List String → Prop
  | none => (· = [])
  | some s => s.Reads

/-- The names that are assigned. -/
abbrev State := Finset String

/-- The state behind a simple statement. -/
def Simple.after (S : State) : Simple → State
  | .declare _ _ name none => S.erase name
  | .declare _ _ name (some _) => insert name S
  | .assign _ name _ _ => insert name S
  | .count _ name _ => insert name S
  | .expr _ _ => S

/-- The state behind a part of a loop's head that may be missing. -/
def afterOf (S : State) : Option Simple → State
  | none => S
  | some s => s.after S

/-- Something can be read without a fault. -/
def Passes (reads : List String → Prop) (S : State) : Prop := ∃ xs, reads xs ∧ ∀ x ∈ xs, x ∈ S

/-- The name can be read although it is not assigned. -/
def Faults (reads : List String → Prop) (S : State) (x : String) : Prop := ∃ xs, reads xs ∧ x ∈ xs ∧ x ∉ S

/-! ### Executions -/

/-- How an execution leaves a statement. -/
inductive Outcome where
  | next (S : State)
  | broke (S : State)
  | continued (S : State)
  | returned
  /-- It reads a name that is not assigned. -/
  | faulted (name : String)

namespace Outcome

/-- The state in which a statement is left. -/
def state? : Outcome → Option State
  | .next S | .broke S | .continued S => some S
  | .returned | .faulted _ => none

/-- The state in which the body of a loop ends, if the loop goes on. -/
def again? : Outcome → Option State
  | .next S | .continued S => some S
  | .broke _ | .returned | .faulted _ => none

end Outcome

/-- What is executed: a statement, statements, or a loop from a test of its
condition on. -/
inductive Task where
  | stmt (s : Stmt)
  | all (body : List Stmt)
  | loop (condition : Expr) (step : Option Simple) (body : Stmt)

/-- One of the executions of a task. Each condition goes either way. -/
inductive Runs : Task → State → Outcome → Prop
  | simple {s S} : Passes s.Reads S → Runs (.stmt (.simple s)) S (.next (s.after S))
  | simpleFault {s S x} : Faults s.Reads S x → Runs (.stmt (.simple s)) S (.faulted x)
  | block {p body S o} : Runs (.all body) S o → Runs (.stmt (.block p body)) S o
  | ifFault {p c t e S x} : Faults c.Reads S x → Runs (.stmt (.ifElse p c t e)) S (.faulted x)
  | ifTrue {p c t e S o} : Passes c.Reads S → Runs (.stmt t) S o → Runs (.stmt (.ifElse p c t e)) S o
  | ifFalse {p c t e S o} : Passes c.Reads S → Runs (.stmt e) S o → Runs (.stmt (.ifElse p c t (some e))) S o
  | ifSkip {p c t S} : Passes c.Reads S → Runs (.stmt (.ifElse p c t none)) S (.next S)
  | while_ {p c body S o} : Runs (.loop c none body) S o → Runs (.stmt (.while_ p c body)) S o
  | forFault {p init c step body S x} : Faults (ReadsOf init) S x →
      Runs (.stmt (.for_ p init c step body)) S (.faulted x)
  | for_ {p init c step body S o} : Passes (ReadsOf init) S → Runs (.loop c step body) (afterOf S init) o →
      Runs (.stmt (.for_ p init c step body)) S o
  | break_ {p S} : Runs (.stmt (.break_ p)) S (.broke S)
  | continue_ {p S} : Runs (.stmt (.continue_ p)) S (.continued S)
  | return_ {p value S} : Passes value.Reads S → Runs (.stmt (.return_ p value)) S .returned
  | returnFault {p value S x} : Faults value.Reads S x → Runs (.stmt (.return_ p value)) S (.faulted x)
  | nil {S} : Runs (.all []) S (.next S)
  | cons {s rest S S' o} : Runs (.stmt s) S (.next S') → Runs (.all rest) S' o → Runs (.all (s :: rest)) S o
  | leave {s rest S o} : Runs (.stmt s) S o → (∀ S', o ≠ .next S') → Runs (.all (s :: rest)) S o
  | testFault {c step body S x} : Faults c.Reads S x → Runs (.loop c step body) S (.faulted x)
  | exit {c step body S} : Passes c.Reads S → Runs (.loop c step body) S (.next S)
  | turn {c step body S o S' o'} : Passes c.Reads S → Runs (.stmt body) S o → o.again? = some S' →
      Passes (ReadsOf step) S' → Runs (.loop c step body) (afterOf S' step) o' → Runs (.loop c step body) S o'
  | stepFault {c step body S o S' x} : Passes c.Reads S → Runs (.stmt body) S o → o.again? = some S' →
      Faults (ReadsOf step) S' x → Runs (.loop c step body) S (.faulted x)
  | broke {c step body S S'} : Passes c.Reads S → Runs (.stmt body) S (.broke S') →
      Runs (.loop c step body) S (.next S')
  | stopped {c step body S o} : Passes c.Reads S → Runs (.stmt body) S o → o.state? = none →
      Runs (.loop c step body) S o

/-- Some execution of the function reads a variable that it has not assigned. -/
def Func.MayReadUnassigned (f : Func) : Prop := ∃ x, Runs (.all f.body) ∅ (.faulted x)

/-- Some execution of the function comes to the end of its body. -/
def Func.MayFinish (f : Func) : Prop := ∃ S, Runs (.all f.body) ∅ (.next S)

/-! ### What is kept -/

/-- Expressions can be evaluated. -/
theorem Expr.exists_reads : ∀ e : Expr, ∃ xs, e.Reads xs
  | .int _ _ => ⟨_, .int⟩
  | .bool _ _ => ⟨_, .bool⟩
  | .var _ _ => ⟨_, .var⟩
  | .unary _ _ operand =>
    have ⟨_, h⟩ := operand.exists_reads
    ⟨_, .unary h⟩
  | .binary _ _ left right =>
    have ⟨_, hl⟩ := left.exists_reads
    have ⟨_, hr⟩ := right.exists_reads
    ⟨_, .binary hl hr⟩
  | .ternary _ condition ifTrue _ =>
    have ⟨_, hc⟩ := condition.exists_reads
    have ⟨_, ht⟩ := ifTrue.exists_reads
    ⟨_, .ifTrue hc ht⟩

theorem Simple.exists_reads : ∀ s : Simple, ∃ xs, s.Reads xs
  | .declare _ _ _ none => ⟨_, .declare⟩
  | .declare _ _ _ (some value) =>
    have ⟨_, h⟩ := value.exists_reads
    ⟨_, .init h⟩
  | .assign _ _ none value =>
    have ⟨_, h⟩ := value.exists_reads
    ⟨_, .assign h⟩
  | .assign _ _ (some _) value =>
    have ⟨_, h⟩ := value.exists_reads
    ⟨_, .compound h⟩
  | .count .. => ⟨_, .count⟩
  | .expr _ value =>
    have ⟨_, h⟩ := value.exists_reads
    ⟨_, .expr h⟩

/-- What reads without ever faulting passes. -/
theorem passes_of_not_faults {reads : List String → Prop} {S : State} (hex : ∃ xs, reads xs)
    (h : ∀ x, ¬ Faults reads S x) : Passes reads S := by
  obtain ⟨xs, hxs⟩ := hex
  refine ⟨xs, hxs, fun x hx => ?_⟩
  by_contra hnot
  exact h x ⟨xs, hxs, hx, hnot⟩

/-- The task is in order. -/
def Task.InOrder (returns : Ty) (inLoop : Bool) (Γ : Scope) : Task → Prop
  | .stmt s => s.InOrder returns inLoop Γ
  | .all body => AllInOrder returns inLoop Γ body
  | .loop _ step body => body.InOrder returns true Γ ∧ InOrderOf Γ step

theorem Simple.names_scope (Γ : Scope) (s : Simple) : Γ.names ⊆ (s.scope Γ).names := by
  cases s <;> simp [Simple.scope, Scope.names]

theorem Simple.mem_after {Γ : Scope} {s : Simple} (h : s.InOrder Γ) {x : String} (hx : x ∈ Γ.names) {S : State}
    (hS : x ∈ S) : x ∈ s.after S := by
  match s, h with
  | .declare _ _ name none, h =>
    have hne : x ≠ name := fun he => h (he ▸ hx)
    exact Finset.mem_erase.mpr ⟨hne, hS⟩
  | .declare _ _ _ (some _), _ => exact Finset.mem_insert_of_mem hS
  | .assign .., _ => exact Finset.mem_insert_of_mem hS
  | .count .., _ => exact Finset.mem_insert_of_mem hS
  | .expr .., _ => exact hS

theorem mem_afterOf {Γ : Scope} {s : Option Simple} (h : InOrderOf Γ s) {x : String} (hx : x ∈ Γ.names) {S : State}
    (hS : x ∈ S) : x ∈ afterOf S s := by
  cases s with
  | none => exact hS
  | some s => exact s.mem_after h hx hS

theorem names_scopeOf (Γ : Scope) (s : Option Simple) : Γ.names ⊆ (scopeOf Γ s).names := by
  cases s with
  | none => exact List.Subset.refl _
  | some s => exact s.names_scope Γ

theorem Stmt.names_scope (Γ : Scope) (s : Stmt) : Γ.names ⊆ (s.scope Γ).names := by
  cases s with
  | simple s => exact s.names_scope Γ
  | _ => exact List.Subset.refl _

theorem Outcome.state?_of_again? {o : Outcome} {S : State} (h : o.again? = some S) : o.state? = some S := by
  cases o <;> first | exact h | cases h

/-- A visible name that is assigned stays assigned. -/
theorem Runs.kept {returns : Ty} {task : Task} {S : State} {o : Outcome} (h : Runs task S o) {x : String} :
    ∀ {S'}, o.state? = some S' → ∀ inLoop Γ, task.InOrder returns inLoop Γ → x ∈ Γ.names → x ∈ S → x ∈ S' := by
  induction h with
  | simple hp =>
    intro S' ho inLoop Γ hio hx hS
    obtain rfl := Option.some.inj ho
    exact Simple.mem_after hio hx hS
  | simpleFault | ifFault | forFault | return_ | returnFault | testFault | stepFault =>
    intro S' ho
    cases ho
  | block _ ih =>
    intro S' ho inLoop Γ hio
    exact ih ho inLoop Γ hio
  | @ifTrue p c t e S o hp _ ih =>
    intro S' ho inLoop Γ hio
    cases e with
    | none => exact ih ho inLoop Γ hio.2
    | some e => exact ih ho inLoop Γ hio.2.1
  | ifFalse hp _ ih =>
    intro S' ho inLoop Γ hio
    exact ih ho inLoop Γ hio.2.2
  | ifSkip | nil | exit | break_ | continue_ =>
    intro S' ho inLoop Γ _ _ hS
    exact Option.some.inj ho ▸ hS
  | while_ _ ih =>
    intro S' ho inLoop Γ hio
    exact ih ho inLoop Γ ⟨hio.2, trivial⟩
  | @for_ p init c step body S o hp _ ih =>
    intro S' ho inLoop Γ hio hx hS
    exact ih ho inLoop _ ⟨hio.2.2.1, hio.2.2.2⟩ (names_scopeOf Γ init hx) (mem_afterOf hio.1 hx hS)
  | @cons s rest S S' o _ _ ih₁ ih₂ =>
    intro S'' ho inLoop Γ hio hx hS
    exact ih₂ ho inLoop _ hio.2 (s.names_scope Γ hx) (ih₁ rfl inLoop Γ hio.1 hx hS)
  | leave _ _ ih =>
    intro S' ho inLoop Γ hio
    exact ih ho inLoop Γ hio.1
  | turn hp _ hagain _ _ ih₁ ih₂ =>
    intro S'' ho inLoop Γ hio hx hS
    have hbody := ih₁ (Outcome.state?_of_again? hagain) true Γ hio.1 hx hS
    exact ih₂ ho inLoop Γ hio hx (mem_afterOf hio.2 hx hbody)
  | broke hp _ ih =>
    intro S'' ho inLoop Γ hio hx hS
    exact Option.some.inj ho ▸ ih rfl true Γ hio.1 hx hS
  | stopped _ _ hnone _ =>
    intro S' ho
    rw [hnone] at ho
    cases ho

/-! ### Loops -/

section Loops

variable (c : Expr) (step : Option Simple) (body : Stmt)

/-- From one test of a loop's condition to the next. -/
def Turn (S S' : State) : Prop :=
  Passes c.Reads S ∧ ∃ o S₁, Runs (.stmt body) S o ∧ o.again? = some S₁ ∧ Passes (ReadsOf step) S₁ ∧
    S' = afterOf S₁ step

/-- How a loop is left that comes to no other test. -/
inductive LastTurn : State → Outcome → Prop
  | testFault {S x} : Faults c.Reads S x → LastTurn S (.faulted x)
  | exit {S} : Passes c.Reads S → LastTurn S (.next S)
  | stepFault {S o S' x} : Passes c.Reads S → Runs (.stmt body) S o → o.again? = some S' →
      Faults (ReadsOf step) S' x → LastTurn S (.faulted x)
  | broke {S S'} : Passes c.Reads S → Runs (.stmt body) S (.broke S') → LastTurn S (.next S')
  | stopped {S o} : Passes c.Reads S → Runs (.stmt body) S o → o.state? = none → LastTurn S o

/-- A loop makes some turns, and then its last one. -/
theorem runs_loop_iff {S : State} {o : Outcome} : Runs (.loop c step body) S o ↔
    ∃ S', Relation.ReflTransGen (Turn c step body) S S' ∧ LastTurn c step body S' o := by
  constructor
  · intro h
    generalize htask : Task.loop c step body = task at h
    induction h with
    | testFault hf =>
      cases htask
      exact ⟨_, .refl, .testFault hf⟩
    | exit hp =>
      cases htask
      exact ⟨_, .refl, .exit hp⟩
    | turn hp hbody hagain hstep _ _ ih =>
      cases htask
      obtain ⟨S', hturns, hlast⟩ := ih rfl
      exact ⟨S', .head ⟨hp, _, _, hbody, hagain, hstep, rfl⟩ hturns, hlast⟩
    | stepFault hp hbody hagain hf =>
      cases htask
      exact ⟨_, .refl, .stepFault hp hbody hagain hf⟩
    | broke hp hbody =>
      cases htask
      exact ⟨_, .refl, .broke hp hbody⟩
    | stopped hp hbody hnone =>
      cases htask
      exact ⟨_, .refl, .stopped hp hbody hnone⟩
    | _ => cases htask
  · rintro ⟨S', hturns, hlast⟩
    induction hturns using Relation.ReflTransGen.head_induction_on with
    | refl =>
      cases hlast with
      | testFault hf => exact .testFault hf
      | exit hp => exact .exit hp
      | stepFault hp hbody hagain hf => exact .stepFault hp hbody hagain hf
      | broke hp hbody => exact .broke hp hbody
      | stopped hp hbody hnone => exact .stopped hp hbody hnone
    | head hturn _ ih =>
      obtain ⟨hp, o', S₁, hbody, hagain, hstep, rfl⟩ := hturn
      exact .turn hp hbody hagain hstep ih

variable {c step body}

/-- A visible name that is assigned stays so through the turns of a loop. -/
theorem kept_of_turns {returns : Ty} {Γ : Scope} (hbody : body.InOrder returns true Γ) (hstep : InOrderOf Γ step)
    {S S' : State} (h : Relation.ReflTransGen (Turn c step body) S S') {x : String} (hx : x ∈ Γ.names) (hS : x ∈ S) :
    x ∈ S' := by
  induction h with
  | refl => exact hS
  | tail _ hturn ih =>
    obtain ⟨-, o, S₁, hrun, hagain, -, rfl⟩ := hturn
    exact mem_afterOf hstep hx (hrun.kept (Outcome.state?_of_again? hagain) true Γ hbody hx ih)

end Loops

end Chordal.Syntax
