/-
# What typed functions mean

A typed function runs by recursion on its tree. Variables are kept by the
numbers of their symbols. An expression is evaluated from left to right, and a
conditional evaluates only the arm it chooses. A statement says how control
leaves it: to the next statement, out of the innermost loop, to the end of its
body, or out of the function.

Only a loop can go on forever, so only loops are counted: with `fuel`, each
loop makes at most that many rounds, and there is no answer where one of them
would need more. An answer that is found stays with more fuel
(`Stmt.exec_mono`). A function that has no answer with any fuel diverges.

Reading a variable that was never assigned stops a run in a way of its own, and
so does an end that is no `return`. Neither is a result.

Key definitions: `Expr.eval`, `Stmt.exec`, `loop`, `Func.Ends`, `Func.Diverges`,
`Func.simpleSteps`.
Key theorems: `Stmt.exec_mono`, `Func.exec_unique`.
-/
import Mathlib
import Chordal.Typed

namespace Chordal.Typed

/-- The contents of the variables, by the numbers of their symbols. -/
abbrev Vars := Nat → Option Word

/-- No variable is assigned. -/
def Vars.none : Vars := fun _ => Option.none

/-- The variables after an assignment. -/
def Vars.set (σ : Vars) (symbol : Nat) (w : Word) : Vars :=
  fun j => if j = symbol then some w else σ j

/-- Why an expression has no value. -/
inductive Stop where
  | division (fault : DivisionFault)
  | unassigned (symbol : Nat)
deriving DecidableEq, Repr

/-- The value of an expression. -/
def Expr.eval (σ : Vars) : Expr → Except Stop Word
  | .int value => .ok value
  | .bool value => .ok (Word.ofBool value)
  | .var symbol =>
    match σ symbol.id with
    | some w => .ok w
    | Option.none => .error (.unassigned symbol.id)
  | .unary op operand =>
    match operand.eval σ with
    | .ok w => .ok (op.apply w)
    | .error e => .error e
  | .binary op left right =>
    match left.eval σ with
    | .error e => .error e
    | .ok l =>
      match right.eval σ with
      | .error e => .error e
      | .ok r =>
        match op.apply l r with
        | .ok w => .ok w
        | .error fault => .error (.division fault)
  | .ternary condition ifTrue ifFalse =>
    match condition.eval σ with
    | .error e => .error e
    | .ok c => if c != 0 then ifTrue.eval σ else ifFalse.eval σ

/-- How control leaves a statement, with the variables as they are then. -/
inductive Exit where
  | next (σ : Vars)
  | broke (σ : Vars)
  | continued (σ : Vars)
  | returned (w : Word)
  | stopped (cause : Stop)

/-- Stores the value of an expression in a variable. -/
def store (symbol : Nat) (value : Expr) (σ : Vars) : Exit :=
  match value.eval σ with
  | .ok w => .next (σ.set symbol w)
  | .error e => .stopped e

/-- Goes one of two ways by the value of a condition. -/
def choose (condition : Except Stop Word) (ifTrue ifFalse : Option Exit) : Option Exit :=
  match condition with
  | .error e => some (.stopped e)
  | .ok c => if c != 0 then ifTrue else ifFalse

/-- A loop: tests, runs its body, runs its step, also after a `continue`, and
tests again. A `break` leaves it. There are at most `rounds` tests. -/
def loop (test : Vars → Except Stop Word) (body step : Vars → Option Exit) :
    (rounds : Nat) → Vars → Option Exit
  | 0, _ => Option.none
  | rounds + 1, σ =>
    choose (test σ)
      (match body σ with
        | some (.next σ) | some (.continued σ) =>
          match step σ with
          | some (.next σ) => loop test body step rounds σ
          | other => other
        | some (.broke σ) => some (.next σ)
        | other => other)
      (some (.next σ))

mutual

/-- Runs a statement. No loop in it makes more than `fuel` rounds. -/
def Stmt.exec (fuel : Nat) : Stmt → Vars → Option Exit
  | .declare _ Option.none, σ => some (.next σ)
  | .declare symbol (some init), σ => some (store symbol.id init σ)
  | .assign symbol value, σ => some (store symbol.id value σ)
  | .ifElse condition ifTrue Option.none, σ =>
    choose (condition.eval σ) (execAll fuel ifTrue σ) (some (.next σ))
  | .ifElse condition ifTrue (some ifFalse), σ =>
    choose (condition.eval σ) (execAll fuel ifTrue σ) (execAll fuel ifFalse σ)
  | .while_ condition body Option.none, σ =>
    loop (fun σ => condition.eval σ) (fun σ => execAll fuel body σ) (fun σ => some (.next σ)) fuel σ
  | .while_ condition body (some step), σ =>
    loop (fun σ => condition.eval σ) (fun σ => execAll fuel body σ) (fun σ => execAll fuel step σ)
      fuel σ
  | .break_, σ => some (.broke σ)
  | .continue_, σ => some (.continued σ)
  | .return_ value, σ =>
    match value.eval σ with
    | .ok w => some (.returned w)
    | .error e => some (.stopped e)
  | .block body, σ => execAll fuel body σ
  | .expr value, σ =>
    match value.eval σ with
    | .ok _ => some (.next σ)
    | .error e => some (.stopped e)

/-- Runs statements one after another, up to the first that control does not
leave to the next one. -/
def execAll (fuel : Nat) : List Stmt → Vars → Option Exit
  | [], σ => some (.next σ)
  | s :: rest, σ =>
    match s.exec fuel σ with
    | some (.next σ) => execAll fuel rest σ
    | other => other

end

/-- Runs the body of a function. -/
def Func.exec (f : Func) (fuel : Nat) : Option Exit := execAll fuel f.body Vars.none

/-- The exit that a result stands for. -/
def Exit.ofResult : Except DivisionFault Word → Exit
  | .ok w => .returned w
  | .error fault => .stopped (.division fault)

/-- A run of the function ends with the result, a word or a failed division. -/
def Func.Ends (f : Func) (r : Except DivisionFault Word) : Prop :=
  ∃ fuel, f.exec fuel = some (.ofResult r)

/-- The function runs forever. -/
def Func.Diverges (f : Func) : Prop := ∀ fuel, f.exec fuel = Option.none

/-! ### Steps of loops -/

/-- A statement that may stand in the step of a loop: an assignment or an
expression. -/
def Stmt.isStep : Stmt → Bool
  | .assign _ _ => true
  | .expr _ => true
  | _ => false

mutual

/-- Whether the steps of all loops in a statement hold only assignments and
expressions. -/
def Stmt.simpleSteps : Stmt → Bool
  | .ifElse _ ifTrue Option.none => simpleStepsAll ifTrue
  | .ifElse _ ifTrue (some ifFalse) => simpleStepsAll ifTrue && simpleStepsAll ifFalse
  | .while_ _ body Option.none => simpleStepsAll body
  | .while_ _ body (some step) => simpleStepsAll body && step.all Stmt.isStep
  | .block body => simpleStepsAll body
  | .declare _ _ => true
  | .assign _ _ => true
  | .break_ => true
  | .continue_ => true
  | .return_ _ => true
  | .expr _ => true

/-- Whether the steps of all loops in some statements hold only assignments and
expressions. -/
def simpleStepsAll : List Stmt → Bool
  | [] => true
  | s :: rest => s.simpleSteps && simpleStepsAll rest

end

/-- Whether the steps of all loops of a function hold only assignments and
expressions. -/
def Func.simpleSteps (f : Func) : Bool := simpleStepsAll f.body

theorem simpleStepsAll_of_isStep : ∀ step : List Stmt, step.all Stmt.isStep = true →
    simpleStepsAll step = true
  | [], _ => by rw [simpleStepsAll]
  | s :: rest, h => by
    rw [List.all_cons, Bool.and_eq_true] at h
    rw [simpleStepsAll, simpleStepsAll_of_isStep rest h.2, Bool.and_true]
    cases s with
    | assign | expr => rw [Stmt.simpleSteps]
    | declare | ifElse | while_ | break_ | continue_ | return_ | block => cases h.1

/-- Such a step goes on to the test, or stops. -/
theorem execAll_isStep (fuel : Nat) : ∀ (step : List Stmt) (σ : Vars), step.all Stmt.isStep = true →
    (∃ σ', execAll fuel step σ = some (.next σ')) ∨ ∃ e, execAll fuel step σ = some (.stopped e)
  | [], σ, _ => Or.inl ⟨σ, by rw [execAll]⟩
  | s :: rest, σ, h => by
    rw [List.all_cons, Bool.and_eq_true] at h
    obtain ⟨hs, hrest⟩ := h
    rw [execAll]
    cases s with
    | assign symbol value =>
      rw [Stmt.exec, store]
      cases value.eval σ with
      | error e => exact Or.inr ⟨e, rfl⟩
      | ok w => exact execAll_isStep fuel rest _ hrest
    | expr value =>
      rw [Stmt.exec]
      cases value.eval σ with
      | error e => exact Or.inr ⟨e, rfl⟩
      | ok w => exact execAll_isStep fuel rest _ hrest
    | declare | ifElse | while_ | break_ | continue_ | return_ | block => cases hs

/-! ### More fuel keeps an answer -/

theorem choose_mono {c : Except Stop Word} {t t' e e' : Option Exit} {r : Exit}
    (ht : t = some r → t' = some r) (he : e = some r → e' = some r)
    (h : choose c t e = some r) : choose c t' e' = some r := by
  unfold choose at h ⊢
  cases c with
  | error e => exact h
  | ok w =>
    by_cases hw : (w != 0) = true
    · simp only [hw, if_true] at h ⊢
      exact ht h
    · simp only [hw, Bool.false_eq_true, if_false] at h ⊢
      exact he h

theorem loop_mono {test : Vars → Except Stop Word} {body body' step step' : Vars → Option Exit}
    (hb : ∀ σ r, body σ = some r → body' σ = some r)
    (hs : ∀ σ r, step σ = some r → step' σ = some r) :
    ∀ (n m : Nat) (σ : Vars) (r : Exit), n ≤ m → loop test body step n σ = some r →
      loop test body' step' m σ = some r
  | 0, _, _, _, _, h => by simp [loop] at h
  | n + 1, 0, _, _, hm, _ => by omega
  | n + 1, m + 1, σ, r, hm, h => by
    -- the step is run, and the loop goes on, from the same variables
    have hafter : ∀ σ₁, (match step σ₁ with
          | some (.next σ₂) => loop test body step n σ₂
          | other => other) = some r →
        (match step' σ₁ with
          | some (.next σ₂) => loop test body' step' m σ₂
          | other => other) = some r := by
      intro σ₁ h₁
      cases hst : step σ₁ with
      | none => rw [hst] at h₁; cases h₁
      | some o =>
        rw [hst] at h₁
        rw [hs σ₁ o hst]
        cases o with
        | next σ₂ => exact loop_mono hb hs n m σ₂ r (by omega) h₁
        | broke | continued | returned | stopped => exact h₁
    rw [loop] at h ⊢
    refine choose_mono (fun ht => ?_) id h
    cases hbd : body σ with
    | none => rw [hbd] at ht; cases ht
    | some o =>
      rw [hbd] at ht
      rw [hb σ o hbd]
      cases o with
      | next σ₁ => exact hafter σ₁ ht
      | continued σ₁ => exact hafter σ₁ ht
      | broke | returned | stopped => exact ht

mutual

/-- An answer for a statement stays with more fuel. -/
theorem Stmt.exec_mono {n m : Nat} (hnm : n ≤ m) : ∀ (s : Stmt) (σ : Vars) (r : Exit),
    s.exec n σ = some r → s.exec m σ = some r
  | .declare _ Option.none, σ, r, h | .declare _ (some _), σ, r, h | .assign _ _, σ, r, h | .break_, σ, r, h
  | .continue_, σ, r, h | .return_ _, σ, r, h | .expr _, σ, r, h => by
    rw [Stmt.exec] at h ⊢
    exact h
  | .ifElse _ t Option.none, σ, r, h => by
    rw [Stmt.exec] at h ⊢
    exact choose_mono (execAll_mono hnm t σ r) id h
  | .ifElse _ t (some e), σ, r, h => by
    rw [Stmt.exec] at h ⊢
    exact choose_mono (execAll_mono hnm t σ r) (execAll_mono hnm e σ r) h
  | .while_ _ body Option.none, σ, r, h => by
    rw [Stmt.exec] at h ⊢
    exact loop_mono (fun σ r => execAll_mono hnm body σ r) (fun _ _ h => h) n m σ r hnm h
  | .while_ _ body (some step), σ, r, h => by
    rw [Stmt.exec] at h ⊢
    exact loop_mono (fun σ r => execAll_mono hnm body σ r)
      (fun σ r => execAll_mono hnm step σ r) n m σ r hnm h
  | .block body, σ, r, h => by
    rw [Stmt.exec] at h ⊢
    exact execAll_mono hnm body σ r h

/-- An answer for statements stays with more fuel. -/
theorem execAll_mono {n m : Nat} (hnm : n ≤ m) : ∀ (l : List Stmt) (σ : Vars) (r : Exit),
    execAll n l σ = some r → execAll m l σ = some r
  | [], σ, r, h => by rw [execAll] at h ⊢; exact h
  | s :: rest, σ, r, h => by
    rw [execAll] at h ⊢
    cases hs : s.exec n σ with
    | none => rw [hs] at h; cases h
    | some o =>
      rw [hs] at h
      rw [Stmt.exec_mono hnm s σ o hs]
      cases o with
      | next σ₁ => exact execAll_mono hnm rest σ₁ r h
      | broke | continued | returned | stopped => exact h

end

/-- A function has one answer, whatever fuel it is found with. -/
theorem Func.exec_unique {f : Func} {n m : Nat} {r r' : Exit} (h : f.exec n = some r)
    (h' : f.exec m = some r') : r = r' := by
  have h₁ := execAll_mono (le_max_left n m) f.body Vars.none r h
  have h₂ := execAll_mono (le_max_right n m) f.body Vars.none r' h'
  rw [h₁] at h₂
  exact Option.some.inj h₂

end Chordal.Typed
