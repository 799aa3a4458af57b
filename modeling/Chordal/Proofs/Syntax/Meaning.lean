/-
# What syntax trees mean

A function as it is written runs by recursion on its syntax tree. The variables
that can be named at a point are a list, the latest declaration first, and a name
stands for the first variable of that name in it. A declaration begins a variable,
without a content if it has no initial value. Where a scope ends, the variables
that were declared in it are gone: what is left are the oldest ones, as many as
there were where it began. A block is a scope, and so is each statement that stands
in an `if` or a loop. A `for` loop is a scope of its own, so that what its head
declares is visible in its condition, its step and its body.

An assignment with an operator and a count read their variable, compute and write
it back. A `continue` in a `for` loop runs the step before the next test.

As for typed trees, no loop makes more rounds than `fuel`, and a function diverges
if there is no answer with any fuel. Reading a variable without content and naming
one that is not there are stops of their own.

Key definitions: `Env`, `Expr.eval`, `Simple.exec`, `Stmt.exec`, `Func.Ends`, `Func.Diverges`.
-/
import Mathlib
import Chordal.Syntax

namespace Chordal.Syntax

/-- The variables that can be named, the latest first, with their contents. -/
abbrev Env := List (String × Option Word)

/-- Why a run has no result. -/
inductive Stop where
  | division (fault : DivisionFault)
  | unassigned (name : String)
  | undeclared (name : String)
deriving DecidableEq, Repr

namespace Env

/-- The content of the variable that a name stands for. -/
def read (ρ : Env) (name : String) : Except Stop Word :=
  match ρ.lookup name with
  | some (some w) => .ok w
  | some none => .error (.unassigned name)
  | none => .error (.undeclared name)

/-- Gives a content to the variable that a name stands for. -/
def write (name : String) (w : Word) : Env → Except Stop Env
  | [] => .error (.undeclared name)
  | (x, content) :: ρ =>
    if x = name then .ok ((x, some w) :: ρ)
    else do
      let ρ ← write name w ρ
      return (x, content) :: ρ

/-- The oldest `n` variables. -/
def oldest (n : Nat) (ρ : Env) : Env := ρ.drop (ρ.length - n)

end Env

/-- The result of an operator. -/
def runBinary (op : BinaryOp) (l r : Word) : Except Stop Word := (op.apply l r).mapError .division

/-- The value of an expression. -/
def Expr.eval (ρ : Env) : Expr → Except Stop Word
  | .int _ value => .ok value
  | .bool _ value => .ok (Word.ofBool value)
  | .var _ name => ρ.read name
  | .unary _ op operand => do
    let w ← operand.eval ρ
    return op.apply w
  | .binary _ op left right => do
    let l ← left.eval ρ
    let r ← right.eval ρ
    runBinary op l r
  | .ternary _ condition ifTrue ifFalse => do
    let c ← condition.eval ρ
    if c != 0 then ifTrue.eval ρ else ifFalse.eval ρ

/-- Runs a simple statement. -/
def Simple.exec (ρ : Env) : Simple → Except Stop Env
  | .declare _ _ name none => .ok ((name, none) :: ρ)
  | .declare _ _ name (some init) => do
    let w ← init.eval ρ
    return (name, some w) :: ρ
  | .assign _ name none value => do
    let w ← value.eval ρ
    ρ.write name w
  | .assign _ name (some op) value => do
    let r ← value.eval ρ
    let l ← ρ.read name
    let w ← runBinary op l r
    ρ.write name w
  | .count _ name .up => do
    let w ← ρ.read name
    ρ.write name (w + 1)
  | .count _ name .down => do
    let w ← ρ.read name
    ρ.write name (w - 1)
  | .expr _ value => do
    let _ ← value.eval ρ
    return ρ

/-- Runs a part of a loop's head, if it is there. -/
def execOptional (ρ : Env) : Option Simple → Except Stop Env
  | none => .ok ρ
  | some s => s.exec ρ

/-- How control leaves a statement, with the variables that can be named then. -/
inductive Exit where
  | next (ρ : Env)
  | broke (ρ : Env)
  | continued (ρ : Env)
  | returned (w : Word)
  | stopped (cause : Stop)

namespace Exit

/-- Goes on to the next statement, unless there was a stop. -/
def after : Except Stop Env → Exit
  | .ok ρ => .next ρ
  | .error e => .stopped e

/-- The end of a scope that began with `n` variables, whichever way control leaves
it. -/
def endScope (n : Nat) : Exit → Exit
  | .next ρ => .next (ρ.oldest n)
  | .broke ρ => .broke (ρ.oldest n)
  | .continued ρ => .continued (ρ.oldest n)
  | .returned w => .returned w
  | .stopped e => .stopped e

end Exit

/-- A run of a scope that begins with the variables of `ρ`. -/
def inScope (ρ : Env) (run : Env → Option Exit) : Option Exit := (run ρ).map (Exit.endScope ρ.length)

/-- Goes one of two ways by the value of a condition. -/
def choose (condition : Except Stop Word) (ifTrue ifFalse : Option Exit) : Option Exit :=
  match condition with
  | .error e => some (.stopped e)
  | .ok c => if c != 0 then ifTrue else ifFalse

/-- A loop: tests, runs its body, runs its step, also after a `continue`, and
tests again. A `break` leaves it. There are at most `rounds` tests. -/
def loop (test : Env → Except Stop Word) (body : Env → Option Exit) (step : Env → Except Stop Env) :
    (rounds : Nat) → Env → Option Exit
  | 0, _ => none
  | rounds + 1, ρ =>
    choose (test ρ)
      (match body ρ with
        | some (.next ρ) | some (.continued ρ) =>
          match step ρ with
          | .ok ρ => loop test body step rounds ρ
          | .error e => some (.stopped e)
        | some (.broke ρ) => some (.next ρ)
        | other => other)
      (some (.next ρ))

mutual

/-- Runs a statement. No loop in it makes more than `fuel` rounds. -/
def Stmt.exec (fuel : Nat) : Stmt → Env → Option Exit
  | .simple s, ρ => some (.after (s.exec ρ))
  | .block _ body, ρ => inScope ρ fun ρ => execAll fuel body ρ
  | .ifElse _ condition ifTrue none, ρ =>
    choose (condition.eval ρ) (inScope ρ fun ρ => ifTrue.exec fuel ρ) (some (.next ρ))
  | .ifElse _ condition ifTrue (some ifFalse), ρ =>
    choose (condition.eval ρ) (inScope ρ fun ρ => ifTrue.exec fuel ρ) (inScope ρ fun ρ => ifFalse.exec fuel ρ)
  | .while_ _ condition body, ρ =>
    loop (fun ρ => condition.eval ρ) (fun ρ => inScope ρ fun ρ => body.exec fuel ρ) .ok fuel ρ
  | .for_ _ init condition step body, ρ =>
    inScope ρ fun ρ =>
      match execOptional ρ init with
      | .error e => some (.stopped e)
      | .ok ρ =>
        -- a declaration in the step is of no use: its scope ends with the step
        loop (fun ρ => condition.eval ρ) (fun ρ => inScope ρ fun ρ => body.exec fuel ρ)
          (fun ρ => (execOptional ρ step).map (Env.oldest ρ.length)) fuel ρ
  | .break_ _, ρ => some (.broke ρ)
  | .continue_ _, ρ => some (.continued ρ)
  | .return_ _ value, ρ =>
    match value.eval ρ with
    | .ok w => some (.returned w)
    | .error e => some (.stopped e)

/-- Runs statements one after another, up to the first that control does not
leave to the next one. -/
def execAll (fuel : Nat) : List Stmt → Env → Option Exit
  | [], ρ => some (.next ρ)
  | s :: rest, ρ =>
    match s.exec fuel ρ with
    | some (.next ρ) => execAll fuel rest ρ
    | other => other

end

/-- Runs the body of a function. -/
def Func.exec (f : Func) (fuel : Nat) : Option Exit := execAll fuel f.body []

/-- The exit that a result stands for. -/
def Exit.ofResult : Except DivisionFault Word → Exit
  | .ok w => .returned w
  | .error fault => .stopped (.division fault)

theorem Exit.ofResult_inj {r r' : Except DivisionFault Word} : Exit.ofResult r = .ofResult r' ↔ r = r' := by
  refine ⟨fun h => ?_, fun h => h ▸ rfl⟩
  cases r <;> cases r' <;> cases h <;> rfl

/-- A run of the function ends with the result, a word or a failed division. -/
def Func.Ends (f : Func) (r : Except DivisionFault Word) : Prop := ∃ fuel, f.exec fuel = some (.ofResult r)

/-- The function runs forever. -/
def Func.Diverges (f : Func) : Prop := ∀ fuel, f.exec fuel = none

/-! ### Ends of scopes -/

namespace Env

theorem oldest_oldest {m n : Nat} (h : m ≤ n) (ρ : Env) : (ρ.oldest n).oldest m = ρ.oldest m := by
  unfold oldest
  rw [List.drop_drop, List.length_drop]
  congr 1
  omega

end Env

end Chordal.Syntax
