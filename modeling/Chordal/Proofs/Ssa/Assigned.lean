/-
# What statements assign

A loop's head has a phi for each variable that the loop may assign. The other
variables are the same in every round, because running statements changes none
but the variables they assign.

Key definitions: `Frames`.
Key theorems: `execAll_frames`, `Typed.loop_succ`.
-/
import Mathlib
import Chordal.Proofs.Finite
import Chordal.Proofs.Typed.Meaning
import Chordal.Ssa.Construction

namespace Chordal.Typed

/-- The variables where statements are left, if the run goes on. -/
def Exit.vars? : Exit → Option Vars
  | .next σ => some σ
  | .broke σ => some σ
  | .continued σ => some σ
  | .returned _ => Option.none
  | .stopped _ => Option.none

/-- One round of a loop: its body, and its step unless the body leaves the loop. -/
def round (body step : Vars → Option Exit) (σ : Vars) : Option Exit :=
  match body σ with
  | some (.next σ) => step σ
  | some (.continued σ) => step σ
  | other => other

/-- What follows a round of a loop that has `rounds` more tests. -/
def afterRound (test : Vars → Except Stop Word) (body step : Vars → Option Exit) (rounds : Nat) :
    Option Exit → Option Exit
  | some (.next σ) => loop test body step rounds σ
  | some (.broke σ) => some (.next σ)
  | other => other

/-- A loop makes round after round, if its step can only go on or stop. -/
theorem loop_succ {test : Vars → Except Stop Word} {body step : Vars → Option Exit}
    (hstep : ∀ σ, (∃ σ', step σ = some (.next σ')) ∨ ∃ e, step σ = some (.stopped e))
    {n rounds : Nat} (hn : n = rounds + 1) (σ : Vars) : loop test body step n σ =
      choose (test σ) (afterRound test body step rounds (round body step σ)) (some (.next σ)) := by
  subst hn
  rw [loop]
  congr 1
  unfold round
  cases body σ with
  | none => rfl
  | some exit =>
    cases exit with
    | next σ' | continued σ' =>
      rcases hstep σ' with ⟨σ'', h⟩ | ⟨e, h⟩
      · simp only [h, afterRound]
      · simp only [h, afterRound]
    | broke | returned | stopped => rfl

end Chordal.Typed

namespace Chordal.Ssa

open Typed (Vars Stop Exit Expr Stmt)

/-- Only the given variables may differ where the statements are left. -/
def Frames (symbols : IdSet) (σ : Vars) (r : Option Exit) : Prop :=
  ∀ e σ', r = some e → e.vars? = some σ' → ∀ j, j ∉ symbols → σ' j = σ j

section Frames

variable {symbols symbols' : IdSet} {σ : Vars} {r : Option Exit}

theorem Frames.mono (h : Frames symbols σ r) (hsub : ∀ j, j ∈ symbols → j ∈ symbols') :
    Frames symbols' σ r :=
  fun e σ' hr he j hj => h e σ' hr he j fun hj' => hj (hsub j hj')

theorem frames_next (symbols : IdSet) (σ : Vars) : Frames symbols σ (some (.next σ)) := by
  rintro e σ' h he j -
  cases h
  cases he
  rfl

theorem frames_stopped (symbols : IdSet) (σ : Vars) (cause : Stop) :
    Frames symbols σ (some (.stopped cause)) := by
  rintro e σ' h he
  cases h
  cases he

theorem frames_store (symbol : Nat) (value : Expr) (σ : Vars) :
    Frames [symbol] σ (some (Typed.store symbol value σ)) := by
  unfold Typed.store
  cases value.eval σ with
  | error e => exact frames_stopped _ _ e
  | ok w =>
    rintro e σ' h he j hj
    cases h
    cases he
    rw [List.mem_singleton] at hj
    unfold Vars.set
    rw [if_neg hj]

theorem frames_choose {c : Except Stop Word} {t e : Option Exit} (ht : Frames symbols σ t)
    (he : Frames symbols σ e) : Frames symbols σ (Typed.choose c t e) := by
  unfold Typed.choose
  cases c with
  | error cause => exact frames_stopped _ _ cause
  | ok w =>
    simp only
    split_ifs
    · exact ht
    · exact he

/-- What is left from other variables that differ in the same way. -/
theorem Frames.trans {σ₁ : Vars} (h : ∀ j, j ∉ symbols → σ₁ j = σ j) (h' : Frames symbols σ₁ r) :
    Frames symbols σ r :=
  fun e σ' hr he j hj => (h' e σ' hr he j hj).trans (h j hj)

theorem frames_loop {test : Vars → Except Stop Word} {body step : Vars → Option Exit}
    (hb : ∀ σ, Frames symbols σ (body σ)) (hs : ∀ σ, Frames symbols σ (step σ)) :
    ∀ (n : Nat) (σ : Vars), Frames symbols σ (Typed.loop test body step n σ)
  | 0, σ => by
    rintro e σ' h
    cases h
  | n + 1, σ => by
    rw [Typed.loop]
    refine frames_choose ?_ (frames_next _ σ)
    have hbody := hb σ
    cases hbd : body σ with
    | none => rwa [hbd] at hbody
    | some exit =>
      cases exit with
      | next σ₁ | continued σ₁ =>
        -- the step, and the rounds that follow it
        refine .trans (hbody _ σ₁ hbd rfl) ?_
        have hstep := hs σ₁
        dsimp only
        cases hst : step σ₁ with
        | none => rwa [hst] at hstep
        | some exit =>
          cases exit with
          | next σ₂ => exact .trans (hstep _ σ₂ hst rfl) (frames_loop hb hs n σ₂)
          | broke | continued | returned | stopped => rwa [hst] at hstep
      | broke σ₁ => exact .trans (hbody _ σ₁ hbd rfl) (frames_next _ σ₁)
      | returned | stopped => rwa [hbd] at hbody

theorem frames_round {body step : Vars → Option Exit} (hb : ∀ σ, Frames symbols σ (body σ))
    (hs : ∀ σ, Frames symbols σ (step σ)) (σ : Vars) : Frames symbols σ (Typed.round body step σ) := by
  unfold Typed.round
  have hbody := hb σ
  match hbd : body σ with
  | some (.next σ₁) => exact .trans (hbody _ σ₁ hbd rfl) (hs σ₁)
  | some (.continued σ₁) => exact .trans (hbody _ σ₁ hbd rfl) (hs σ₁)
  | none | some (.broke _) | some (.returned _) | some (.stopped _) => rwa [hbd] at hbody

end Frames

mutual

/-- A statement changes only variables that it assigns. -/
theorem exec_frames (fuel : Nat) : ∀ (s : Stmt) (σ : Vars), Frames (assignedBy s) σ (s.exec fuel σ)
  | .declare _ none, σ => by rw [Stmt.exec]; exact frames_next _ σ
  | .declare symbol (some init), σ => by
    rw [Stmt.exec, assignedBy]
    exact frames_store symbol.id init σ
  | .assign symbol value, σ => by
    rw [Stmt.exec, assignedBy]
    exact frames_store symbol.id value σ
  | .ifElse _ ifTrue none, σ => by
    rw [Stmt.exec, assignedBy]
    exact frames_choose (execAll_frames fuel ifTrue σ) (frames_next _ σ)
  | .ifElse _ ifTrue (some ifFalse), σ => by
    rw [Stmt.exec, assignedBy]
    exact frames_choose
      ((execAll_frames fuel ifTrue σ).mono IdSet.subset_union_left)
      ((execAll_frames fuel ifFalse σ).mono IdSet.subset_union_right)
  | .while_ _ body none, σ => by
    rw [Stmt.exec, assignedBy]
    exact frames_loop (execAll_frames fuel body) (fun σ => frames_next _ σ) fuel σ
  | .while_ _ body (some step), σ => by
    rw [Stmt.exec, assignedBy]
    exact frames_loop
      (fun σ => (execAll_frames fuel body σ).mono IdSet.subset_union_left)
      (fun σ => (execAll_frames fuel step σ).mono IdSet.subset_union_right) fuel σ
  | .break_, σ | .continue_, σ => by
    rw [Stmt.exec]
    rintro e σ' h he j -
    cases h
    cases he
    rfl
  | .return_ value, σ => by
    rw [Stmt.exec]
    cases value.eval σ with
    | error e => exact frames_stopped _ _ e
    | ok w =>
      rintro e σ' h he
      cases h
      cases he
  | .block body, σ => by
    rw [Stmt.exec, assignedBy]
    exact execAll_frames fuel body σ
  | .expr value, σ => by
    rw [Stmt.exec]
    cases value.eval σ with
    | error e => exact frames_stopped _ _ e
    | ok w => exact frames_next _ σ

/-- Statements change only variables that they assign. -/
theorem execAll_frames (fuel : Nat) : ∀ (l : List Stmt) (σ : Vars),
    Frames (assigned l) σ (Typed.execAll fuel l σ)
  | [], σ => by rw [Typed.execAll]; exact frames_next _ σ
  | s :: rest, σ => by
    rw [Typed.execAll, assigned]
    have hs : Frames (IdSet.union (assignedBy s) (assigned rest)) σ (s.exec fuel σ) :=
      (exec_frames fuel s σ).mono IdSet.subset_union_left
    match hst : s.exec fuel σ with
    | some (.next σ₁) =>
      exact .trans (hs _ σ₁ hst rfl)
        ((execAll_frames fuel rest σ₁).mono IdSet.subset_union_right)
    | none | some (.broke _) | some (.continued _) | some (.returned _) | some (.stopped _) =>
      rwa [hst] at hs

end

end Chordal.Ssa
