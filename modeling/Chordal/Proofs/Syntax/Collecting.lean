/-
# Executions from a set of states

What the executions of a task do when they begin in any state of a set: whether
one faults, in which states they go on, and in which states they come to a
`continue`. For each statement, this is said by what its parts do, and the turns
of a loop are taken together: the states at all tests of its condition are one
set.

Key definitions: `FaultsIn`, `Fails`, `nexts`, `conts`, `heads`.
Key theorems: `Splits.nexts`, `fails_loop_iff`, `nexts_cons`.
-/
import Mathlib
import Chordal.Proofs.Syntax.Executions

namespace Chordal.Syntax

variable {P : Set State}

/-! ### Reading -/

/-- Something read from a state of the set is not assigned. -/
def FaultsIn (reads : List String → Prop) (P : Set State) : Prop := ∃ S ∈ P, ∃ x, Faults reads S x

theorem faultsIn_iff {reads : List String → Prop} :
    FaultsIn reads P ↔ ∃ S ∈ P, ∃ xs, reads xs ∧ ∃ x ∈ xs, x ∉ S := by
  unfold FaultsIn Faults
  constructor
  · rintro ⟨S, hS, x, xs, hxs, hx, hnot⟩
    exact ⟨S, hS, xs, hxs, x, hx, hnot⟩
  · rintro ⟨S, hS, xs, hxs, x, hx, hnot⟩
    exact ⟨S, hS, x, xs, hxs, hx, hnot⟩

/-- What faults if one of two things read one after another does. -/
theorem faultsIn_append {r r₁ r₂ : List String → Prop} (h₁ : ∃ xs, r₁ xs) (h₂ : ∃ ys, r₂ ys)
    (h : ∀ zs, r zs ↔ ∃ xs ys, r₁ xs ∧ r₂ ys ∧ zs = xs ++ ys) : FaultsIn r P ↔ FaultsIn r₁ P ∨ FaultsIn r₂ P := by
  simp only [faultsIn_iff]
  constructor
  · rintro ⟨S, hS, zs, hzs, x, hx, hnot⟩
    obtain ⟨xs, ys, hxs, hys, rfl⟩ := (h zs).mp hzs
    rcases List.mem_append.mp hx with hx | hx
    · exact Or.inl ⟨S, hS, xs, hxs, x, hx, hnot⟩
    · exact Or.inr ⟨S, hS, ys, hys, x, hx, hnot⟩
  · rintro (⟨S, hS, xs, hxs, x, hx, hnot⟩ | ⟨S, hS, ys, hys, x, hx, hnot⟩)
    · obtain ⟨ys, hys⟩ := h₂
      exact ⟨S, hS, xs ++ ys, (h _).mpr ⟨xs, ys, hxs, hys, rfl⟩, x, List.mem_append_left _ hx, hnot⟩
    · obtain ⟨xs, hxs⟩ := h₁
      exact ⟨S, hS, xs ++ ys, (h _).mpr ⟨xs, ys, hxs, hys, rfl⟩, x, List.mem_append_right _ hx, hnot⟩

/-- What reads nothing does not fault. -/
theorem not_faultsIn_nil {r : List String → Prop} (h : ∀ xs, r xs → xs = []) : ¬ FaultsIn r P := by
  rintro ⟨S, -, x, xs, hxs, hx, -⟩
  rw [h xs hxs] at hx
  cases hx

theorem faultsIn_var {p : Span} {name : String} :
    FaultsIn (Expr.var p name).Reads P ↔ ∃ S ∈ P, name ∉ S := by
  rw [faultsIn_iff]
  constructor
  · rintro ⟨S, hS, xs, hxs, x, hx, hnot⟩
    cases hxs
    obtain rfl := List.mem_singleton.mp hx
    exact ⟨S, hS, hnot⟩
  · rintro ⟨S, hS, hnot⟩
    exact ⟨S, hS, [name], .var, name, List.mem_singleton_self name, hnot⟩

theorem faultsIn_binary {p : Span} {op : BinaryOp} {left right : Expr} :
    FaultsIn (Expr.binary p op left right).Reads P ↔ FaultsIn left.Reads P ∨ FaultsIn right.Reads P := by
  refine faultsIn_append left.exists_reads right.exists_reads fun zs => ⟨fun h => ?_, ?_⟩
  · cases h with
    | binary hl hr => exact ⟨_, _, hl, hr, rfl⟩
  · rintro ⟨xs, ys, hl, hr, rfl⟩
    exact .binary hl hr

/-- The condition of a conditional goes both ways. -/
theorem faultsIn_ternary {p : Span} {c t e : Expr} : FaultsIn (Expr.ternary p c t e).Reads P ↔
    FaultsIn c.Reads P ∨ FaultsIn t.Reads P ∨ FaultsIn e.Reads P := by
  have harms : FaultsIn (fun ys => t.Reads ys ∨ e.Reads ys) P ↔ FaultsIn t.Reads P ∨ FaultsIn e.Reads P := by
    simp only [faultsIn_iff, or_and_right, exists_or, and_or_left]
  rw [← harms]
  have hex : ∃ ys, t.Reads ys ∨ e.Reads ys := t.exists_reads.imp fun _ h => Or.inl h
  refine faultsIn_append c.exists_reads hex fun zs => ⟨fun h => ?_, ?_⟩
  · cases h with
    | ifTrue hc ht => exact ⟨_, _, hc, Or.inl ht, rfl⟩
    | ifFalse hc he => exact ⟨_, _, hc, Or.inr he, rfl⟩
  · rintro ⟨xs, ys, hc, ht | he, rfl⟩
    · exact .ifTrue hc ht
    · exact .ifFalse hc he

theorem faultsIn_congr {r r' : List String → Prop} (h : ∀ xs, r xs ↔ r' xs) : FaultsIn r P ↔ FaultsIn r' P := by
  rw [funext fun xs => propext (h xs)]

theorem passes_of_not_faultsIn {reads : List String → Prop} (hex : ∃ xs, reads xs) (h : ¬ FaultsIn reads P) {S : State}
    (hS : S ∈ P) : Passes reads S :=
  passes_of_not_faults hex fun x hx => h ⟨S, hS, x, hx⟩

/-! ### What executions do from a set of states -/

/-- Some execution from the set faults. -/
def Fails (runs : State → Outcome → Prop) (P : Set State) : Prop := ∃ S ∈ P, ∃ x, runs S (.faulted x)

/-- The states in which executions from the set go on to what follows. -/
def nexts (runs : State → Outcome → Prop) (P : Set State) : Set State := {S' | ∃ S ∈ P, runs S (.next S')}

/-- The states in which executions from the set come to a `continue`. -/
def conts (runs : State → Outcome → Prop) (P : Set State) : Set State := {S' | ∃ S ∈ P, runs S (.continued S')}

section Sets

variable {R R₁ R₂ : State → Outcome → Prop}

/-- From the set, what `R` does is what `R₁` and `R₂` do. -/
def Splits (P : Set State) (R R₁ R₂ : State → Outcome → Prop) : Prop := ∀ S ∈ P, ∀ o, R S o ↔ R₁ S o ∨ R₂ S o

theorem Splits.fails (h : Splits P R R₁ R₂) : Fails R P ↔ Fails R₁ P ∨ Fails R₂ P := by
  unfold Fails
  rw [← exists_or]
  refine exists_congr fun S => ?_
  rw [← and_or_left, ← exists_or]
  exact and_congr_right fun hS => exists_congr fun x => h S hS _

theorem Splits.exists_mem (h : Splits P R R₁ R₂) (o : Outcome) :
    (∃ S ∈ P, R S o) ↔ (∃ S ∈ P, R₁ S o) ∨ ∃ S ∈ P, R₂ S o := by
  rw [← exists_or]
  refine exists_congr fun S => ?_
  rw [← and_or_left]
  exact and_congr_right fun hS => h S hS o

theorem Splits.nexts (h : Splits P R R₁ R₂) : nexts R P = nexts R₁ P ∪ nexts R₂ P :=
  Set.ext fun S' => h.exists_mem (.next S')

theorem Splits.conts (h : Splits P R R₁ R₂) : conts R P = conts R₁ P ∪ conts R₂ P :=
  Set.ext fun S' => h.exists_mem (.continued S')

/-- From the set, `R` does what `R'` does when the states are changed by `f`. -/
def Follows (P : Set State) (f : State → State) (R R' : State → Outcome → Prop) : Prop :=
  ∀ S ∈ P, ∀ o, R S o ↔ R' (f S) o

section

variable {f : State → State} (h : Follows P f R R₁)

include h

theorem Follows.fails : Fails R P ↔ Fails R₁ (f '' P) := by
  unfold Fails
  rw [Set.exists_mem_image]
  exact exists_congr fun S => and_congr_right fun hS => exists_congr fun x => h S hS _

theorem Follows.exists_mem (o : Outcome) : (∃ S ∈ P, R S o) ↔ ∃ S ∈ f '' P, R₁ S o := by
  rw [Set.exists_mem_image]
  exact exists_congr fun S => and_congr_right fun hS => h S hS o

theorem Follows.nexts : nexts R P = nexts R₁ (f '' P) :=
  Set.ext fun S' => h.exists_mem (.next S')

theorem Follows.conts : conts R P = conts R₁ (f '' P) :=
  Set.ext fun S' => h.exists_mem (.continued S')

end

theorem nexts_eq_empty (h : ∀ {S S'}, ¬ R S (.next S')) : nexts R P = ∅ :=
  Set.eq_empty_iff_forall_notMem.mpr fun _ ⟨_, _, hrun⟩ => h hrun

theorem conts_eq_empty (h : ∀ {S S'}, ¬ R S (.continued S')) : conts R P = ∅ :=
  Set.eq_empty_iff_forall_notMem.mpr fun _ ⟨_, _, hrun⟩ => h hrun

/-- An execution that goes on at once. -/
def Skips (S : State) (o : Outcome) : Prop := o = .next S

theorem not_fails_skips : ¬ Fails Skips P := by
  rintro ⟨S, -, x, hx⟩
  cases hx

theorem nexts_skips : nexts Skips P = P := by
  ext S'
  constructor
  · rintro ⟨S, hS, heq⟩
    exact Outcome.next.inj heq ▸ hS
  · exact fun hS' => ⟨S', hS', rfl⟩

theorem conts_skips : conts Skips P = ∅ := conts_eq_empty fun heq => by cases heq

end Sets

/-! ### Single statements -/

theorem runs_simple_iff {s : Simple} {S : State} {o : Outcome} : Runs (.stmt (.simple s)) S o ↔
    Passes s.Reads S ∧ o = .next (s.after S) ∨ ∃ x, Faults s.Reads S x ∧ o = .faulted x := by
  constructor
  · intro h
    cases h with
    | simple hp => exact Or.inl ⟨hp, rfl⟩
    | simpleFault hf => exact Or.inr ⟨_, hf, rfl⟩
  · rintro (⟨hp, rfl⟩ | ⟨x, hf, rfl⟩)
    · exact .simple hp
    · exact .simpleFault hf

theorem runs_block (p : Span) (body : List Stmt) : Runs (.stmt (.block p body)) = Runs (.all body) := by
  funext S o
  refine propext ⟨fun h => ?_, .block⟩
  cases h with
  | block h => exact h

theorem runs_if_iff {p : Span} {c : Expr} {t : Stmt} {S : State} {o : Outcome} :
    Runs (.stmt (.ifElse p c t none)) S o ↔
      (∃ x, Faults c.Reads S x ∧ o = .faulted x) ∨ Passes c.Reads S ∧ (Runs (.stmt t) S o ∨ Skips S o) := by
  constructor
  · intro h
    cases h with
    | ifFault hf => exact Or.inl ⟨_, hf, rfl⟩
    | ifTrue hp ht => exact Or.inr ⟨hp, Or.inl ht⟩
    | ifSkip hp => exact Or.inr ⟨hp, Or.inr rfl⟩
  · rintro (⟨x, hf, rfl⟩ | ⟨hp, ht | rfl⟩)
    · exact .ifFault hf
    · exact .ifTrue hp ht
    · exact .ifSkip hp

theorem runs_ifElse_iff {p : Span} {c : Expr} {t e : Stmt} {S : State} {o : Outcome} :
    Runs (.stmt (.ifElse p c t (some e))) S o ↔
      (∃ x, Faults c.Reads S x ∧ o = .faulted x) ∨ Passes c.Reads S ∧ (Runs (.stmt t) S o ∨ Runs (.stmt e) S o) := by
  constructor
  · intro h
    cases h with
    | ifFault hf => exact Or.inl ⟨_, hf, rfl⟩
    | ifTrue hp ht => exact Or.inr ⟨hp, Or.inl ht⟩
    | ifFalse hp he => exact Or.inr ⟨hp, Or.inr he⟩
  · rintro (⟨x, hf, rfl⟩ | ⟨hp, ht | he⟩)
    · exact .ifFault hf
    · exact .ifTrue hp ht
    · exact .ifFalse hp he

/-- A condition that does not fault leaves the choice between two ways. -/
theorem splits_of_not_faultsIn {c : Expr} {R R₁ R₂ : State → Outcome → Prop}
    (h : ∀ {S o}, R S o ↔ (∃ x, Faults c.Reads S x ∧ o = .faulted x) ∨ Passes c.Reads S ∧ (R₁ S o ∨ R₂ S o))
    (hnot : ¬ FaultsIn c.Reads P) : Splits P R R₁ R₂ := by
  intro S hS o
  have hp : Passes c.Reads S := passes_of_not_faultsIn c.exists_reads hnot hS
  have hf : ¬ ∃ x, Faults c.Reads S x ∧ o = .faulted x := fun ⟨x, hx, _⟩ => hnot ⟨S, hS, x, hx⟩
  rw [h, or_iff_right hf, and_iff_right hp]

/-! ### Loops -/

section Loops

variable {c : Expr} {step : Option Simple} {body : Stmt}

/-- The states at the tests of a loop's condition. -/
def heads (c : Expr) (step : Option Simple) (body : Stmt) (P : Set State) : Set State :=
  {S' | ∃ S ∈ P, Relation.ReflTransGen (Turn c step body) S S'}

/-- The states in which the body of a loop ends. -/
def bodyEnds (body : Stmt) (H : Set State) : Set State := nexts (Runs (.stmt body)) H ∪ conts (Runs (.stmt body)) H

theorem mem_bodyEnds {H : Set State} {S' : State} :
    S' ∈ bodyEnds body H ↔ ∃ S ∈ H, ∃ o, Runs (.stmt body) S o ∧ o.again? = some S' := by
  constructor
  · rintro (⟨S, hS, hrun⟩ | ⟨S, hS, hrun⟩)
    · exact ⟨S, hS, _, hrun, rfl⟩
    · exact ⟨S, hS, _, hrun, rfl⟩
  · rintro ⟨S, hS, o, hrun, ho⟩
    match o, ho with
    | .next _, rfl => exact Or.inl ⟨S, hS, hrun⟩
    | .continued _, rfl => exact Or.inr ⟨S, hS, hrun⟩

theorem subset_heads : P ⊆ heads c step body P := fun S hS => ⟨S, hS, .refl⟩

/-- A loop faults if its condition, its body or its step does in some turn. -/
theorem fails_loop_iff (hc : ¬ FaultsIn c.Reads (heads c step body P)) : Fails (Runs (.loop c step body)) P ↔
    Fails (Runs (.stmt body)) (heads c step body P) ∨
      FaultsIn (ReadsOf step) (bodyEnds body (heads c step body P)) := by
  have hp : ∀ {S}, S ∈ heads c step body P → Passes c.Reads S := passes_of_not_faultsIn c.exists_reads hc
  constructor
  · rintro ⟨S, hS, x, hrun⟩
    obtain ⟨S', hturns, hlast⟩ := (runs_loop_iff c step body).mp hrun
    have hS' : S' ∈ heads c step body P := ⟨S, hS, hturns⟩
    cases hlast with
    | testFault hf => exact absurd ⟨S', hS', x, hf⟩ hc
    | stepFault _ hbody hagain hf => exact Or.inr ⟨_, mem_bodyEnds.mpr ⟨S', hS', _, hbody, hagain⟩, x, hf⟩
    | stopped _ hbody _ => exact Or.inl ⟨S', hS', x, hbody⟩
  · rintro (⟨S', hS', x, hbody⟩ | ⟨S₁, hS₁, x, hf⟩)
    · obtain ⟨S, hS, hturns⟩ := hS'
      exact ⟨S, hS, x, (runs_loop_iff c step body).mpr ⟨S', hturns, .stopped (hp ⟨S, hS, hturns⟩) hbody rfl⟩⟩
    · obtain ⟨S', ⟨S, hS, hturns⟩, o, hbody, hagain⟩ := mem_bodyEnds.mp hS₁
      exact ⟨S, hS, x, (runs_loop_iff c step body).mpr
        ⟨S', hturns, .stepFault (hp ⟨S, hS, hturns⟩) hbody hagain hf⟩⟩

theorem fails_loop_of_test (hc : FaultsIn c.Reads (heads c step body P)) : Fails (Runs (.loop c step body)) P := by
  obtain ⟨S', ⟨S, hS, hturns⟩, x, hf⟩ := hc
  exact ⟨S, hS, x, (runs_loop_iff c step body).mpr ⟨S', hturns, .testFault hf⟩⟩

theorem conts_loop : conts (Runs (.loop c step body)) P = ∅ := by
  refine conts_eq_empty fun hrun => ?_
  obtain ⟨S₁, -, hlast⟩ := (runs_loop_iff c step body).mp hrun
  cases hlast with
  | stopped _ _ hnone => cases hnone

theorem runs_while (p : Span) (c : Expr) (body : Stmt) :
    Runs (.stmt (.while_ p c body)) = Runs (.loop c none body) := by
  funext S o
  refine propext ⟨fun h => ?_, .while_⟩
  cases h with
  | while_ h => exact h

theorem exists_readsOf : ∀ s : Option Simple, ∃ xs, ReadsOf s xs
  | none => ⟨[], rfl⟩
  | some s => s.exists_reads

/-- From states in which its head does not fault, a `for` loop is a loop. -/
theorem follows_for {p : Span} {init : Option Simple} (hi : ¬ FaultsIn (ReadsOf init) P) :
    Follows P (fun S => afterOf S init) (Runs (.stmt (.for_ p init c step body))) (Runs (.loop c step body)) := by
  refine fun S hS o => ⟨fun h => ?_, .for_ (passes_of_not_faultsIn (exists_readsOf init) hi hS)⟩
  cases h with
  | forFault hf => exact absurd ⟨S, hS, _, hf⟩ hi
  | for_ _ h => exact h

end Loops

/-! ### Sequences -/

section Sequences

variable {s : Stmt} {rest : List Stmt}

theorem runs_nil : Runs (.all []) = Skips := by
  funext S o
  refine propext ⟨fun hrun => ?_, ?_⟩
  · cases hrun
    rfl
  · rintro rfl
    exact .nil

theorem runs_cons_iff {S : State} {o : Outcome} : Runs (.all (s :: rest)) S o ↔
    (∃ S', Runs (.stmt s) S (.next S') ∧ Runs (.all rest) S' o) ∨ Runs (.stmt s) S o ∧ ∀ S', o ≠ .next S' := by
  constructor
  · intro h
    cases h with
    | cons h₁ h₂ => exact Or.inl ⟨_, h₁, h₂⟩
    | leave h₁ hne => exact Or.inr ⟨h₁, hne⟩
  · rintro (⟨S', h₁, h₂⟩ | ⟨h₁, hne⟩)
    · exact .cons h₁ h₂
    · exact .leave h₁ hne

theorem fails_cons : Fails (Runs (.all (s :: rest))) P ↔
    Fails (Runs (.stmt s)) P ∨ Fails (Runs (.all rest)) (nexts (Runs (.stmt s)) P) := by
  constructor
  · rintro ⟨S, hS, x, hrun⟩
    rcases runs_cons_iff.mp hrun with ⟨S', h₁, h₂⟩ | ⟨h₁, -⟩
    · exact Or.inr ⟨S', ⟨S, hS, h₁⟩, x, h₂⟩
    · exact Or.inl ⟨S, hS, x, h₁⟩
  · rintro (⟨S, hS, x, h₁⟩ | ⟨S', ⟨S, hS, h₁⟩, x, h₂⟩)
    · exact ⟨S, hS, x, .leave h₁ (by simp)⟩
    · exact ⟨S, hS, x, .cons h₁ h₂⟩

theorem nexts_cons : nexts (Runs (.all (s :: rest))) P = nexts (Runs (.all rest)) (nexts (Runs (.stmt s)) P) := by
  ext S''
  constructor
  · rintro ⟨S, hS, hrun⟩
    rcases runs_cons_iff.mp hrun with ⟨S', h₁, h₂⟩ | ⟨-, hne⟩
    · exact ⟨S', ⟨S, hS, h₁⟩, h₂⟩
    · exact absurd rfl (hne S'')
  · rintro ⟨S', ⟨S, hS, h₁⟩, h₂⟩
    exact ⟨S, hS, .cons h₁ h₂⟩

theorem conts_cons : conts (Runs (.all (s :: rest))) P =
    conts (Runs (.stmt s)) P ∪ conts (Runs (.all rest)) (nexts (Runs (.stmt s)) P) := by
  ext S''
  constructor
  · rintro ⟨S, hS, hrun⟩
    rcases runs_cons_iff.mp hrun with ⟨S', h₁, h₂⟩ | ⟨h₁, -⟩
    · exact Or.inr ⟨S', ⟨S, hS, h₁⟩, h₂⟩
    · exact Or.inl ⟨S, hS, h₁⟩
  · rintro (⟨S, hS, h₁⟩ | ⟨S', ⟨S, hS, h₁⟩, h₂⟩)
    · exact ⟨S, hS, .leave h₁ (by simp)⟩
    · exact ⟨S, hS, .cons h₁ h₂⟩

end Sequences

/-! ### Functions -/

theorem fails_start {f : Func} : Fails (Runs (.all f.body)) {∅} ↔ f.MayReadUnassigned := by
  unfold Fails Func.MayReadUnassigned
  simp

theorem nexts_start {f : Func} : (nexts (Runs (.all f.body)) {∅}).Nonempty ↔ f.MayFinish := by
  unfold nexts Func.MayFinish
  simp [Set.Nonempty]

end Chordal.Syntax
