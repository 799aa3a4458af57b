/-
# Building a flow graph keeps the meaning

The flow graph of a typed function has the results that the function has: it
returns the same word, fails in the same division, and runs forever where the
function does.

The step of a loop may hold assignments and expressions only. A `break` in a step
would leave the loop around it.

Key theorems: `build_preserves_meaning`.
-/
import Mathlib
import Chordal.Proofs.Ssa.Simulation

namespace Chordal.Ssa

open Builder
open Typed (Vars Stop Exit)

/-! ### The beginning of a function -/

theorem size_start (t : Typed.Func) : (Builder.start t).size = 1 := rfl

theorem code_start (t : Typed.Func) (b : BlockId) : (Builder.start t).code b = [] :=
  (Func.code_addBlock (Func.empty t.name t.returns t.isEntry) "entry" b).trans
    (Func.code_of_size_le (Nat.zero_le b))

theorem good_start (t : Typed.Func) : (Builder.start t).Good := by
  refine ⟨fun b hb => ?_, fun j v hv => ?_, fun e he => ?_, fun e he => ?_, fun e he => ?_,
    fun b => List.nodup_nil, fun l hl => ?_⟩
  · obtain rfl := Option.some.inj hb
    exact ⟨Nat.zero_lt_one, by rw [code_start]; rfl⟩
  · cases hv
  all_goals first | cases he | cases hl

/-- A run of the finished graph begins where the builder did. -/
theorem enter_start {t : Typed.Func} {s : Builder} (hg : Grows (Builder.start t) s) :
    ∃ x, s.func.enter none s.func.start (.undefined s.func.valueCount) = .ok x ∧
      Here s.func (Builder.start t) Vars.none x := by
  have hstart : s.func.start = 0 := congrArg (fun h => h.2.2.2) hg.head
  have hcur : (Builder.start t).current = some 0 := rfl
  obtain ⟨d, hw, htake, hdrop⟩ := hg.phis_eq hcur (code_start t 0) (by simp)
  obtain rfl := List.forall₂_nil_left_iff.mp hw
  obtain ⟨blk, hblk, hcode⟩ := Func.exists_block (Nat.zero_lt_one.trans_le ((size_start t).ge.trans hg.size_le))
  refine ⟨⟨0, s.func.code 0, .undefined s.func.valueCount⟩, ?_, rfl, ?_, fun j v hv => by cases hv⟩
  · rw [hstart]
    unfold Func.enter
    rw [hblk]
    simp only [Block.phis, Block.body, ← hcode]
    rw [htake, hdrop]
    rfl
  · simp only [code_start, List.length_nil, List.drop_zero]

/-- What the run of a built function does. -/
theorem build_runs {t : Typed.Func} {f : Func} (hsteps : t.simpleSteps = true) (h : build t = .ok f) :
    ∃ x, f.enter none f.start (.undefined f.valueCount) = .ok x ∧
      ∀ fuel, Outcome f 0 fuel x (fun _ _ => False) (fun _ _ => False) (fun _ _ => False) (t.exec fuel) := by
  obtain ⟨s, hs, hf⟩ := bind_eq_ok.mp h
  cases hcur : s.current with
  | some b => rw [hcur] at hf; cases hf
  | none =>
    rw [hcur] at hf
    obtain rfl : s.func = f := Except.ok.inj hf
    have hx := lowerStmts_extends t.body (good_start t) hs
    obtain ⟨x, henter, hhere⟩ := enter_start hx.grows
    refine ⟨x, henter, fun fuel => ?_⟩
    have hrun : Runs s.func (Builder.start t) s fuel x (t.exec fuel) :=
      lowerStmts_runs t.body (good_start t) hhere hsteps hs (.refl s)
    refine Outcome.imp hrun (Nat.zero_le _) (fun σ y hy => ?_) (fun σ y hy => ?_) (fun σ y hy => ?_)
    · have := hy.current
      rw [hcur] at this
      cases this
    · obtain ⟨l, hl, -⟩ := hy
      cases hl
    · obtain ⟨l, hl, -⟩ := hy
      cases hl

/-- The flow graph of a function ends with the results the function ends with,
and runs forever where the function does. -/
theorem build_preserves_meaning {t : Typed.Func} {f : Func} (hsteps : t.simpleSteps = true)
    (h : build t = .ok f) :
    (∀ r : Except DivisionFault Word, t.Ends r ↔ ∃ n, f.run n = r.mapError RunError.division) ∧
      (t.Diverges ↔ ∀ n, f.run n = .error (.stepLimit n)) := by
  obtain ⟨x, hx, hout⟩ := build_runs hsteps h
  -- an answer of the function is the result of the graph, from some limit on
  have hends : ∀ fuel e, t.exec fuel = some e → ∃ r, e = .ofResult r ∧
      ∃ m, ∀ n, f.run n = if m < n then r.mapError RunError.division else .error (.stepLimit n) := by
    intro fuel e he
    have ho := hout fuel
    rw [he] at ho
    match e with
    | .next _ | .broke _ | .continued _ =>
      obtain ⟨_, _, _, _, hf⟩ := ho
      exact hf.elim
    | .returned w => exact ⟨.ok w, rfl, run_of_halts hx ho⟩
    | .stopped (.division fault) => exact ⟨.error fault, rfl, run_of_halts hx ho⟩
    | .stopped (.unassigned _) => exact ho.elim
  -- without an answer, the graph goes on
  have hnone : ∀ n, t.exec (n + 1) = none → f.run n = .error (.stepLimit n) := by
    intro n hn
    have ho := hout (n + 1)
    rw [hn] at ho
    obtain ⟨m, y, hm, hy⟩ := ho
    unfold Func.run
    rw [hx]
    exact hy.runFrom_of_lt n n (by omega)
  refine ⟨fun r => ⟨?_, ?_⟩, ?_, ?_⟩
  · rintro ⟨fuel, hfuel⟩
    obtain ⟨r', hr, m, hm⟩ := hends fuel _ hfuel
    obtain rfl : r = r' := by cases r <;> cases r' <;> cases hr <;> rfl
    exact ⟨m + 1, by rw [hm, if_pos (Nat.lt_succ_self m)]⟩
  · rintro ⟨n, hn⟩
    cases he : t.exec (n + 1) with
    | none =>
      rw [hnone n he] at hn
      cases r <;> cases hn
    | some e =>
      obtain ⟨r', rfl, m, hm⟩ := hends _ e he
      rw [hm] at hn
      split_ifs at hn
      · obtain rfl : r = r' := by cases r <;> cases r' <;> cases hn <;> rfl
        exact ⟨n + 1, he⟩
      · cases r <;> cases hn
  · exact fun hd n => hnone n (hd (n + 1))
  · intro hd fuel
    cases he : t.exec fuel with
    | none => rfl
    | some e =>
      obtain ⟨r, -, m, hm⟩ := hends fuel e he
      have := hm (m + 1)
      rw [hd (m + 1), if_pos (Nat.lt_succ_self m)] at this
      cases r <;> cases this

/-- A function with a loop that has a step, and a `continue` in its body. -/
def powers : Typed.Func where
  name := "main"
  returns := .int
  isEntry := true
  body :=
    let i : Typed.Symbol := ⟨0, "i", .int⟩
    let p : Typed.Symbol := ⟨1, "p", .int⟩
    [.declare i (some (.int 0)), .declare p (some (.int 1)),
      .while_ (.binary .lt (.var i) (.int 5))
        [.ifElse (.binary .eq (.var i) (.int 2)) [.continue_] none,
          .assign p (.binary .mul (.var p) (.int 2))]
        (some [.assign i (.binary .add (.var i) (.int 1))]),
      .return_ (.var p)]

/-- The graph of `powers` ends with 16, so `powers` does. -/
theorem powers_ends : powers.simpleSteps = true ∧ ∃ f, build powers = .ok f ∧ f.run 100 = .ok 16 ∧
    powers.Ends (.ok 16) ∧ ¬ powers.Diverges := by
  have hsteps : powers.simpleSteps = true := by decide +kernel
  have hrun : (build powers).toOption.map (fun f => f.run 100) = some (.ok 16) := by decide +kernel
  cases hf : build powers with
  | error e =>
    rw [hf] at hrun
    cases hrun
  | ok f =>
    rw [hf] at hrun
    have hrun : f.run 100 = .ok 16 := Option.some.inj hrun
    obtain ⟨hends, hdiv⟩ := build_preserves_meaning hsteps hf
    refine ⟨hsteps, f, rfl, hrun, (hends (.ok 16)).mpr ⟨100, hrun⟩, fun hd => ?_⟩
    have := hdiv.mp hd 100
    rw [hrun] at this
    cases this

end Chordal.Ssa
