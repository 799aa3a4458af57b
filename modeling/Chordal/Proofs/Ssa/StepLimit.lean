/-
# Step limits

A run counts its steps, and one step beyond its limit ends it. Nothing else bounds a
run: a graph may go round in circles, and it may lack terminators, values and entries
of phis. The run ends all the same, since the only rounds that are not counted are
the ones that end it.

The limit is compared with the count and read nowhere else, so a run with a larger
limit goes through the states of a run with a smaller one. If a run is not cut
short, it takes some number of steps: every run with a smaller limit is cut short,
and every run with a larger one ends in the same way.

Key definitions: `RunError.Blames`, `Func.BlocksExist`, `Func.Counts`, `Func.EndsUnder`, `Func.Takes`.
Key theorems: `Func.step_state`, `Func.step_error`, `Func.counts_iff`, `Func.run_settles`,
`Func.limit_only_cuts`.
-/
import Mathlib
import Chordal.Proofs.Finite
import Chordal.Proofs.Ssa.Blocks

namespace Chordal.Ssa

/-! ### Errors -/

/-- An error of a run's own: not the limit's, and the missing block is one of these. -/
def RunError.Blames (f : Func) (blocks : List BlockId) : RunError → Prop
  | .stepLimit _ => False
  | .noSuchBlock b => b ∈ blocks ∧ f.blocks.size ≤ b
  | _ => True

theorem RunError.Blames.mono {f : Func} {blocks blocks' : List BlockId} {e : RunError}
    (h : e.Blames f blocks) (hsub : blocks ⊆ blocks') : e.Blames f blocks' := by
  cases e with
  | noSuchBlock b => exact ⟨hsub h.1, h.2⟩
  | stepLimit n => exact h.elim
  | division | undefinedValue | missingPhiEntry | missingTerminator => trivial

section Errors

variable {f : Func} {blocks : List BlockId} {store : Store} {e : RunError}

theorem blames_of_read {v : Value} (h : store.read v = .error e) : e.Blames f blocks := by
  unfold Store.read at h
  cases hget : store.get? v.id with
  | some w =>
    rw [hget] at h
    cases h
  | none =>
    rw [hget] at h
    cases h
    trivial

theorem blames_of_readPhis {origin : Option BlockId} {label : String} : ∀ {phis : List Instr},
    readPhis origin label store phis = .error e → e.Blames f blocks := by
  intro phis
  induction phis with
  | nil => intro h; cases h
  | cons i rest ih =>
    intro h
    cases i with
    | phi target entries =>
      rw [readPhis] at h
      cases hentry : entries.find? fun entry => some entry.2 == origin with
      | none =>
        rw [hentry] at h
        cases h
        trivial
      | some entry =>
        rw [hentry] at h
        rcases bind_eq_error.mp h with hread | ⟨w, -, h⟩
        · exact blames_of_read hread
        · rcases bind_eq_error.mp h with hrest | ⟨others, -, h⟩
          · exact ih hrest
          · cases h
    | _ => cases h

end Errors

namespace Func

variable {f : Func} {b : BlockId} {store : Store} {i : Instr} {rest : List Instr} {s : State}

variable {e : RunError} {limit : Nat} {r : Except RunError Word}

/-- Only the block that control goes to can be missing. -/
theorem enter_error {origin : Option BlockId} (h : f.enter origin b store = .error e) :
    e.Blames f [b] := by
  unfold enter at h
  cases hblk : f.block? b with
  | none =>
    rw [hblk] at h
    cases h
    exact ⟨List.mem_singleton_self b, Array.getElem?_eq_none_iff.mp hblk⟩
  | some blk =>
    rw [hblk] at h
    rcases bind_eq_error.mp h with hphis | ⟨_, -, h⟩
    · exact blames_of_readPhis hphis
    · cases h

/-- What is left of a block is code of the block. -/
theorem enter_code {origin : Option BlockId} (h : f.enter origin b store = .ok s) :
    s.code ⊆ f.code b := by
  unfold enter at h
  cases hblk : f.block? b with
  | none =>
    rw [hblk] at h
    cases h
  | some blk =>
    rw [hblk] at h
    obtain ⟨_, -, h⟩ := bind_eq_ok.mp h
    cases h
    unfold code
    rw [hblk]
    exact List.dropWhile_subset _

/-- A step goes on in its block or to a block that the instruction names. -/
theorem step_state (h : f.step b store rest i = .ok (.state s)) :
    s.code = rest ∨ ∃ c ∈ i.successors, ∃ origin, f.enter origin c store = .ok s := by
  cases i with
  | const target value | bool target value | phi target entries =>
    cases h
    exact .inl rfl
  | move target source | unary target op operand =>
    obtain ⟨w, -, h⟩ := bind_eq_ok.mp h
    cases h
    exact .inl rfl
  | binary target op left right =>
    obtain ⟨l, -, h⟩ := bind_eq_ok.mp h
    obtain ⟨r, -, h⟩ := bind_eq_ok.mp h
    cases happly : op.apply l r with
    | ok w =>
      rw [happly] at h
      cases h
      exact .inl rfl
    | error fault =>
      rw [happly] at h
      cases h
  | jump target =>
    obtain ⟨s', hs', h⟩ := bind_eq_ok.mp h
    cases h
    exact .inr ⟨target, List.mem_singleton_self target, _, hs'⟩
  | branch condition ifTrue ifFalse =>
    obtain ⟨w, -, h⟩ := bind_eq_ok.mp h
    obtain ⟨s', hs', h⟩ := bind_eq_ok.mp h
    cases h
    refine .inr ⟨if w != 0 then ifTrue else ifFalse, ?_, _, hs'⟩
    unfold Instr.successors
    split_ifs <;> simp
  | ret value =>
    obtain ⟨w, -, h⟩ := bind_eq_ok.mp h
    cases h

/-- A step does not look at the limit, and it misses only blocks that the instruction names. -/
theorem step_error (h : f.step b store rest i = .error e) : e.Blames f i.successors := by
  cases i with
  | const target value | bool target value | phi target entries => cases h
  | move target source | unary target op operand | ret value =>
    rcases bind_eq_error.mp h with hread | ⟨w, -, h⟩
    · exact blames_of_read hread
    · cases h
  | binary target op left right =>
    rcases bind_eq_error.mp h with hread | ⟨l, -, h⟩
    · exact blames_of_read hread
    · rcases bind_eq_error.mp h with hread | ⟨r, -, h⟩
      · exact blames_of_read hread
      · cases happly : op.apply l r with
        | ok w =>
          rw [happly] at h
          cases h
        | error fault =>
          rw [happly] at h
          cases h
          trivial
  | jump target =>
    rcases bind_eq_error.mp h with henter | ⟨s', -, h⟩
    · exact enter_error henter
    · cases h
  | branch condition ifTrue ifFalse =>
    rcases bind_eq_error.mp h with hread | ⟨w, -, h⟩
    · exact blames_of_read hread
    · rcases bind_eq_error.mp h with henter | ⟨s', -, h⟩
      · refine (enter_error henter).mono ?_
        unfold Instr.successors
        split_ifs <;> simp
      · cases h

/-! ### Blocks that are there -/

/-- Control starts in a block of the graph, and every instruction that sends it on names such
blocks. Nothing else is asked of the code. -/
structure BlocksExist (f : Func) : Prop where
  start : f.start < f.blocks.size
  target : ∀ b, ∀ i ∈ f.code b, ∀ c ∈ i.successors, c < f.blocks.size

/-- No run comes to a block that is not there: what is left of a block names none. -/
theorem BlocksExist.runFrom_ne (hf : f.BlocksExist) (limit : Nat) (b : BlockId) :
    ∀ (left : Nat) {s : State}, (∀ i ∈ s.code, ∀ c ∈ i.successors, c < f.blocks.size) →
      f.runFrom limit left s ≠ .error (.noSuchBlock b) := by
  intro left
  induction left with
  | zero =>
    rintro ⟨a, _ | ⟨i, rest⟩, store⟩ - h
    · cases h
    · cases h
  | succ left ih =>
    rintro ⟨a, _ | ⟨i, rest⟩, store⟩ hcode h
    · cases h
    · rw [runFrom] at h
      cases hstep : f.step a store rest i with
      | error e =>
        rw [hstep] at h
        cases h
        obtain ⟨hmem, hle⟩ := step_error hstep
        exact absurd (hcode i List.mem_cons_self b hmem) (Nat.not_lt.mpr hle)
      | ok next =>
        rw [hstep] at h
        cases next with
        | result w => cases h
        | state s =>
          refine ih ?_ h
          rcases step_state hstep with hrest | ⟨c, -, origin, henter⟩
          · rw [hrest]
            exact fun j hj => hcode j (List.mem_cons_of_mem i hj)
          · exact fun j hj => hf.target c j (enter_code henter hj)

theorem BlocksExist.run_ne (hf : f.BlocksExist) (limit : Nat) (b : BlockId) :
    f.run limit ≠ .error (.noSuchBlock b) := by
  intro h
  rcases bind_eq_error.mp h with henter | ⟨s, henter, h⟩
  · obtain ⟨hmem, hle⟩ := enter_error henter
    rw [List.mem_singleton.mp hmem] at hle
    exact absurd hf.start (Nat.not_lt.mpr hle)
  · exact hf.runFrom_ne limit b limit (fun i hi => hf.target f.start i (enter_code henter hi)) h

/-! ### The run that counts -/

/-- A run that counts upwards, with no bound but the limit: it has taken so many steps and is in
this state, and it ends with this result. The count is compared before it passes the limit by
more than one. -/
inductive Counts (f : Func) (limit : Nat) : (taken : Nat) → State → Except RunError Word → Prop
  | unended {taken : Nat} {b : BlockId} {store : Store} :
    Counts f limit taken ⟨b, [], store⟩ (.error (.missingTerminator (f.label b)))
  | cut {taken : Nat} {b : BlockId} {i : Instr} {rest : List Instr} {store : Store} :
    limit < taken + 1 → Counts f limit taken ⟨b, i :: rest, store⟩ (.error (.stepLimit limit))
  | fail {taken : Nat} {b : BlockId} {i : Instr} {rest : List Instr} {store : Store} {e : RunError} :
    taken + 1 ≤ limit → f.step b store rest i = .error e →
      Counts f limit taken ⟨b, i :: rest, store⟩ (.error e)
  | ret {taken : Nat} {b : BlockId} {i : Instr} {rest : List Instr} {store : Store} {w : Word} :
    taken + 1 ≤ limit → f.step b store rest i = .ok (.result w) →
      Counts f limit taken ⟨b, i :: rest, store⟩ (.ok w)
  | next {taken : Nat} {b : BlockId} {i : Instr} {rest : List Instr} {store : Store} {s : State}
    {r : Except RunError Word} :
    taken + 1 ≤ limit → f.step b store rest i = .ok (.state s) → Counts f limit (taken + 1) s r →
      Counts f limit taken ⟨b, i :: rest, store⟩ r

/-- A function ends with this result when its steps are counted up to the limit. -/
inductive EndsUnder (f : Func) (limit : Nat) : Except RunError Word → Prop
  | unentered {e : RunError} :
    f.enter none f.start (.undefined f.valueCount) = .error e → EndsUnder f limit (.error e)
  | entered {s : State} {r : Except RunError Word} :
    f.enter none f.start (.undefined f.valueCount) = .ok s → Counts f limit 0 s r → EndsUnder f limit r

theorem counts_nil {taken : Nat} :
    f.Counts limit taken ⟨b, [], store⟩ r ↔ r = .error (.missingTerminator (f.label b)) := by
  constructor
  · rintro ⟨⟩
    rfl
  · rintro rfl
    exact .unended

/-- Every run that counts ends, and with the result of the steps that are left. -/
theorem counts_iff : ∀ {left taken : Nat} {s : State} {r : Except RunError Word},
    taken + left = limit → (f.Counts limit taken s r ↔ r = f.runFrom limit left s) := by
  intro left
  induction left with
  | zero =>
    rintro taken ⟨b, _ | ⟨i, rest⟩, store⟩ r hsum
    · rw [runFrom, counts_nil]
    · constructor
      · rintro (_ | _ | hle | hle | hle)
        · rfl
        all_goals omega
      · rintro rfl
        exact .cut (by omega)
  | succ left ih =>
    rintro taken ⟨b, _ | ⟨i, rest⟩, store⟩ r hsum
    · rw [runFrom, counts_nil]
    · have hle : taken + 1 ≤ limit := by omega
      have hnext : taken + 1 + left = limit := by omega
      rw [runFrom]
      constructor
      · rintro (_ | hlt | ⟨-, hstep⟩ | ⟨-, hstep⟩ | ⟨-, hstep, hrest⟩)
        · omega
        · rw [hstep]
        · rw [hstep]
        · rw [hstep]
          exact (ih hnext).mp hrest
      · rintro rfl
        cases hstep : f.step b store rest i with
        | error e => exact .fail hle hstep
        | ok next =>
          cases next with
          | result w => exact .ret hle hstep
          | state s => exact .next hle hstep ((ih hnext).mpr rfl)

/-- A function ends under every limit, with the result of its run and no other. -/
theorem endsUnder_iff : f.EndsUnder limit r ↔ r = f.run limit := by
  unfold run
  constructor
  · rintro (henter | ⟨henter, hcounts⟩)
    · rw [henter]
      rfl
    · rw [henter]
      exact (counts_iff (Nat.zero_add limit)).mp hcounts
  · rintro rfl
    cases henter : f.enter none f.start (.undefined f.valueCount) with
    | error e => exact .unentered henter
    | ok s => exact .entered henter ((counts_iff (Nat.zero_add limit)).mpr rfl)

/-! ### Limits -/

/-- A run from this state takes so many steps to its result, which is no limit's: with fewer
steps it is cut short, and with more it ends in the same way. -/
structure Takes (f : Func) (s : State) (m : Nat) (r : Except RunError Word) : Prop where
  ne_stepLimit : ∀ n, r ≠ .error (.stepLimit n)
  runFrom_eq : ∀ limit left, f.runFrom limit left s = if m ≤ left then r else .error (.stepLimit limit)

/-- The end of a block without a terminator is seen before the limit is. -/
theorem takes_nil (f : Func) (b : BlockId) (store : Store) :
    f.Takes ⟨b, [], store⟩ 0 (.error (.missingTerminator (f.label b))) := by
  refine ⟨nofun, fun limit left => ?_⟩
  rw [runFrom, if_pos (Nat.zero_le left)]

theorem takes_error (h : f.step b store rest i = .error e) :
    f.Takes ⟨b, i :: rest, store⟩ 1 (.error e) := by
  refine ⟨fun n hn => ?_, fun limit left => ?_⟩
  · cases hn
    exact step_error h
  · cases left with
    | zero => rfl
    | succ left => rw [runFrom, h, if_pos (Nat.le_add_left 1 left)]

theorem takes_result {w : Word} (h : f.step b store rest i = .ok (.result w)) :
    f.Takes ⟨b, i :: rest, store⟩ 1 (.ok w) := by
  refine ⟨nofun, fun limit left => ?_⟩
  cases left with
  | zero => rfl
  | succ left => rw [runFrom, h, if_pos (Nat.le_add_left 1 left)]

/-- A step more to the next state is a step more to its result. -/
theorem Takes.step {m : Nat} (h : f.Takes s m r) (hstep : f.step b store rest i = .ok (.state s)) :
    f.Takes ⟨b, i :: rest, store⟩ (m + 1) r := by
  refine ⟨h.ne_stepLimit, fun limit left => ?_⟩
  cases left with
  | zero => rfl
  | succ left =>
    rw [runFrom, hstep]
    simp only [h.runFrom_eq limit left, Nat.add_le_add_iff_right]

/-- A run that is not cut short takes some number of steps within its limit. -/
theorem runFrom_settles : ∀ {left : Nat} {s : State},
    f.runFrom limit left s ≠ .error (.stepLimit limit) → ∃ m ≤ left, ∃ r, f.Takes s m r := by
  intro left
  induction left with
  | zero =>
    rintro ⟨b, _ | ⟨i, rest⟩, store⟩ h
    · exact ⟨0, le_rfl, _, takes_nil f b store⟩
    · exact absurd rfl h
  | succ left ih =>
    rintro ⟨b, _ | ⟨i, rest⟩, store⟩ h
    · exact ⟨0, Nat.zero_le _, _, takes_nil f b store⟩
    · rw [runFrom] at h
      cases hstep : f.step b store rest i with
      | error e => exact ⟨1, Nat.le_add_left 1 left, _, takes_error hstep⟩
      | ok next =>
        cases next with
        | result w => exact ⟨1, Nat.le_add_left 1 left, _, takes_result hstep⟩
        | state s =>
          rw [hstep] at h
          obtain ⟨m, hm, r, htakes⟩ := ih h
          exact ⟨m + 1, Nat.add_le_add_right hm 1, r, htakes.step hstep⟩

/-- If some run is not cut short, there is a limit below which all runs are and from which on
all have one result. -/
theorem run_settles {n : Nat} (h : f.run n ≠ .error (.stepLimit n)) :
    ∃ m ≤ n, ∃ r, (∀ k, r ≠ .error (.stepLimit k)) ∧
      ∀ k, f.run k = if m ≤ k then r else .error (.stepLimit k) := by
  unfold run at h ⊢
  cases henter : f.enter none f.start (.undefined f.valueCount) with
  | error e =>
    refine ⟨0, Nat.zero_le n, .error e, fun k hk => ?_, fun k => (if_pos (Nat.zero_le k)).symm⟩
    cases hk
    exact enter_error henter
  | ok s =>
    rw [henter] at h
    obtain ⟨m, hm, r, htakes⟩ := runFrom_settles h
    exact ⟨m, hm, r, htakes.ne_stepLimit, fun k => htakes.runFrom_eq k k⟩

/-- **A limit only cuts runs short.** Whatever is wrong with a graph, if it names no block that is
not there, the count ends every run with one result, and never for want of a block. A larger
limit does not change a result, a run that is cut short is cut short by every smaller
limit, and the error names the limit. -/
theorem limit_only_cuts (hf : f.BlocksExist) :
    (∀ n r, f.EndsUnder n r ↔ r = f.run n) ∧
    (∀ n b, f.run n ≠ .error (.noSuchBlock b)) ∧
    (∀ n m, n ≤ m → f.run n ≠ .error (.stepLimit n) → f.run m = f.run n) ∧
    (∀ n k, f.run n = .error (.stepLimit n) → k < n → f.run k = .error (.stepLimit k)) ∧
    ∀ n k, f.run n = .error (.stepLimit k) → k = n := by
  refine ⟨fun n r => endsUnder_iff, fun n b => hf.run_ne n b, ?_, ?_, ?_⟩
  · intro n m hnm hn
    obtain ⟨t, ht, r, -, hrun⟩ := run_settles hn
    rw [hrun m, hrun n, if_pos ht, if_pos (ht.trans hnm)]
  · intro n k hn hkn
    by_contra hk
    obtain ⟨t, ht, r, hr, hrun⟩ := run_settles hk
    rw [hrun n, if_pos (ht.trans hkn.le)] at hn
    exact hr n hn
  · intro n k hk
    by_cases hn : f.run n = .error (.stepLimit n)
    · rw [hn] at hk
      cases hk
      rfl
    · obtain ⟨t, ht, r, hr, hrun⟩ := run_settles hn
      rw [hrun n, if_pos ht] at hk
      exact absurd hk (hr k)

/-- A loop that counts down from three, with a phi in its middle, into a block without a terminator. -/
def unfinished : Func where
  name := "main"
  returns := .int
  isEntry := true
  start := 0
  blocks := #[
    ⟨0, "entry", [.const ⟨0, .int⟩ 3, .jump 1], [], [1]⟩,
    ⟨1, "loop", [.phi ⟨1, .int⟩ [(⟨0, .int⟩, 0), (⟨2, .int⟩, 1)], .const ⟨3, .int⟩ 1,
      .binary ⟨2, .int⟩ .sub ⟨1, .int⟩ ⟨3, .int⟩, .phi ⟨4, .int⟩ [], .branch ⟨2, .int⟩ 1 2],
      [0, 1], [1, 2]⟩,
    ⟨2, "after", [.const ⟨5, .int⟩ 0], [1], []⟩]
  valueCount := 3

theorem unfinished_blocksExist : unfinished.BlocksExist := by
  have hall : ∀ b < unfinished.blocks.size, ∀ i ∈ unfinished.code b, ∀ c ∈ i.successors,
      c < unfinished.blocks.size := by decide
  exact ⟨by decide, fun b i hi => hall b (lt_of_mem_code hi) i hi⟩

/-- The loop is left after fourteen steps, and the end of the last block is seen after one more. -/
theorem unfinished_runs : unfinished.BlocksExist ∧
    (∀ n, n < 15 → unfinished.run n = .error (.stepLimit n)) ∧
    ∀ n, 15 ≤ n → unfinished.run n = .error (.missingTerminator "after_2") ∧
      ∀ r, unfinished.EndsUnder n r → r = .error (.missingTerminator "after_2") := by
  obtain ⟨hends, -, hgrow, hcut, -⟩ := limit_only_cuts unfinished_blocksExist
  have hlast : unfinished.run 14 = .error (.stepLimit 14) := by decide +kernel
  have hend : unfinished.run 15 = .error (.missingTerminator "after_2") := by decide +kernel
  have hlong : ∀ n, 15 ≤ n → unfinished.run n = .error (.missingTerminator "after_2") := by
    intro n hn
    rw [hgrow 15 n hn (by rw [hend]; nofun), hend]
  refine ⟨unfinished_blocksExist, fun n hn => ?_, fun n hn => ⟨hlong n hn, fun r hr => ?_⟩⟩
  · rcases Nat.lt_succ_iff_lt_or_eq.mp hn with hlt | rfl
    · exact hcut 14 n hlast hlt
    · exact hlast
  · rw [(hends n r).mp hr, hlong n hn]

end Func
end Chordal.Ssa
