/-
# Runs of flow graphs, step by step

The machine of `Chordal.Ssa.Run` as a relation between states. A run that gets
from one state to another in `n` steps goes on from there with the steps that
are left, and does not end before; a run that comes to a state where it stops
has that result with every limit beyond, and only then.

Two machines that go on together, each by at least one step, stop together or
not at all; one of them may stand still for a while.

Key definitions: `Func.code`, `Func.Steps`, `Func.Stops`, `Func.AtEdge`, `Halts`, `Store.Keeps`.
Key theorems: `Func.Steps.runFrom_of_stops`, `Func.Steps.runFrom_of_lt`, `lockstep`,
`lockstep_of_measure`.
-/
import Mathlib
import Chordal.Ssa.Run

namespace Chordal.Ssa

/-! ### Stores -/

namespace Store

@[simp] theorem get?_undefined (n id : Nat) : (undefined n).get? id = none := by
  unfold get? undefined
  rw [Array.getElem?_replicate]
  split_ifs <;> rfl

/-- A write changes one value and no other. -/
theorem get?_write (s : Store) (v : Value) (w : Word) (id : Nat) :
    (s.write v w).get? id = if id = v.id then some w else s.get? id := by
  unfold write get?
  by_cases h : v.id < s.size
  · rw [dif_pos h, Array.getElem?_set]
    by_cases hid : v.id = id
    · simp [hid]
    · rw [if_neg hid, if_neg (Ne.symm hid)]
  · rw [dif_neg h, Array.getElem?_push]
    have hsize : (s ++ Array.replicate (v.id - s.size) (none : Option Word)).size = v.id := by
      rw [Array.size_append, Array.size_replicate]
      omega
    rw [hsize]
    by_cases hid : id = v.id
    · simp [hid]
    · rw [if_neg hid, if_neg hid, Array.getElem?_append]
      split_ifs with hlt
      · rfl
      · rw [Array.getElem?_replicate, Array.getElem?_eq_none (Nat.le_of_not_lt hlt)]
        split_ifs <;> rfl

theorem read_eq_ok {s : Store} {v : Value} {w : Word} (h : s.get? v.id = some w) :
    s.read v = .ok w := by
  unfold read
  rw [h]

/-- The values below `bound` are the same in both stores. -/
def Keeps (bound : Nat) (s s' : Store) : Prop := ∀ id, id < bound → s'.get? id = s.get? id

theorem Keeps.refl (bound : Nat) (s : Store) : Keeps bound s s := fun _ _ => rfl

theorem Keeps.mono {bound bound' : Nat} {s s' : Store} (h : Keeps bound' s s') (hle : bound ≤ bound') :
    Keeps bound s s' := fun id hid => h id (hid.trans_le hle)

theorem Keeps.trans {bound bound' : Nat} {s s' s'' : Store} (h : Keeps bound s s')
    (h' : Keeps bound' s' s'') (hle : bound ≤ bound') : Keeps bound s s'' :=
  fun id hid => (h' id (lt_of_lt_of_le hid hle)).trans (h id hid)

theorem keeps_write {bound : Nat} (s : Store) (v : Value) (w : Word) (h : bound ≤ v.id) :
    Keeps bound s (s.write v w) := by
  intro id hid
  rw [get?_write, if_neg (by omega)]

/-- What is not written stays. -/
theorem get?_writeAll_of_notMem : ∀ (l : List (Value × Word)) (s : Store) (id : Nat),
    (∀ p ∈ l, p.1.id ≠ id) → (s.writeAll l).get? id = s.get? id
  | [], _, _, _ => rfl
  | p :: l, s, id, h => by
    have ih := get?_writeAll_of_notMem l (s.write p.1 p.2) id fun q hq => h q (List.mem_cons_of_mem _ hq)
    have hp : id ≠ p.1.id := fun he => h p List.mem_cons_self he.symm
    unfold writeAll at ih ⊢
    rw [List.foldl_cons, ih, get?_write, if_neg hp]

/-- What is written once holds what was written. -/
theorem get?_writeAll_of_mem : ∀ (l : List (Value × Word)) (s : Store) (p : Value × Word),
    (l.map fun q => q.1.id).Nodup → p ∈ l → (s.writeAll l).get? p.1.id = some p.2
  | [], _, _, _, h => by cases h
  | q :: l, s, p, hn, h => by
    rw [List.map_cons, List.nodup_cons] at hn
    rcases List.mem_cons.mp h with rfl | h
    · have hout := get?_writeAll_of_notMem l (s.write p.1 p.2) p.1.id
        fun r hr he => hn.1 (List.mem_map.mpr ⟨r, hr, he⟩)
      unfold writeAll at hout ⊢
      rw [List.foldl_cons, hout, get?_write, if_pos rfl]
    · exact get?_writeAll_of_mem l (s.write q.1 q.2) p hn.2 h

end Store

/-! ### Steps -/

namespace Func

/-- The instructions of a block; none if there is no such block. -/
def code (f : Func) (b : BlockId) : List Instr := ((f.block? b).map Block.code).getD []

/-- A run gets from one state to another in so many steps. -/
inductive Steps (f : Func) : Nat → State → State → Prop
  | refl (s : State) : Steps f 0 s s
  | head {b : BlockId} {store : Store} {i : Instr} {rest : List Instr} {s s' : State} {n : Nat} :
    f.step b store rest i = .ok (.state s) → Steps f n s s' → Steps f (n + 1) ⟨b, i :: rest, store⟩ s'

/-- A run stops in a state with this result. -/
def Stops (f : Func) (s : State) (r : Except RunError Word) : Prop :=
  ∃ i rest, s.code = i :: rest ∧
    ((∃ w, f.step s.block s.store rest i = .ok (.result w) ∧ r = .ok w) ∨
      ∃ e, f.step s.block s.store rest i = .error e ∧ r = .error e)

/-- Control is about to go from the block `a` to the block `b`. -/
def AtEdge (f : Func) (s : State) (a b : BlockId) : Prop :=
  s.block = a ∧ ∃ i rest, s.code = i :: rest ∧
    f.step a s.store rest i = (f.enter (some a) b s.store).map Next.state

variable {f : Func} {n m : Nat} {s s' s'' : State}

theorem Steps.trans (h : f.Steps n s s') (h' : f.Steps m s' s'') : f.Steps (n + m) s s'' := by
  induction h with
  | refl s => rwa [Nat.zero_add]
  | head hs _ ih =>
    rw [Nat.add_right_comm]
    exact .head hs (ih h')

theorem Steps.one {b : BlockId} {store : Store} {i : Instr} {rest : List Instr}
    (h : f.step b store rest i = .ok (.state s)) : f.Steps 1 ⟨b, i :: rest, store⟩ s :=
  .head h (.refl s)

/-- Taking an edge is one step. -/
theorem AtEdge.steps {a b : BlockId} (h : f.AtEdge s a b)
    (he : f.enter (some a) b s.store = .ok s') : f.Steps 1 s s' := by
  obtain ⟨block, code, store⟩ := s
  obtain ⟨rfl, i, rest, rfl, hstep⟩ := h
  rw [he] at hstep
  exact .one hstep

/-- A run goes on from a state that it gets to with the steps that are left. -/
theorem Steps.runFrom_add (h : f.Steps n s s') (limit left : Nat) :
    f.runFrom limit (n + left) s = f.runFrom limit left s' := by
  induction h with
  | refl s => rw [Nat.zero_add]
  | head hs _ ih =>
    rw [Nat.add_right_comm, runFrom, hs]
    exact ih

/-- A run does not end before a state that it gets to. -/
theorem Steps.runFrom_of_lt (h : f.Steps n s s') (limit : Nat) :
    ∀ left, left < n → f.runFrom limit left s = .error (.stepLimit limit) := by
  induction h with
  | refl s => intro left hl; omega
  | head hs _ ih =>
    intro left hl
    cases left with
    | zero => rw [runFrom]
    | succ left =>
      rw [runFrom, hs]
      exact ih left (by omega)

/-- A run that comes to a stop has its result with enough steps, and only then. -/
theorem Steps.runFrom_of_stops {r : Except RunError Word} (h : f.Steps n s s') (hr : f.Stops s' r)
    (limit left : Nat) :
    f.runFrom limit left s = if n < left then r else .error (.stepLimit limit) := by
  obtain ⟨block, code, store⟩ := s'
  obtain ⟨i, rest, hcode, hr⟩ := hr
  simp only at hcode hr
  subst hcode
  split_ifs with hl
  · obtain ⟨k, rfl⟩ : ∃ k, left = n + (k + 1) := ⟨left - n - 1, by omega⟩
    rw [h.runFrom_add, runFrom]
    rcases hr with ⟨w, hw, rfl⟩ | ⟨e, he, rfl⟩
    · rw [hw]
    · rw [he]
  · rcases Nat.lt_or_ge left n with hlt | hge
    · exact h.runFrom_of_lt limit left hlt
    · obtain rfl : left = n := by omega
      have hadd := h.runFrom_add limit 0
      rw [Nat.add_zero] at hadd
      rw [hadd, runFrom]

end Func

/-! ### Results -/

/-- A run comes to a stop with this result. -/
def Halts (F : Func) (x : State) (r : Except RunError Word) : Prop :=
  ∃ n x', F.Steps n x x' ∧ F.Stops x' r

theorem Halts.prepend {F : Func} {n : Nat} {x y : State} {r : Except RunError Word}
    (hxy : F.Steps n x y) (h : Halts F y r) : Halts F x r := by
  obtain ⟨m, z, hm, hz⟩ := h
  exact ⟨n + m, z, hxy.trans hm, hz⟩

/-- A run from a state that comes to a stop, by the number of steps. -/
theorem run_of_halts {f : Func} {x : State} {r : Except RunError Word}
    (hx : f.enter none f.start (.undefined f.valueCount) = .ok x) (h : Halts f x r) :
    ∃ m, ∀ n, f.run n = if m < n then r else .error (.stepLimit n) := by
  obtain ⟨m, y, hm, hy⟩ := h
  refine ⟨m, fun n => ?_⟩
  unfold Func.run
  rw [hx]
  exact hm.runFrom_of_stops hy n n

/-- A run from a state that goes on forever reaches every limit. -/
theorem run_of_diverges {f : Func} {x : State}
    (hx : f.enter none f.start (.undefined f.valueCount) = .ok x)
    (h : ∀ n, ∃ m y, n < m ∧ f.Steps m x y) (n : Nat) : f.run n = .error (.stepLimit n) := by
  obtain ⟨m, y, hlt, hy⟩ := h n
  unfold Func.run
  rw [hx]
  exact hy.runFrom_of_lt n n hlt

/-- A result as a run gives it: a word, or a division that failed. -/
abbrev ofResult (r : Except DivisionFault Word) : Except RunError Word := r.mapError RunError.division

theorem ofResult_inj {r r' : Except DivisionFault Word} (h : ofResult r = ofResult r') : r = r' := by
  cases r <;> cases r' <;> cases h <;> rfl

theorem ofResult_ne_stepLimit (r : Except DivisionFault Word) (n : Nat) :
    ofResult r ≠ .error (.stepLimit n) := by
  cases r <;> exact fun h => by cases h

/-- A run that comes to a stop has this result and no other. -/
theorem run_iff_of_halts {f : Func} {x : State} {r : Except DivisionFault Word}
    (hx : f.enter none f.start (.undefined f.valueCount) = .ok x) (h : Halts f x (ofResult r)) :
    (∀ r', (∃ n, f.run n = ofResult r') ↔ r' = r) ∧ ¬ ∀ n, f.run n = .error (.stepLimit n) := by
  obtain ⟨m, hm⟩ := run_of_halts hx h
  have hend : f.run (m + 1) = ofResult r := by rw [hm, if_pos (Nat.lt_succ_self m)]
  refine ⟨fun r' => ⟨?_, ?_⟩, fun hall => ?_⟩
  · rintro ⟨n, hn⟩
    rw [hm] at hn
    split_ifs at hn
    · exact (ofResult_inj hn).symm
    · exact absurd hn.symm (ofResult_ne_stepLimit r' n)
  · rintro rfl
    exact ⟨m + 1, hend⟩
  · exact ofResult_ne_stepLimit r (m + 1) (hend.symm.trans (hall (m + 1)))

/-! ### Two machines -/

section TwoMachines

variable {α β ρ : Type} {S : Nat → α → α → Prop} {T : Nat → β → β → Prop} {H : α → ρ → Prop}
  {K : β → ρ → Prop} {R : α → β → Prop}
  (hS : ∀ {n m a b c}, S n a b → S m b c → S (n + m) a c) (hS₀ : ∀ a, S 0 a a)
  (hT : ∀ {n m a b c}, T n a b → T m b c → T (n + m) a c) (hT₀ : ∀ a, T 0 a a)
  (hH : ∀ {n a b r}, S n a b → H b r → H a r) (hK : ∀ {n a b r}, T n a b → K b r → K a r)

include hS hS₀ hT hT₀ hH hK

/-- Two machines whose states stay related stop with the same result, or both go
on forever. -/
theorem lockstep
    (hstep : ∀ a b, R a b → (∃ r, H a r ∧ K b r) ∨
      ∃ n m a' b', S (n + 1) a a' ∧ T (m + 1) b b' ∧ R a' b')
    {a : α} {b : β} (h : R a b) :
    (∃ r, H a r ∧ K b r) ∨
      (∀ n, ∃ m a', n < m ∧ S m a a') ∧ ∀ n, ∃ m b', n < m ∧ T m b b' := by
  by_cases hend : ∃ r, H a r ∧ K b r
  · exact .inl hend
  · have hlong : ∀ k, ∃ n m a' b', k ≤ n ∧ k ≤ m ∧ S n a a' ∧ T m b b' ∧ R a' b' := by
      intro k
      induction k with
      | zero => exact ⟨0, 0, a, b, le_rfl, le_rfl, hS₀ a, hT₀ b, h⟩
      | succ k ih =>
        obtain ⟨n, m, a₁, b₁, hn, hm, ha, hb, hr⟩ := ih
        rcases hstep a₁ b₁ hr with ⟨r, h₁, h₂⟩ | ⟨i, j, a₂, b₂, ha', hb', hr'⟩
        · exact absurd ⟨r, hH ha h₁, hK hb h₂⟩ hend
        · exact ⟨n + (i + 1), m + (j + 1), a₂, b₂, by omega, by omega, hS ha ha', hT hb hb', hr'⟩
    refine .inr ⟨fun n => ?_, fun n => ?_⟩
    · obtain ⟨m, _, a', _, hm, _, ha, _⟩ := hlong (n + 1)
      exact ⟨m, a', hm, ha⟩
    · obtain ⟨_, m, _, b', _, hm, _, hb, _⟩ := hlong (n + 1)
      exact ⟨m, b', hm, hb⟩

/-- The second machine may stand still as long as a measure of the first goes down. -/
theorem lockstep_of_measure (μ : α → Nat)
    (hstep : ∀ a b, R a b → (∃ r, H a r ∧ K b r) ∨
      ∃ n m a' b', S (n + 1) a a' ∧ T m b b' ∧ R a' b' ∧ (0 < m ∨ μ a' < μ a))
    {a : α} {b : β} (h : R a b) :
    (∃ r, H a r ∧ K b r) ∨
      (∀ n, ∃ m a', n < m ∧ S m a a') ∧ ∀ n, ∃ m b', n < m ∧ T m b b' := by
  refine lockstep (H := H) (K := K) (R := R) hS hS₀ hT hT₀ hH hK (fun a b h => ?_) h
  induction hk : μ a using Nat.strong_induction_on generalizing a b with
  | _ k ih =>
    rcases hstep a b h with hend | ⟨n, m, a', b', ha, hb, hr, hpos | hlt⟩
    · exact .inl hend
    · obtain ⟨j, rfl⟩ := Nat.exists_eq_succ_of_ne_zero (Nat.ne_of_gt hpos)
      exact .inr ⟨n, j, a', b', ha, hb, hr⟩
    · rcases ih (μ a') (hk ▸ hlt) a' b' hr rfl with ⟨r, hr₁, hr₂⟩ | ⟨n', m', a₂, b₂, ha', hb', hr'⟩
      · exact .inl ⟨r, hH ha hr₁, hK hb hr₂⟩
      · have ha₂ := hS ha ha'
        have hb₂ := hT hb hb'
        exact .inr ⟨n + 1 + n', m + m', a₂, b₂, ha₂, hb₂, hr'⟩

end TwoMachines

end Chordal.Ssa
