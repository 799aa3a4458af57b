/-
# The stages of a piece of a tree

What a builder goes through while it builds a piece that control may pass in
more than one way: a fork whose two ways meet, a way that may be passed by, and
a loop. The stages are listed once for each kind of piece, so that what is
proved about construction goes through the same stages.

Key definitions: `Builder.Joining`, `Builder.Diamond`, `Builder.Detour`,
`Builder.Opened`, `Builder.Turning`.
Key theorems: `Builder.diamond`, `Builder.detour`, `Builder.opened`,
`Builder.turning_body`, `Builder.turning_step`, `Builder.joining_of_test`.
-/
import Mathlib
import Chordal.Proofs.Ssa.LoopHead

namespace Chordal.Ssa
namespace Builder

/-! ### New blocks -/

/-- Appends blocks. -/
def addBlocks (s : Builder) : List String → Builder
  | [] => s
  | kind :: kinds => addBlocks (s.addBlock kind).2 kinds

theorem size_addBlock (s : Builder) (kind : String) : (s.addBlock kind).2.size = s.size + 1 :=
  Func.size_addBlock s.func kind

@[simp] theorem current_addBlocks : ∀ (kinds : List String) (s : Builder),
    (s.addBlocks kinds).current = s.current
  | [], _ => rfl
  | kind :: kinds, s => current_addBlocks kinds (s.addBlock kind).2

@[simp] theorem bindings_addBlocks : ∀ (kinds : List String) (s : Builder),
    (s.addBlocks kinds).bindings = s.bindings
  | [], _ => rfl
  | kind :: kinds, s => bindings_addBlocks kinds (s.addBlock kind).2

@[simp] theorem count_addBlocks : ∀ (kinds : List String) (s : Builder),
    (s.addBlocks kinds).count = s.count
  | [], _ => rfl
  | kind :: kinds, s => count_addBlocks kinds (s.addBlock kind).2

@[simp] theorem pending_addBlocks : ∀ (kinds : List String) (s : Builder),
    (s.addBlocks kinds).pending = s.pending
  | [], _ => rfl
  | kind :: kinds, s => pending_addBlocks kinds (s.addBlock kind).2

@[simp] theorem size_addBlocks : ∀ (kinds : List String) (s : Builder),
    (s.addBlocks kinds).size = s.size + kinds.length
  | [], _ => rfl
  | kind :: kinds, s => by
    rw [addBlocks, size_addBlocks kinds, size_addBlock, List.length_cons]
    omega

@[simp] theorem code_addBlocks : ∀ (kinds : List String) (s : Builder) (c : BlockId),
    (s.addBlocks kinds).code c = s.code c
  | [], _, _ => rfl
  | kind :: kinds, s, c => (code_addBlocks kinds (s.addBlock kind).2 c).trans (Func.code_addBlock s.func kind c)

theorem extends_addBlocks : ∀ (kinds : List String) {s : Builder}, s.Good →
    Extends (fun _ => False) s (s.addBlocks kinds)
  | [], _, hs => .refl _ hs
  | kind :: kinds, _, hs =>
    (extends_addBlock hs kind).1.trans (extends_addBlocks kinds (extends_addBlock hs kind).1.good)
      fun _ hf => hf.elim

variable {s x : Builder} {b : BlockId} {free : BlockId → Prop}

theorem unbegun_addBlocks (kinds : List String) (hs : s.Good) {i : Nat} (hi : i < kinds.length) :
    (s.addBlocks kinds).Unbegun (s.size + i : Nat) := by
  refine ⟨by rw [size_addBlocks]; exact Nat.add_lt_add_left hi _, ?_, fun hc => ?_⟩
  · rw [code_addBlocks, code_of_size_le (Nat.le_add_right _ _)]
  · rw [current_addBlocks] at hc
    exact absurd (hs.current _ hc).1 (Nat.not_lt.mpr (Nat.le_add_right _ _))

/-- Appends blocks and leaves for one of the first two. -/
def fork (s : Builder) (kinds : List String) (v : Value) : Builder :=
  (s.addBlocks kinds).branch v s.size (s.size + 1 : Nat)

section Fork

variable {s : Builder} {a : BlockId} (kinds : List String) (v : Value)

theorem current_fork (hcur : s.current = some a) : (s.fork kinds v).current = none :=
  current_branch v (by rw [current_addBlocks]; exact hcur)

theorem loops_fork (hs : s.Good) (hcur : s.current = some a) : (s.fork kinds v).loops = s.loops :=
  (loops_branch v (by rw [current_addBlocks]; exact hcur)).trans (extends_addBlocks kinds hs).loops

theorem good_fork (hs : s.Good) (hcur : s.current = some a) (hk : 2 ≤ kinds.length) :
    (s.fork kinds v).Good :=
  good_branch v (extends_addBlocks kinds hs).good (by rw [current_addBlocks]; exact hcur)
    (unbegun_addBlocks kinds hs (i := 0) (by omega)) (unbegun_addBlocks kinds hs (by omega))
    (Nat.ne_of_lt (Nat.lt_succ_self _))

theorem grows_fork (hs : s.Good) (hcur : s.current = some a) : Grows s (s.fork kinds v) :=
  (extends_addBlocks kinds hs).grows.trans
    (grows_branch v (extends_addBlocks kinds hs).good (by rw [current_addBlocks]; exact hcur))

theorem local_fork (free : BlockId → Prop) (hs : s.Good) (hcur : s.current = some a) :
    Local free s (s.fork kinds v) :=
  Local.branch v ((Local.refl free s).extend (extends_addBlocks kinds hs) fun _ hf => hf.elim)
    (extends_addBlocks kinds hs).good (by rw [current_addBlocks]; exact hcur) le_rfl (Nat.le_succ _)

theorem unbegun_fork (hs : s.Good) (hcur : s.current = some a) {i : Nat} (hi : i < kinds.length) :
    (s.fork kinds v).Unbegun (s.size + i : Nat) :=
  unbegun_branch v (extends_addBlocks kinds hs).good (by rw [current_addBlocks]; exact hcur)
    (unbegun_addBlocks kinds hs hi)

theorem code_fork (hs : s.Good) (hcur : s.current = some a) :
    (s.fork kinds v).code a = s.code a ++ [.branch v s.size (s.size + 1 : Nat)] := by
  have hcur' : (s.addBlocks kinds).current = some a := (current_addBlocks kinds s).trans hcur
  unfold fork
  rw [branch_eq hcur', code_recordEdge, code_recordEdge,
    code_close (extends_addBlocks kinds hs).good hcur', if_pos rfl, code_addBlocks]

/-- The first two of the new blocks have one edge each, and the others none. -/
theorem edgesTo_fork (hs : s.Good) (hcur : s.current = some a) (i : Nat) :
    (s.fork kinds v).edgesTo (s.size + i : Nat) =
      if i < 2 then [⟨a, (s.size + i : Nat), s.bindings⟩] else [] := by
  have hnil : (s.addBlocks kinds).edgesTo (s.size + i : Nat) = [] :=
    (extends_addBlocks kinds hs).edges_new _ (Nat.le_add_right _ _)
  unfold fork
  rw [edgesTo_branch v (by rw [current_addBlocks]; exact hcur), hnil, bindings_addBlocks]
  match i with
  | 0 => simp
  | 1 => simp
  | i + 2 => simp

end Fork

/-! ### Two ways that meet -/

/-- The edge from where a builder is, if control is there, to a block. -/
def exitEdge (s : Builder) (b : BlockId) : List Edge :=
  s.current.toList.map fun a => ⟨a, b, s.bindings⟩

theorem edgesTo_jump_self (s : Builder) (b : BlockId) :
    (s.jump b).edgesTo b = s.edgesTo b ++ s.exitEdge b := by
  rw [edgesTo_jump, if_pos rfl]
  rfl

theorem edgesTo_jump_ne (s : Builder) {c : BlockId} (h : b ≠ c) :
    (s.jump b).edgesTo c = s.edgesTo c := by
  rw [edgesTo_jump, if_neg h, List.append_nil]

/-- The targets of loops are older blocks. -/
theorem Good.loops_ne (hs : s.Good) (hb : s.size ≤ b) :
    ∀ l ∈ s.loops, l.onContinue ≠ b ∧ l.onBreak ≠ b := by
  intro l hl
  obtain ⟨h₁, h₂⟩ := hs.loops l hl
  exact ⟨fun h => absurd h₁.lt (Nat.not_lt.mpr (h ▸ hb)), fun h => absurd h₂.lt (Nat.not_lt.mpr (h ▸ hb))⟩

/-- A builder that is to begin the block `b`, where the ways through a piece that
began at `s` meet. -/
structure Joining (free : BlockId → Prop) (s : Builder) (b : BlockId) (x : Builder) : Prop where
  grows : Grows s x
  good : x.Good
  current : x.current = none
  loops : x.loops = s.loops
  near : Local free s x
  fresh : s.size ≤ b
  unbegun : x.Unbegun b
  others : ∀ c, s.size ≤ c → c ≠ b → x.edgesTo c = []

theorem Joining.extends_enter (hs : s.Good) (h : Joining free s b x) : Extends free s (x.enter b) := by
  refine ⟨h.grows.trans (grows_enter h.good h.current h.unbegun), h.near.enter h.fresh h.unbegun,
    good_enter h.good h.unbegun ?_, by rw [loops_enter, h.loops], fun c hc => ?_⟩
  · rw [h.loops]
    exact hs.loops_ne h.fresh
  · rw [edgesTo_enter]
    split_ifs with hcb
    · rfl
    · exact h.others c hc hcb

theorem Joining.extends_enterPhi (hs : s.Good) (h : Joining free s b x) (ty : Ty)
    (entries : List (Value × BlockId)) : Extends free s (x.enterPhi b ty entries) := by
  refine ⟨h.grows.trans (grows_enterPhi ty entries h.good h.current h.unbegun),
    h.near.enterPhi ty entries h.good h.fresh h.unbegun, good_enterPhi ty entries h.good h.unbegun ?_,
    by rw [loops_enterPhi, h.loops], fun c hc => ?_⟩
  · rw [h.loops]
    exact hs.loops_ne h.fresh
  · rw [edgesTo_enterPhi]
    split_ifs with hcb
    · rfl
    · exact h.others c hc hcb

/-- The first way of a fork begins with the bindings there were. -/
theorem enter_fork_first {a : BlockId} (kinds : List String) (v : Value) (hs : s.Good)
    (hcur : s.current = some a) (hk : 2 ≤ kinds.length) :
    ((s.fork kinds v).enter s.size).Good ∧
      ((s.fork kinds v).enter s.size).current = some s.size ∧
      ((s.fork kinds v).enter s.size).bindings = s.bindings ∧
      ((s.fork kinds v).enter s.size).loops = s.loops ∧
      Grows s ((s.fork kinds v).enter s.size) := by
  have h : (s.fork kinds v).edgesTo s.size = [⟨a, s.size, s.bindings⟩] := edgesTo_fork kinds v hs hcur 0
  have hgood := good_fork kinds v hs hcur hk
  have hun : (s.fork kinds v).Unbegun s.size := unbegun_fork kinds v hs hcur (i := 0) (by omega)
  refine ⟨good_enter hgood hun ?_, ?_, ?_, (loops_enter _ _).trans (loops_fork kinds v hs hcur),
    (grows_fork kinds v hs hcur).trans (grows_enter hgood (current_fork kinds v hcur) hun)⟩
  · rw [loops_fork kinds v hs hcur]
    exact hs.loops_ne le_rfl
  · rw [enter_of_one h]
  · rw [enter_of_one h]

/-- The builder where the second way of a fork begins, `x` being the builder at
the end of the first. -/
def secondWay (s x : Builder) : Builder := (x.jump (s.size + 2 : Nat)).enter (s.size + 1 : Nat)

/-- What is known where the second way of a fork begins: it has the bindings there
were before, and the edge from the end of the first waits for the block where
the two ways meet. -/
structure Forked (free : BlockId → Prop) (s : Builder) (a : BlockId) (x : Builder) : Prop where
  before : (x.jump (s.size + 2 : Nat)).Good
  second : (x.jump (s.size + 2 : Nat)).Unbegun (s.size + 1 : Nat)
  edge : (x.jump (s.size + 2 : Nat)).edgesTo (s.size + 1 : Nat) =
    [⟨a, (s.size + 1 : Nat), s.bindings⟩]
  good : (s.secondWay x).Good
  grows : Grows x (s.secondWay x)
  current : (s.secondWay x).current = some (s.size + 1 : Nat)
  bindings : (s.secondWay x).bindings = s.bindings
  loops : (s.secondWay x).loops = s.loops
  near : Local free s (s.secondWay x)
  meet : (s.secondWay x).Unbegun (s.size + 2 : Nat)
  edges : ∀ b : BlockId, s.size ≤ b → (s.secondWay x).edgesTo b =
    if b = (s.size + 2 : Nat) then x.exitEdge (s.size + 2 : Nat) else []

/-- What is known where the two ways of a fork meet, `x` and `y` being the
builders at their ends. -/
structure Diamond (free : BlockId → Prop) (s x y : Builder) : Prop where
  grows : Grows y (y.jump (s.size + 2 : Nat))
  join : Joining free s (s.size + 2 : Nat) (y.jump (s.size + 2 : Nat))
  edges : (y.jump (s.size + 2 : Nat)).edgesTo (s.size + 2 : Nat) =
    x.exitEdge (s.size + 2 : Nat) ++ y.exitEdge (s.size + 2 : Nat)

section Diamond

variable {free : BlockId → Prop} {s x y : Builder} {a : BlockId} {kinds : List String} {v : Value}

section

variable (hs : s.Good) (hcur : s.current = some a) (hfree : ∀ b, free b → b < s.size)
  (hx : Extends free ((s.fork kinds v).enter s.size) x)

include hs hcur hfree hx

/-- Of the new blocks, only the second has an edge at the end of the first way. -/
theorem edgesTo_first (hk : 2 ≤ kinds.length) (i : Nat) : x.edgesTo (s.size + i : Nat) =
    if i = 1 then [⟨a, (s.size + 1 : Nat), s.bindings⟩] else [] := by
  obtain ⟨hA, -⟩ := enter_fork_first kinds v hs hcur hk
  rw [hx.edgesTo_eq hA fun hf => absurd (hfree _ hf) (Nat.not_lt.mpr (Nat.le_add_right _ _)), edgesTo_enter,
    edgesTo_fork kinds v hs hcur]
  match i with
  | 0 => simp
  | 1 => simp
  | i + 2 => simp

variable (hk : kinds.length = 3)

include hk

theorem forked : Forked free s a x := by
  have hedgesX := edgesTo_first hs hcur hfree hx (by omega)
  set n : Nat := s.size with hn
  obtain ⟨-, -, -, hloopsA, -⟩ := enter_fork_first kinds v hs hcur (by omega)
  have hun : ∀ i, i < 3 → (s.fork kinds v).Unbegun (n + i : Nat) := fun i hi =>
    unbegun_fork kinds v hs hcur (by omega)
  have hlocA : Local free s ((s.fork kinds v).enter n) :=
    (local_fork kinds v free hs hcur).enter le_rfl (hun 0 (by omega))
  -- the end of the first way
  have hunX : ∀ i, i ≠ 0 → i < 3 → x.Unbegun (n + i : Nat) := fun i h0 hi =>
    hx.near.unbegun (unbegun_enter (hun 0 (by omega)) (hun i hi) fun h => h0 (Nat.add_left_cancel h))
  have hgoodJ : (x.jump (n + 2 : Nat)).Good := good_jump hx.good (hunX 2 (by omega) (by omega))
  have hunJ : ∀ i, i ≠ 0 → i < 3 → (x.jump (n + 2 : Nat)).Unbegun (n + i : Nat) := fun i h0 hi =>
    unbegun_jump hx.good (hunX i h0 hi)
  have hedgesJ : (x.jump (n + 2 : Nat)).edgesTo (n + 1 : Nat) = [⟨a, (n + 1 : Nat), s.bindings⟩] := by
    rw [edgesTo_jump_ne _ (Nat.ne_of_gt (by omega)), hedgesX]
    rfl
  have hloopsJ : (x.jump (n + 2 : Nat)).loops = s.loops := by
    rw [loops_jump, hx.loops, hloopsA]
  -- the beginning of the second way
  refine ⟨hgoodJ, hunJ 1 (by omega) (by omega), hedgesJ,
    good_enter hgoodJ (hunJ 1 (by omega) (by omega)) ?_,
    (grows_jump hx.good _).trans (grows_enter hgoodJ (current_jump _ _) (hunJ 1 (by omega) (by omega))),
    ?_, ?_, (loops_enter _ _).trans hloopsJ, ?_,
    unbegun_enter (hunJ 1 (by omega) (by omega)) (hunJ 2 (by omega) (by omega)) (Nat.ne_of_gt (by omega)),
    fun b hb => ?_⟩
  · rw [hloopsJ]
    exact hs.loops_ne (Nat.le_succ _)
  · unfold secondWay
    rw [enter_of_one hedgesJ]
  · unfold secondWay
    rw [enter_of_one hedgesJ]
  · exact ((hlocA.extend hx fun b hf => Or.inr hf).jump hx.good (Or.inl (Nat.le_add_right _ _))).enter
      (Nat.le_succ _) (hunJ 1 (by omega) (by omega))
  · unfold secondWay
    rw [← hn, edgesTo_enter, edgesTo_jump]
    obtain ⟨i, rfl⟩ : ∃ i, b = (n + i : Nat) := ⟨b - n, (Nat.add_sub_of_le hb).symm⟩
    rw [hedgesX]
    match i with
    | 0 => simp
    | 1 => simp
    | 2 => simp [exitEdge]
    | i + 3 => simp

theorem diamond (hy : Extends free (s.secondWay x) y) : Diamond free s x y := by
  have hf := forked hs hcur hfree hx hk
  obtain ⟨-, -, -, -, hgrowsA⟩ := enter_fork_first kinds v hs hcur (by omega)
  have hmeet : y.Unbegun (s.size + 2 : Nat) := hy.near.unbegun hf.meet
  have hedges : ∀ b : BlockId, s.size ≤ b → y.edgesTo b =
      if b = (s.size + 2 : Nat) then x.exitEdge (s.size + 2 : Nat) else [] := fun b hb =>
    (hy.edgesTo_eq hf.good fun h => absurd (hfree b h) (Nat.not_lt.mpr hb)).trans (hf.edges b hb)
  have hgrows : Grows y (y.jump (s.size + 2 : Nat)) := grows_jump hy.good _
  refine ⟨hgrows, ⟨hgrowsA.trans (hx.grows.trans (hf.grows.trans (hy.grows.trans hgrows))),
    good_jump hy.good hmeet, current_jump _ _, ?_,
    (hf.near.extend hy fun b hf => Or.inr hf).jump hy.good (Or.inl (Nat.le_add_right _ _)),
    Nat.le_add_right _ _, unbegun_jump hy.good hmeet, fun b hb hne => ?_⟩, ?_⟩
  · rw [loops_jump, hy.loops, hf.loops]
  · rw [edgesTo_jump_ne _ hne.symm, hedges b hb, if_neg hne]
  · rw [edgesTo_jump_self, hedges _ (Nat.le_add_right _ _), if_pos rfl]

end

end Diamond

/-! ### A way and its detour -/

/-- What is known where a way and its detour meet, `x` being the builder at the
end of the way. The edge of the detour has the bindings there were before. -/
structure Detour (free : BlockId → Prop) (s : Builder) (a : BlockId) (x : Builder) : Prop where
  grows : Grows x (x.jump (s.size + 1 : Nat))
  join : Joining free s (s.size + 1 : Nat) (x.jump (s.size + 1 : Nat))
  edges : (x.jump (s.size + 1 : Nat)).edgesTo (s.size + 1 : Nat) =
    ⟨a, (s.size + 1 : Nat), s.bindings⟩ :: x.exitEdge (s.size + 1 : Nat)

theorem detour {a : BlockId} {kinds : List String} {v : Value} (hs : s.Good)
    (hcur : s.current = some a) (hk : kinds.length = 2) (hfree : ∀ b, free b → b < s.size)
    (hx : Extends free ((s.fork kinds v).enter s.size) x) : Detour free s a x := by
  have hedges := edgesTo_first hs hcur hfree hx (by omega)
  set n : Nat := s.size
  obtain ⟨-, -, -, hloopsA, hgrowsA⟩ := enter_fork_first kinds v hs hcur (by omega)
  have hun : ∀ i, i < 2 → (s.fork kinds v).Unbegun (n + i : Nat) := fun i hi =>
    unbegun_fork kinds v hs hcur (by omega)
  have hlocA : Local free s ((s.fork kinds v).enter n) :=
    (local_fork kinds v free hs hcur).enter le_rfl (hun 0 (by omega))
  have hunX : x.Unbegun (n + 1 : Nat) := hx.near.unbegun
    (unbegun_enter (hun 0 (by omega)) (hun 1 (by omega)) (Nat.ne_of_gt (Nat.lt_succ_self _)))
  have hgrows : Grows x (x.jump (n + 1 : Nat)) := grows_jump hx.good _
  refine ⟨hgrows, ⟨hgrowsA.trans (hx.grows.trans hgrows), good_jump hx.good hunX,
    current_jump _ _, by rw [loops_jump, hx.loops, hloopsA],
    (hlocA.extend hx fun b hf => Or.inr hf).jump hx.good (Or.inl (Nat.le_succ _)), Nat.le_succ _,
    unbegun_jump hx.good hunX, fun b hb hne => ?_⟩, ?_⟩
  · obtain ⟨i, rfl⟩ : ∃ i, b = (n + i : Nat) := ⟨b - n, (Nat.add_sub_of_le hb).symm⟩
    rw [edgesTo_jump_ne _ hne.symm, hedges, if_neg]
    rintro rfl
    exact hne rfl
  · rw [edgesTo_jump_self, hedges, if_pos rfl]
    rfl

/-! ### Rounds of a loop -/

/-- The kinds of the blocks of a loop. -/
def loopKinds (hasStep : Bool) : List String :=
  if hasStep then ["body", "post", "cond", "exit"] else ["body", "cond", "exit"]

/-- The blocks of a loop, from the number `n` on. -/
def loopBlocks (n : Nat) (hasStep : Bool) : LoopBlocks :=
  if hasStep then ⟨n, some (n + 1 : Nat), (n + 2 : Nat), (n + 3 : Nat)⟩
  else ⟨n, none, (n + 1 : Nat), (n + 2 : Nat)⟩

theorem addLoopBlocks_eq (s : Builder) (hasStep : Bool) :
    s.addLoopBlocks hasStep = (loopBlocks s.size hasStep, s.addBlocks (loopKinds hasStep)) := by
  have h : ∀ (x : Builder) (k : String), (x.addBlock k).1 = x.size := fun _ _ => rfl
  cases hasStep
  · unfold addLoopBlocks loopBlocks loopKinds
    simp only [Bool.false_eq_true, if_false, h, size_addBlock, addBlocks]
  · unfold addLoopBlocks loopBlocks loopKinds
    simp only [if_true, h, size_addBlock, addBlocks]

/-- The blocks of a loop are not older than `n`, and different where they are
not one and the same. -/
structure Apart (l : LoopBlocks) (n : Nat) : Prop where
  body_ge : n ≤ l.body
  next_ge : n ≤ l.next
  cond_ge : n ≤ l.cond
  exit_ge : n ≤ l.exit
  body_next : l.body ≠ l.next
  body_cond : l.body ≠ l.cond
  body_exit : l.body ≠ l.exit
  next_exit : l.next ≠ l.exit
  cond_exit : l.cond ≠ l.exit

theorem apart_loopBlocks (n : Nat) (hasStep : Bool) : Apart (loopBlocks n hasStep) n := by
  cases hasStep <;> constructor <;> simp [loopBlocks, LoopBlocks.next]

theorem unbegun_loopBlocks (hs : s.Good) (hasStep : Bool) :
    (s.addBlocks (loopKinds hasStep)).Unbegun (loopBlocks s.size hasStep).body ∧
      (s.addBlocks (loopKinds hasStep)).Unbegun (loopBlocks s.size hasStep).next ∧
      (s.addBlocks (loopKinds hasStep)).Unbegun (loopBlocks s.size hasStep).cond ∧
      (s.addBlocks (loopKinds hasStep)).Unbegun (loopBlocks s.size hasStep).exit := by
  have h : ∀ i, i < (loopKinds hasStep).length →
      (s.addBlocks (loopKinds hasStep)).Unbegun (s.size + i : Nat) := fun i hi =>
    unbegun_addBlocks _ hs hi
  cases hasStep
  · exact ⟨h 0 (by decide), h 1 (by decide), h 1 (by decide), h 2 (by decide)⟩
  · exact ⟨h 0 (by decide), h 1 (by decide), h 2 (by decide), h 3 (by decide)⟩

/-- The builder where the body of a loop begins. -/
def startLoop (s : Builder) (hasStep : Bool) (pre : BlockId) (guard : Value) (symbols : IdSet) :
    List (Nat × Value) × Builder :=
  (s.addBlocks (loopKinds hasStep)).openLoop (loopBlocks s.size hasStep) pre guard symbols

theorem carried_addBlocks (s : Builder) (kinds : List String) (symbols : IdSet) :
    (s.addBlocks kinds).carried symbols = s.carried symbols := by
  unfold carried
  rw [bindings_addBlocks]

/-- What is known of the builder where the body of a loop begins. -/
structure Opened (s : Builder) (l : LoopBlocks) (pre : BlockId) (guard : Value)
    (symbols : IdSet) (x : Builder) : Prop where
  good : x.Good
  grows : Grows s x
  near : ∀ free, Local free s x
  current : x.current = some l.body
  count : x.count = s.count + (s.carried symbols).length
  loops : x.loops = ⟨l.next, l.exit⟩ :: s.loops
  bindings : x.bindings = rebind s.bindings (headerTargets s.count (s.carried symbols))
  phis : x.code l.body = headerPhis pre s.count (s.carried symbols)
  test : x.code pre = s.code pre ++ [.branch guard l.body l.exit]
  edges : ∀ b, s.size ≤ b →
    x.edgesTo b = if b = l.exit then [⟨pre, l.exit, s.bindings⟩] else []
  next : x.Unbegun l.next
  cond : x.Unbegun l.cond
  exit : x.Unbegun l.exit

section Loop

variable {s : Builder} {pre : BlockId} {guard : Value} {symbols : IdSet}

theorem startLoop_fst (hs : s.Good) (hcur : s.current = some pre) (hasStep : Bool) :
    (s.startLoop hasStep pre guard symbols).1 = headerTargets s.count (s.carried symbols) := by
  have hx := extends_addBlocks (loopKinds hasStep) hs
  obtain ⟨hbody, -⟩ := unbegun_loopBlocks hs hasStep
  obtain ⟨h, -⟩ := openLoop_facts hx.good ((current_addBlocks _ s).trans hcur) hbody guard symbols
  rwa [count_addBlocks, carried_addBlocks] at h

theorem opened (hs : s.Good) (hcur : s.current = some pre) (hasStep : Bool) :
    Opened s (loopBlocks s.size hasStep) pre guard symbols
      (s.startLoop hasStep pre guard symbols).2 := by
  have hx := extends_addBlocks (loopKinds hasStep) hs
  have hcur₁ := (current_addBlocks (loopKinds hasStep) s).trans hcur
  have hnil : ∀ b, s.size ≤ b → (s.addBlocks (loopKinds hasStep)).edgesTo b = [] := hx.edges_new
  have hl := apart_loopBlocks s.size hasStep
  obtain ⟨hbody, hnext, hcond, hexit⟩ := unbegun_loopBlocks hs hasStep
  set l := loopBlocks s.size hasStep
  set s₁ := s.addBlocks (loopKinds hasStep)
  obtain ⟨-, h₂, -, h₃, h₄, h₅, h₆, h₇, h₈⟩ := openLoop_facts hx.good hcur₁ hbody guard symbols
  have hun : ∀ c, c ≠ l.body → s₁.Unbegun c → (s₁.openLoop l pre guard symbols).2.Unbegun c := by
    intro c hne hc
    have hc' := unbegun_leaveFor (l := l) (c := guard) hx.good hcur₁ hc
    refine ⟨h₃ ▸ hc.lt, by rw [h₈, if_neg hne, hc'.code], fun h => ?_⟩
    rw [h₂] at h
    exact hne (Option.some.inj h).symm
  have hpre : pre ≠ l.body := fun h => absurd (hs.current _ hcur).1 (Nat.not_lt.mpr (h ▸ hl.body_ge))
  unfold startLoop
  refine ⟨good_openLoop hx.good hcur₁ hbody hnext hexit hl.body_next hl.body_exit (hnil _ hl.body_ge)
      (fun t ht => hs.loops_ne hl.body_ge t (hx.loops ▸ ht)) guard symbols,
    hx.grows.trans (grows_openLoop hx.good hcur₁ hbody guard symbols),
    fun free => ((Local.refl free s).extend hx fun _ hf => hf.elim).openLoop hx.good hcur₁ hbody
      hl.body_ge hl.exit_ge guard symbols,
    h₂, ?_, ?_, ?_, ?_, ?_, fun b hb => ?_, hun _ hl.body_next.symm hnext, hun _ hl.body_cond.symm hcond,
    hun _ hl.body_exit.symm hexit⟩
  · rw [h₄, carried_addBlocks, count_addBlocks]
  · rw [h₆, hx.loops]
  · rw [h₇, carried_addBlocks, count_addBlocks, bindings_addBlocks]
  · rw [h₈, if_pos rfl, carried_addBlocks, count_addBlocks]
  · rw [h₈, if_neg hpre, code_leaveFor hx.good hcur₁, if_pos rfl, code_addBlocks]
  · rw [edgesTo_append h₅, hnil b hb, bindings_addBlocks, List.nil_append]
    simp only [eq_comm]

/-- A builder that is to begin the block `b` of a loop that was opened at `s`. -/
structure Turning (free : BlockId → Prop) (s : Builder) (l : LoopBlocks) (pre : BlockId)
    (symbols : IdSet) (b : BlockId) (x : Builder) : Prop where
  grows : Grows s x
  good : x.Good
  current : x.current = none
  loops : x.loops = s.loops
  near : Local free s x
  phis : headerPhis pre s.count (s.carried symbols) <+: x.code l.body
  body_lt : l.body < x.size
  unbegun : x.Unbegun b
  cond : x.Unbegun l.cond
  exit : x.Unbegun l.exit
  outside : ⟨pre, l.exit, s.bindings⟩ ∈ x.edgesTo l.exit
  others : ∀ c, s.size ≤ c → c ≠ b → c ≠ l.exit → x.edgesTo c = []

/-- The loop around this place is left. -/
def leaveLoop (s : Builder) : Builder := { s with loops := s.loops.tail }

theorem good_leaveLoop {s : Builder} (hs : s.Good) : s.leaveLoop.Good :=
  hs.setLoops _ fun t ht => hs.loops t (List.mem_of_mem_tail ht)

theorem grows_leaveLoop (s : Builder) : Grows s s.leaveLoop := .of_eq rfl le_rfl le_rfl (fun _ => rfl) rfl

theorem Local.leaveLoop {free : BlockId → Prop} {base s : Builder} (h : Local free base s) :
    Local free base s.leaveLoop :=
  ⟨h.size_le, h.code_eq, h.code_kept, h.current, h.edges_old, h.edges_same⟩

/-- The end of a loop's body: the loop is left, and control goes on. -/
def endBody (s : Builder) (l : LoopBlocks) : Builder := s.leaveLoop.jump l.next

theorem edgesTo_endBody (s : Builder) (l : LoopBlocks) (b : BlockId) :
    (s.endBody l).edgesTo b = s.edgesTo b ++ if l.next = b then s.exitEdge l.next else [] :=
  edgesTo_jump s.leaveLoop l.next b

theorem grows_endBody {s : Builder} (hs : s.Good) (l : LoopBlocks) : Grows s (s.endBody l) :=
  (grows_leaveLoop s).trans (grows_jump (good_leaveLoop hs) l.next)

theorem Local.endBody {free : BlockId → Prop} {base s : Builder} {l : LoopBlocks} (h : Local free base s)
    (hs : s.Good) (hn : base.size ≤ l.next ∨ free l.next) : Local free base (s.endBody l) :=
  h.leaveLoop.jump (good_leaveLoop hs) hn

variable {free : BlockId → Prop} {l : LoopBlocks}

/-- What waits at the end of a loop's body. -/
theorem turning_body {x s₃ : Builder} (hl : Apart l s.size) (ho : Opened s l pre guard symbols x)
    (hx : Extends (LoopTarget x) x s₃) :
    Turning free s l pre symbols l.next (s₃.endBody l) := by
  have hun : ∀ c, x.Unbegun c → (s₃.endBody l).Unbegun c := fun c hc =>
    unbegun_jump (good_leaveLoop hx.good) ((hx.near.unbegun hc).of_eq le_rfl rfl rfl)
  have htarget : ∀ c, LoopTarget x c → c = l.next ∨ c = l.exit := by
    rintro c ⟨t, ht, hc⟩
    rw [ho.loops] at ht
    obtain rfl := Option.some.inj ht
    exact hc
  have hnear₃ : Local free s s₃ := (ho.near free).extend hx fun c hc => by
    rcases htarget c hc with rfl | rfl
    · exact Or.inl hl.next_ge
    · exact Or.inl hl.exit_ge
  have hbody : x.code l.body <+: (s₃.endBody l).code l.body :=
    (hx.near.code_kept l.body).trans
      (((Local.refl (· = l.next) s₃).endBody hx.good (Or.inr rfl)).code_kept l.body)
  refine ⟨ho.grows.trans (hx.grows.trans (grows_endBody hx.good l)),
    good_jump (good_leaveLoop hx.good) ((hx.near.unbegun ho.next).of_eq le_rfl rfl rfl), current_jump _ _, ?_,
    hnear₃.endBody hx.good (Or.inl hl.next_ge), ?_, ?_, hun _ ho.next, hun _ ho.cond, hun _ ho.exit, ?_,
    fun c hc hne hne' => ?_⟩
  · refine (loops_jump _ _).trans ?_
    change s₃.loops.tail = s.loops
    rw [hx.loops, ho.loops, List.tail_cons]
  · rwa [ho.phis] at hbody
  · exact ((ho.good.current _ ho.current).1.trans_le hx.near.size_le).trans_le
      (grows_endBody hx.good l).size_le
  · rw [edgesTo_endBody, List.mem_append]
    refine Or.inl ((hx.near.edges_old l.exit ho.exit.lt).subset ?_)
    rw [ho.edges _ hl.exit_ge, if_pos rfl]
    exact List.mem_singleton_self _
  · have hnot : ¬ LoopTarget x c := fun h => (htarget c h).elim hne hne'
    rw [edgesTo_endBody, if_neg hne.symm, hx.edgesTo_eq ho.good hnot, ho.edges c hc, if_neg hne']
    rfl

/-- A builder that is somewhere in a loop that was opened at `s`, where only the
exit waits to be begun, or the test too. -/
structure Inside (free : BlockId → Prop) (s : Builder) (l : LoopBlocks) (pre : BlockId)
    (symbols : IdSet) (x : Builder) : Prop where
  grows : Grows s x
  good : x.Good
  loops : x.loops = s.loops
  near : Local free s x
  phis : headerPhis pre s.count (s.carried symbols) <+: x.code l.body
  body_lt : l.body < x.size
  exit : x.Unbegun l.exit
  outside : ⟨pre, l.exit, s.bindings⟩ ∈ x.edgesTo l.exit
  others : ∀ c, s.size ≤ c → c ≠ l.exit → x.edgesTo c = []

section Round

variable {b : BlockId} {x y : Builder}

section

variable (ht : Turning free s l pre symbols b x) (hs : s.Good)

include ht hs

theorem Turning.good_enter (hb : s.size ≤ b) : (x.enter b).Good := by
  refine Builder.good_enter ht.good ht.unbegun ?_
  rw [ht.loops]
  exact hs.loops_ne hb

/-- A block of a loop is begun, and a piece is built there. -/
theorem Turning.extend (hl : Apart l s.size) (hb : s.size ≤ b) (hbb : l.body ≠ b) (hbe : b ≠ l.exit)
    (hfree : ∀ c, free c → c < s.size) (hx : Extends free (x.enter b) y) : Inside free s l pre symbols y := by
  have hg := ht.good_enter hs hb
  have hnot : ∀ c, s.size ≤ c → ¬ free c := fun c hc hf => absurd (hfree c hf) (Nat.not_lt.mpr hc)
  have hedges : ∀ c, s.size ≤ c → c ≠ b → y.edgesTo c = x.edgesTo c := fun c hc hne => by
    rw [hx.edgesTo_eq hg (hnot c hc), edgesTo_enter, if_neg hne]
  refine ⟨ht.grows.trans ((grows_enter ht.good ht.current ht.unbegun).trans hx.grows), hx.good,
    by rw [hx.loops, loops_enter, ht.loops],
    (ht.near.enter hb ht.unbegun).extend hx fun c hc => Or.inr hc, ?_, ?_,
    hx.near.unbegun (unbegun_enter ht.unbegun ht.exit hbe.symm), ?_, fun c hc hne => ?_⟩
  · refine ht.phis.trans (List.IsPrefix.trans ?_ (hx.near.code_kept l.body))
    rw [code_enter ht.unbegun, if_neg hbb]
  · exact ht.body_lt.trans_le ((size_enter x b).ge.trans hx.near.size_le)
  · rw [hedges _ hl.exit_ge hbe.symm]
    exact ht.outside
  · by_cases hcb : c = b
    · rw [hx.edgesTo_eq hg (hnot c hc), edgesTo_enter, if_pos hcb]
    · rw [hedges c hc hcb, ht.others c hc hcb hne]

/-- The edges to the exit of a loop are still there. -/
theorem Turning.edgesTo_exit (hl : Apart l s.size) (hb : s.size ≤ b) (hbe : b ≠ l.exit)
    (hfree : ∀ c, free c → c < s.size) (hx : Extends free (x.enter b) y) :
    y.edgesTo l.exit = x.edgesTo l.exit := by
  rw [hx.edgesTo_eq (ht.good_enter hs hb) fun hf => absurd (hfree _ hf) (Nat.not_lt.mpr hl.exit_ge),
    edgesTo_enter, if_neg hbe.symm]

end

/-- What waits at the end of a loop's step. -/
theorem turning_step (ht : Turning free s l pre symbols l.next x) (hs : s.Good) (hl : Apart l s.size)
    (hne : l.next ≠ l.cond) (hfree : ∀ c, free c → c < s.size)
    (hx : Extends free (x.enter l.next) y) : Turning free s l pre symbols l.cond (y.jump l.cond) := by
  have hin := ht.extend hs hl hl.next_ge hl.body_next hl.next_exit hfree hx
  have hcond : y.Unbegun l.cond := hx.near.unbegun (unbegun_enter ht.unbegun ht.cond hne.symm)
  have hjump := (Local.refl (· = l.cond) y).jump hin.good (Or.inr rfl)
  refine ⟨hin.grows.trans (grows_jump hin.good _), good_jump hin.good hcond, current_jump _ _,
    by rw [loops_jump, hin.loops], hin.near.jump hin.good (Or.inl hl.cond_ge),
    hin.phis.trans (hjump.code_kept _), hin.body_lt.trans_le hjump.size_le,
    unbegun_jump hin.good hcond, unbegun_jump hin.good hcond, unbegun_jump hin.good hin.exit, ?_,
    fun c hc hne hne' => ?_⟩
  · rw [edgesTo_jump_ne _ hl.cond_exit]
    exact hin.outside
  · rw [edgesTo_jump_ne _ hne.symm]
    exact hin.others c hc hne'

/-- A loop whose test is not reached is left by its exit. -/
theorem joining_of_nil (ht : Turning free s l pre symbols l.cond x) (hs : s.Good) (hl : Apart l s.size)
    (hfree : ∀ c, free c → c < s.size) (hnil : x.edgesTo l.cond = []) :
    Joining free s l.exit (x.enter l.cond) := by
  have hin := ht.extend hs hl hl.cond_ge hl.body_cond hl.cond_exit hfree
    (.refl free (ht.good_enter hs hl.cond_ge))
  refine ⟨hin.grows, hin.good, ?_, hin.loops, hin.near, hl.exit_ge, hin.exit, hin.others⟩
  rw [current_enter, if_pos hnil]

/-- The phis at the head of a loop get their second entries. -/
structure Closed (s : Builder) (l : LoopBlocks) (pre latch : BlockId) (symbols : IdSet)
    (x y : Builder) : Prop where
  bound : ∀ p ∈ s.carried symbols, ∃ v, x.bindings.get? p.1 = some v
  current : y.current = x.current
  bindings : y.bindings = x.bindings
  good : y.Good
  grows : Grows x y
  size : y.size = x.size
  count : y.count = x.count
  loops : y.loops = x.loops
  edges : ∀ b, y.edgesTo b = x.edgesTo b
  phis : closedPhis pre latch x.bindings s.count (s.carried symbols) <+: y.code l.body
  code : ∀ b, b ≠ l.body → y.code b = x.code b
  length : ∀ b, (y.code b).length = (x.code b).length

theorem closed {latch : BlockId} (hin : Inside free s l pre symbols x)
    (h : closeHeader l.body latch (headerTargets s.count (s.carried symbols)) x = .ok y) :
    Closed s l pre latch symbols x y := by
  obtain ⟨tail, htail⟩ := hin.phis
  obtain ⟨h₁, h₀, h₂, h₃, h₄, h₅, h₆, h₇, h₈⟩ := closeHeader_facts l.body pre latch tail (s.carried symbols)
    s.count [] x y h hin.body_lt htail.symm (by simp)
  have hcode : ∀ c, Widened (x.code c) (y.code c) := by
    intro c
    rw [h₈]
    split_ifs with hc
    · rw [hc, ← htail]
      exact (widened_closedPhis pre latch x.bindings _ _).append (.refl tail)
    · exact .refl _
  refine ⟨h₁, h₂, h₃, good_of_widened h₂ h₄ h₆.ge hcode hin.good h₃ h₅ h₇,
    grows_of_widened h₂ h₆.ge hcode h₀ h₇, h₆, h₇, h₅, edgesTo_of_pending h₄, ?_, fun b hb => by rw [h₈, if_neg hb],
    fun b => (hcode b).length_eq.symm⟩
  rw [h₈, if_pos rfl]
  exact List.prefix_append _ _

/-- A loop is left by its exit, from its test. -/
theorem joining_of_test {latch : BlockId} (hin : Inside free s l pre symbols x) (hl : Apart l s.size)
    (hcur : x.current = some latch) (hc : Closed s l pre latch symbols x y) (c : Value) :
    Joining free s l.exit (y.leaveFor l latch c) := by
  have hcur' := hc.current.trans hcur
  have hexit : y.Unbegun l.exit := by
    refine ⟨hc.size ▸ hin.exit.lt, ?_, hc.current ▸ hin.exit.current⟩
    rw [hc.code _ hl.body_exit.symm, hin.exit.code]
  have hne : ∀ b, b < s.size → b ≠ l.body := fun b hb h => absurd hb (Nat.not_lt.mpr (h ▸ hl.body_ge))
  have hnear : Local free s y := hin.near.step hc.size.ge (fun b hb _ => hc.code b (hne b hb))
    (fun b hb => by rw [hc.code b (hne b hb)]) (fun b hb => Or.inl (hc.current ▸ hb))
    (fun b _ => by rw [hc.edges]) (fun b _ _ => hc.edges b)
  refine ⟨hin.grows.trans (hc.grows.trans (grows_leaveFor hc.good hcur')), good_leaveFor hc.good hcur' hexit,
    rfl, hc.loops.trans hin.loops, hnear.leaveFor hc.good hcur' hl.exit_ge, hl.exit_ge,
    unbegun_leaveFor hc.good hcur' hexit, fun b hb hbe => ?_⟩
  rw [edgesTo_leaveFor, if_neg hbe.symm, hc.edges, hin.others b hb hbe]
  rfl

end Round

end Loop

end Builder
end Chordal.Ssa
