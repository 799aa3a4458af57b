/-
# The layout is the depth-first order

Visiting a block depth first puts it behind the blocks that were visited before, and then visits
its targets one after another, each with all that it leads to. A layout is made by a
loop with a stack instead. It takes a block off the stack when it visits it, so a block
may wait there several times, and some wait there that were visited in the meantime. That does not
matter: what the loop has visited and what waits on its stack lead to the order in which
the blocks on the stack, from the top, are visited depth first behind the visited ones. A block
that was visited adds nothing, so leaving it off the stack changes nothing.

Key definitions: `Func.unvisited`, `Func.depthFirst`, `Func.visit`.
Key theorems: `Func.depthFirst_append`, `Func.depthFirst_filter`, `Func.visit_eq`,
`Func.walk_eq_depthFirst`, `Func.layout_is_depth_first`.
-/
import Mathlib
import Chordal.Proofs.Ssa.Line

namespace Chordal.Ssa.Func

variable {f : Func} {visited : List BlockId} {b : BlockId}

/-! ### Visiting depth first -/

/-- How many blocks have not been visited. -/
def unvisited (f : Func) (visited : List BlockId) : Nat := (Finset.range f.blocks.size \ visited.toFinset).card

theorem unvisited_lt {order : List BlockId} (hb : b ∉ visited) (hlt : b < f.blocks.size)
    (horder : visited ++ [b] <+: order) : f.unvisited order < f.unvisited visited := by
  unfold unvisited
  apply Finset.card_lt_card
  rw [Finset.ssubset_iff_of_subset]
  · refine ⟨b, by simp [hlt, hb], ?_⟩
    have hmem : b ∈ order := horder.subset (by simp)
    simp [hmem]
  · intro c hc
    rw [Finset.mem_sdiff, List.mem_toFinset] at hc ⊢
    exact ⟨hc.1, fun hv => hc.2 (horder.subset (List.mem_append_left [b] hv))⟩

/-- Visits blocks one after another, behind those that were visited: each is followed by all that
its targets lead to before the next one has its turn. A block that was visited is passed
over, and so is one that is not there. -/
def depthFirst (f : Func) (visited : List BlockId) :
    (blocks : List BlockId) → {order : List BlockId // visited <+: order}
  | [] => ⟨visited, List.prefix_rfl⟩
  | b :: rest =>
    if _h : b ∈ visited ∨ f.blocks.size ≤ b then f.depthFirst visited rest
    else
      let below := f.depthFirst (visited ++ [b]) (f.targets b)
      let order := f.depthFirst below.1 rest
      ⟨order.1, (List.prefix_append visited [b]).trans (below.2.trans order.2)⟩
termination_by blocks => (f.unvisited visited, blocks.length)
decreasing_by
  · exact Prod.Lex.right _ (Nat.lt_succ_self _)
  · rw [not_or, not_le] at _h
    exact Prod.Lex.left _ _ (unvisited_lt _h.1 _h.2 List.prefix_rfl)
  · rw [not_or, not_le] at _h
    exact Prod.Lex.left _ _ (unvisited_lt _h.1 _h.2 below.2)

/-- Visits one block, behind those that were visited, with all that it leads to. -/
def visit (f : Func) (visited : List BlockId) (b : BlockId) : List BlockId := (f.depthFirst visited [b]).1

theorem depthFirst_nil : (f.depthFirst visited []).1 = visited := by
  rw [depthFirst]

theorem depthFirst_skip {rest : List BlockId} (h : b ∈ visited ∨ f.blocks.size ≤ b) :
    (f.depthFirst visited (b :: rest)).1 = (f.depthFirst visited rest).1 := by
  rw [depthFirst, dif_pos h]

theorem depthFirst_visit {rest : List BlockId} (hb : b ∉ visited) (hlt : b < f.blocks.size) :
    (f.depthFirst visited (b :: rest)).1 =
      (f.depthFirst (f.depthFirst (visited ++ [b]) (f.targets b)).1 rest).1 := by
  rw [depthFirst, dif_neg]
  rw [not_or, not_le]
  exact ⟨hb, hlt⟩

/-- Blocks are visited one after another. -/
theorem depthFirst_append (f : Func) (cs : List BlockId) : ∀ (visited bs : List BlockId),
    (f.depthFirst visited (bs ++ cs)).1 = (f.depthFirst (f.depthFirst visited bs).1 cs).1
  | visited, [] => by rw [List.nil_append, depthFirst_nil]
  | visited, b :: bs => by
    rw [List.cons_append]
    by_cases h : b ∈ visited ∨ f.blocks.size ≤ b
    · rw [depthFirst_skip h, depthFirst_skip h, depthFirst_append f cs visited bs]
    · rw [not_or, not_le] at h
      rw [depthFirst_visit h.1 h.2, depthFirst_visit h.1 h.2, depthFirst_append f cs _ bs]

/-- Blocks that were visited may be left out. -/
theorem depthFirst_filter (f : Func) (p : BlockId → Bool) : ∀ (visited bs : List BlockId),
    (∀ b, p b = false → b ∈ visited) →
      (f.depthFirst visited (bs.filter p)).1 = (f.depthFirst visited bs).1
  | visited, [], _ => rfl
  | visited, b :: bs, hp => by
    by_cases h : b ∈ visited ∨ f.blocks.size ≤ b
    · rw [depthFirst_skip h, ← depthFirst_filter f p visited bs hp]
      by_cases hb : p b = true
      · rw [List.filter_cons_of_pos hb, depthFirst_skip h]
      · rw [List.filter_cons_of_neg hb]
    · rw [not_or, not_le] at h
      have hb : p b = true := by
        by_contra hb
        exact h.1 (hp b (Bool.not_eq_true _ ▸ hb))
      rw [List.filter_cons_of_pos hb, depthFirst_visit h.1 h.2, depthFirst_visit h.1 h.2]
      apply depthFirst_filter
      intro c hc
      exact (f.depthFirst (visited ++ [b]) (f.targets b)).2.subset (List.mem_append_left [b] (hp c hc))

/-- Visiting blocks one after another, as a loop. -/
theorem depthFirst_eq_foldl (f : Func) : ∀ (bs visited : List BlockId),
    (f.depthFirst visited bs).1 = bs.foldl f.visit visited
  | [], visited => depthFirst_nil
  | b :: bs, visited => by
    rw [← List.singleton_append, depthFirst_append, depthFirst_eq_foldl f bs]
    rfl

/-- The recursion: a block that was not visited comes behind the others, and then its targets are
visited in their order. -/
theorem visit_eq (hlt : b < f.blocks.size) :
    f.visit visited b = if b ∈ visited then visited else (f.targets b).foldl f.visit (visited ++ [b]) := by
  unfold visit
  split_ifs with hb
  · rw [depthFirst_skip (.inl hb), depthFirst_nil]
  · rw [depthFirst_visit hb hlt, depthFirst_nil, depthFirst_eq_foldl]
    rfl

/-! ### The loop -/

/-- The loop visits the blocks on its stack depth first, behind those it has visited. -/
theorem walk_eq_depthFirst (htargets : ∀ a, ∀ t ∈ f.targets a, t < f.blocks.size) :
    ∀ (rounds : Nat) (seen stack : List BlockId), (∀ b ∈ stack, b < f.blocks.size) →
      2 * f.unvisited seen.reverse + stack.length ≤ rounds →
      f.walk rounds seen stack = .ok (f.depthFirst seen.reverse stack).1 := by
  intro rounds
  induction rounds with
  | zero =>
    intro seen stack _ hle
    obtain rfl : stack = [] := List.length_eq_zero_iff.mp (by omega)
    rw [depthFirst_nil, walk]
  | succ rounds ih =>
    intro seen stack hstack hle
    cases stack with
    | nil => rw [depthFirst_nil, walk]
    | cons b stack =>
      have hlt := hstack b List.mem_cons_self
      have hrest : ∀ c ∈ stack, c < f.blocks.size := fun c hc => hstack c (List.mem_cons_of_mem b hc)
      rw [List.length_cons] at hle
      by_cases hb : b ∈ seen
      · rw [walk_skip hb, depthFirst_skip (.inl (List.mem_reverse.mpr hb))]
        exact ih seen stack hrest (by omega)
      · have hb' : b ∉ seen.reverse := fun h => hb (List.mem_reverse.mp h)
        -- one block less is unvisited, which pays for the two that are put on the stack
        have hfewer : f.unvisited (b :: seen).reverse < f.unvisited seen.reverse := by
          rw [List.reverse_cons]
          exact unvisited_lt hb' hlt List.prefix_rfl
        have hnew : ((f.targets b).filter fun t => !(b :: seen).contains t).length ≤ 2 :=
          (List.length_filter_le _ _).trans (length_targets_le f b)
        rw [walk_visit hlt hb, ih]
        · rw [depthFirst_append, depthFirst_filter, depthFirst_visit hb' hlt, List.reverse_cons]
          intro t ht
          rw [Bool.not_eq_false', List.contains_iff_mem] at ht
          exact List.mem_reverse.mpr ht
        · intro c hc
          rcases List.mem_append.mp hc with hc | hc
          · exact htargets b c (List.mem_filter.mp hc).1
          · exact hrest c hc
        · rw [List.length_append]
          omega

theorem unvisited_nil (f : Func) : f.unvisited [] = f.blocks.size := by
  simp [unvisited]

/-- **The layout is the depth-first order.** If the start and the targets of all blocks are there, the
loop comes to its end, and it gives the order of the recursion. The order begins with the
start and holds each block that can be reached once, and no other, and the line has each
instruction of these blocks once, block by block. -/
theorem layout_is_depth_first (hstart : f.start < f.blocks.size)
    (htargets : ∀ a, ∀ t ∈ f.targets a, t < f.blocks.size) :
    ∃ l, f.linear = .ok l ∧ l.func = f ∧ f.layout = .ok l.order ∧
      (∀ rounds, 2 * f.blocks.size + 1 ≤ rounds → f.walk rounds [] [f.start] = .ok l.order) ∧
      l.order = f.visit [] f.start ∧
      (∀ visited b, b < f.blocks.size → f.visit visited b =
        if b ∈ visited then visited else (f.targets b).foldl f.visit (visited ++ [b])) ∧
      l.order.head? = some f.start ∧ l.order.Nodup ∧ (∀ b, b ∈ l.order ↔ ∃ path, f.Path b path) ∧
      l.InLine := by
  have hwalk : ∀ rounds, 2 * f.blocks.size + 1 ≤ rounds →
      f.walk rounds [] [f.start] = .ok (f.visit [] f.start) := by
    intro rounds hle
    apply walk_eq_depthFirst htargets
    · intro b hb
      exact List.mem_singleton.mp hb ▸ hstart
    · rw [List.reverse_nil, unvisited_nil]
      exact hle
  have hrange : ∀ b path, f.Path b path → b < f.blocks.size := by
    intro b path hpath
    cases hpath with
    | start => exact hstart
    | step _ hb => exact htargets _ _ hb
  obtain ⟨order, horder, hlaid⟩ := exists_layout hrange
  obtain rfl : order = f.visit [] f.start := Except.ok.inj (horder.symm.trans (hwalk _ (Nat.le_succ _)))
  obtain ⟨rest, hfirst⟩ := hlaid.first
  refine ⟨⟨f, _⟩, linear_eq horder, rfl, horder, hwalk, rfl, fun _ _ => visit_eq, ?_, hlaid.nodup, ?_,
    Linear.inLine hlaid.nodup⟩
  · exact congrArg List.head? hfirst
  · intro b
    exact ⟨hlaid.reached b, fun ⟨path, hpath⟩ => (hlaid.mem_of_path hpath).1⟩

/-- A block with two ways to it, the shorter one laid out last, a way back to the start, and a block
that is not reached. -/
def crossing : Func where
  name := "main"
  returns := .int
  isEntry := true
  start := 0
  blocks := #[
    ⟨0, "entry", [.const ⟨0, .int⟩ 1, .branch ⟨0, .int⟩ 1 2], [3], [1, 2]⟩,
    ⟨1, "then", [.branch ⟨0, .int⟩ 2 3], [0, 4], [2, 3]⟩,
    ⟨2, "merge", [.ret ⟨0, .int⟩], [0, 1], []⟩,
    ⟨3, "latch", [.jump 0], [1], [0]⟩,
    ⟨4, "dead", [.jump 1], [], [1]⟩]
  valueCount := 1

theorem crossing_targets : ∀ a, ∀ t ∈ crossing.targets a, t < crossing.blocks.size := by
  have hall : ∀ a < crossing.blocks.size, ∀ t ∈ crossing.targets a, t < crossing.blocks.size := by decide
  exact fun a t ht => hall a (lt_of_mem_targets ht) t ht

/-- The block with two ways to it waits on the stack while it is visited by the longer way. -/
theorem crossing_layout : crossing.start < crossing.blocks.size ∧
    (∀ a, ∀ t ∈ crossing.targets a, t < crossing.blocks.size) ∧
    crossing.visit [] 0 = [0, 1, 2, 3] ∧ ∃ l, crossing.linear = .ok l ∧ l.order = [0, 1, 2, 3] ∧
      l.range 2 = (3, 4) ∧ l.range 4 = (0, 0) ∧ l.points.length = 5 := by
  have hstart : crossing.start < crossing.blocks.size := by decide
  obtain ⟨l, hl, hf, hlayout, -, hvisit, -, -, -, -, hline⟩ := layout_is_depth_first hstart crossing_targets
  have horder : l.order = [0, 1, 2, 3] := by
    have hrun : crossing.layout = .ok [0, 1, 2, 3] := by decide
    exact Except.ok.inj (hlayout.symm.trans hrun)
  have hcode : ∀ b, l.code b = crossing.code b := by
    rintro b
    rw [← hf]
    rfl
  have hextent : l.extent [0, 1] = 3 ∧ l.extent [0, 1, 2, 3] = 5 := by
    simp only [Linear.extent, List.map_cons, List.map_nil, hcode]
    decide
  refine ⟨hstart, crossing_targets, hvisit.symm.trans horder, l, hl, horder, ?_, ?_, ?_⟩
  · rw [(hline.stretch [0, 1] 2 [3] horder).1, hextent.1, hf]
    rfl
  · apply hline.outside
    rw [horder]
    decide
  · rw [hline.length, horder]
    exact hextent.2

end Chordal.Ssa.Func
