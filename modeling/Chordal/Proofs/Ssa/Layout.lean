/-
# What is laid out

A layout begins with the start and holds each block that can be reached once, and
no other: the walk has visited a block or keeps it on its stack as soon as it has
visited a block that sends control to it. Each round takes one block off the
stack, and only a block that was not visited puts others on it, two at most, so
the rounds are enough to empty the stack.

A block is put on the stack when a block that sends control to it is visited, so it is
reached by a path that only passes blocks before it in the layout.

Key definitions: `Func.Walking`, `Func.LaidOut`, `Func.ReachedThrough`, `Func.Spreading`.
Key theorems: `Func.walk_laidOut`, `Func.exists_layout`, `Func.walk_reached`.
-/
import Mathlib
import Chordal.Proofs.Ssa.Flow
import Chordal.Ssa.Layout

namespace Chordal.Ssa.Func

variable {f : Func}

/-- The blocks that can be reached, each once, the start first. -/
structure LaidOut (f : Func) (order : List BlockId) : Prop where
  nodup : order.Nodup
  reached : ∀ b ∈ order, ∃ l, f.Path b l
  closed : ∀ b ∈ order, ∀ t ∈ f.targets b, t ∈ order
  first : ∃ rest, order = f.start :: rest

variable {b : BlockId} {l seen stack : List BlockId}

/-- The blocks of a path are laid out. -/
theorem LaidOut.mem_of_path {order : List BlockId} (h : f.LaidOut order) (hl : f.Path b l) :
    b ∈ order ∧ ∀ a ∈ l, a ∈ order := by
  induction hl with
  | start =>
    obtain ⟨rest, rfl⟩ := h.first
    exact ⟨List.mem_cons_self, fun a ha => by cases ha⟩
  | step _ hb ih =>
    refine ⟨h.closed _ ih.1 _ hb, fun a ha => ?_⟩
    rcases List.mem_cons.mp ha with rfl | ha
    · exact ih.1
    · exact ih.2 a ha

/-- What the walk has visited, and what is still to visit. -/
structure Walking (f : Func) (seen stack : List BlockId) : Prop where
  nodup : seen.Nodup
  reached_seen : ∀ b ∈ seen, ∃ l, f.Path b l
  reached_stack : ∀ b ∈ stack, ∃ l, f.Path b l
  closed : ∀ b ∈ seen, ∀ t ∈ f.targets b, t ∈ seen ∨ t ∈ stack
  first : seen = [] ∧ stack = [f.start] ∨ ∃ later, seen = later ++ [f.start]

theorem walking_start (f : Func) : Walking f [] [f.start] where
  nodup := List.nodup_nil
  reached_seen b hb := by cases hb
  reached_stack b hb := ⟨[], List.mem_singleton.mp hb ▸ .start⟩
  closed b hb := by cases hb
  first := .inl ⟨rfl, rfl⟩

/-- Where the stack is empty the walk has visited all that can be reached. -/
theorem Walking.laidOut (h : Walking f seen []) : LaidOut f seen.reverse where
  nodup := List.nodup_reverse.mpr h.nodup
  reached b hb := h.reached_seen b (List.mem_reverse.mp hb)
  closed b hb t ht := by
    rcases h.closed b (List.mem_reverse.mp hb) t ht with hs | hs
    · exact List.mem_reverse.mpr hs
    · cases hs
  first := by
    rcases h.first with ⟨-, hnil⟩ | ⟨later, rfl⟩
    · cases hnil
    · exact ⟨later.reverse, by rw [List.reverse_append]; rfl⟩

/-- A block that was visited already is taken off the stack. -/
theorem Walking.skip (h : Walking f seen (b :: stack)) (hb : b ∈ seen) : Walking f seen stack where
  nodup := h.nodup
  reached_seen := h.reached_seen
  reached_stack c hc := h.reached_stack c (List.mem_cons_of_mem b hc)
  closed c hc t ht := by
    rcases h.closed c hc t ht with hs | hs
    · exact .inl hs
    · rcases List.mem_cons.mp hs with rfl | hs
      · exact .inl hb
      · exact .inr hs
  first := by
    rcases h.first with ⟨rfl, -⟩ | hf
    · cases hb
    · exact .inr hf

/-- A block is visited, and the blocks it sends control to are put on the stack. -/
theorem Walking.visit (h : Walking f seen (b :: stack)) (hb : b ∉ seen) :
    Walking f (b :: seen) ((f.targets b).filter (fun t => !(b :: seen).contains t) ++ stack) where
  nodup := List.nodup_cons.mpr ⟨hb, h.nodup⟩
  reached_seen c hc := by
    rcases List.mem_cons.mp hc with rfl | hc
    · exact h.reached_stack c List.mem_cons_self
    · exact h.reached_seen c hc
  reached_stack c hc := by
    rcases List.mem_append.mp hc with hc | hc
    · obtain ⟨l, hl⟩ := h.reached_stack b List.mem_cons_self
      exact ⟨b :: l, .step hl (List.mem_filter.mp hc).1⟩
    · exact h.reached_stack c (List.mem_cons_of_mem b hc)
  closed c hc t ht := by
    by_cases hseen : t ∈ b :: seen
    · exact .inl hseen
    · right
      rw [List.mem_append, List.mem_filter]
      rcases List.mem_cons.mp hc with rfl | hc
      · exact .inl ⟨ht, by simpa using hseen⟩
      · rcases h.closed c hc t ht with hs | hs
        · exact absurd (List.mem_cons_of_mem b hs) hseen
        · rcases List.mem_cons.mp hs with rfl | hs
          · exact absurd List.mem_cons_self hseen
          · exact .inr hs
  first := by
    rcases h.first with ⟨rfl, hstack⟩ | ⟨later, rfl⟩
    · obtain ⟨rfl, -⟩ := List.cons.inj hstack
      exact .inr ⟨[], rfl⟩
    · exact .inr ⟨b :: later, rfl⟩

theorem length_targets_le (f : Func) (b : BlockId) : (f.targets b).length ≤ 2 := by
  rw [targets_eq]
  cases (f.code b).getLast? with
  | none => exact Nat.zero_le 2
  | some i => cases i <;> simp [Instr.successors]

/-- A round that meets a visited block. -/
theorem walk_skip {rounds : Nat} (hb : b ∈ seen) :
    f.walk (rounds + 1) seen (b :: stack) = f.walk rounds seen stack := by
  rw [walk, if_pos (List.contains_iff_mem.mpr hb)]

/-- A round that visits a block. -/
theorem walk_visit {rounds : Nat} (hlt : b < f.blocks.size) (hb : b ∉ seen) :
    f.walk (rounds + 1) seen (b :: stack) =
      f.walk rounds (b :: seen) ((f.targets b).filter (fun t => !(b :: seen).contains t) ++ stack) := by
  obtain ⟨blk, hblk, -⟩ := exists_block hlt
  have htargets : blk.targets = f.targets b := by
    rw [targets, hblk]
    rfl
  rw [walk, if_neg (by simpa using hb), hblk, ← htargets]

/-- With enough rounds the walk visits all that can be reached. -/
theorem walk_laidOut (hrange : ∀ b l, f.Path b l → b < f.blocks.size) :
    ∀ (rounds : Nat) (seen stack : List BlockId), Walking f seen stack →
      2 * (f.blocks.size - seen.length) + stack.length ≤ rounds →
      ∃ order, f.walk rounds seen stack = .ok order ∧ LaidOut f order := by
  intro rounds
  induction rounds with
  | zero =>
    intro seen stack h hle
    obtain rfl : stack = [] := List.length_eq_zero_iff.mp (by omega)
    exact ⟨seen.reverse, rfl, h.laidOut⟩
  | succ rounds ih =>
    intro seen stack h hle
    cases stack with
    | nil => exact ⟨seen.reverse, rfl, h.laidOut⟩
    | cons b stack =>
      rw [List.length_cons] at hle
      by_cases hb : b ∈ seen
      · rw [walk_skip hb]
        exact ih seen stack (h.skip hb) (by omega)
      · obtain ⟨l, hl⟩ := h.reached_stack b List.mem_cons_self
        have hvisit := h.visit hb
        -- the visited blocks are numbers below the count, and no two are the same
        have hseen : (b :: seen).length ≤ f.blocks.size := by
          have hsub : (b :: seen).Subperm (List.range f.blocks.size) :=
            hvisit.nodup.subperm fun c hc => by
              obtain ⟨l, hl⟩ := hvisit.reached_seen c hc
              exact List.mem_range.mpr (hrange c l hl)
          simpa using hsub.length_le
        have hnew : ((f.targets b).filter fun t => !(b :: seen).contains t).length ≤ 2 :=
          (List.length_filter_le _ _).trans (length_targets_le f b)
        rw [walk_visit (hrange b l hl) hb]
        refine ih _ _ hvisit ?_
        rw [List.length_append]
        rw [List.length_cons] at hseen ⊢
        omega

/-- A function whose blocks on paths are there has a layout. -/
theorem exists_layout (hrange : ∀ b l, f.Path b l → b < f.blocks.size) :
    ∃ order, f.layout = .ok order ∧ LaidOut f order :=
  walk_laidOut hrange _ [] [f.start] (walking_start f) (by simp)

/-- Blocks on paths are there if they end in terminators. -/
theorem Ended.lt (he : f.Ended) (h : f.Path b l) : b < f.blocks.size := by
  obtain ⟨front, last, hcode, -⟩ := he h
  by_contra hge
  rw [code_of_size_le (Nat.not_lt.mp hge)] at hcode
  simp at hcode

theorem Ended.code_ne_nil (he : f.Ended) (h : f.Path b l) : f.code b ≠ [] := by
  obtain ⟨front, last, hcode, -⟩ := he h
  rw [hcode]
  exact List.append_ne_nil_of_right_ne_nil _ (List.cons_ne_nil _ _)

/-- A function whose blocks end in terminators has a layout. -/
theorem layout_laidOut (he : f.Ended) : ∃ order, f.layout = .ok order ∧ LaidOut f order :=
  exists_layout fun _ _ => he.lt

/-! ### Paths along the layout -/

/-- Some path comes to the block through the given blocks only. -/
def ReachedThrough (f : Func) (blocks : List BlockId) (b : BlockId) : Prop :=
  ∃ l, f.Path b l ∧ ∀ a ∈ l, a ∈ blocks

theorem ReachedThrough.mono {blocks blocks' : List BlockId} (h : f.ReachedThrough blocks b)
    (hsub : ∀ a ∈ blocks, a ∈ blocks') : f.ReachedThrough blocks' b := by
  obtain ⟨l, hl, hmem⟩ := h
  exact ⟨l, hl, fun a ha => hsub a (hmem a ha)⟩

/-- What was visited was reached through blocks that were visited before, and what is on the stack
is reached through visited blocks. -/
structure Spreading (f : Func) (seen stack : List BlockId) : Prop where
  visited : ∀ {b earlier}, b :: earlier <:+ seen → f.ReachedThrough earlier b
  waiting : ∀ b ∈ stack, f.ReachedThrough seen b

theorem Spreading.visit (h : Spreading f seen (b :: stack)) :
    Spreading f (b :: seen) ((f.targets b).filter (fun t => !(b :: seen).contains t) ++ stack) where
  visited hsuffix := by
    rcases List.suffix_cons_iff.mp hsuffix with heq | hsuffix
    · obtain ⟨rfl, rfl⟩ := List.cons.inj heq
      exact h.waiting _ List.mem_cons_self
    · exact h.visited hsuffix
  waiting t ht := by
    rcases List.mem_append.mp ht with ht | ht
    · obtain ⟨l, hl, hmem⟩ := h.waiting b List.mem_cons_self
      refine ⟨b :: l, .step hl (List.mem_filter.mp ht).1, fun a ha => ?_⟩
      rcases List.mem_cons.mp ha with rfl | ha
      · exact List.mem_cons_self
      · exact List.mem_cons_of_mem b (hmem a ha)
    · exact (h.waiting t (List.mem_cons_of_mem b ht)).mono fun a ha => List.mem_cons_of_mem b ha

/-- Every block of a walk is reached through blocks that come before it. -/
theorem walk_reached : ∀ (rounds : Nat) {seen stack order : List BlockId}, f.walk rounds seen stack = .ok order →
    Spreading f seen stack → ∀ {before behind b}, order = before ++ b :: behind → f.ReachedThrough before b := by
  have hend : ∀ {seen stack order : List BlockId}, seen.reverse = order → Spreading f seen stack →
      ∀ {before behind b}, order = before ++ b :: behind → f.ReachedThrough before b := by
    intro seen stack order hseen h before behind b horder
    have hsuffix : b :: before.reverse <:+ seen :=
      ⟨behind.reverse, by rw [← List.reverse_reverse seen, hseen, horder]; simp⟩
    exact (h.visited hsuffix).mono fun a ha => List.mem_reverse.mp ha
  intro rounds
  induction rounds with
  | zero =>
    intro seen stack order hwalk
    cases stack with
    | nil => exact hend (Except.ok.inj hwalk)
    | cons => exact hend (Except.ok.inj hwalk)
  | succ rounds ih =>
    intro seen stack order hwalk h
    cases stack with
    | nil => exact hend (Except.ok.inj hwalk) h
    | cons b stack =>
      rw [walk] at hwalk
      split_ifs at hwalk
      · exact ih hwalk ⟨h.visited, fun c hc => h.waiting c (List.mem_cons_of_mem b hc)⟩
      · cases hblk : f.block? b with
        | none =>
          rw [hblk] at hwalk
          cases hwalk
        | some blk =>
          have htargets : blk.targets = f.targets b := by
            rw [targets, hblk]
            rfl
          rw [hblk] at hwalk
          simp only [htargets] at hwalk
          exact ih hwalk h.visit

/-- Every block of a layout is reached through blocks that come before it. -/
theorem layout_reached {order before behind : List BlockId} (h : f.layout = .ok order)
    (horder : order = before ++ b :: behind) : f.ReachedThrough before b := by
  refine walk_reached _ h ⟨fun hsuffix => ?_, fun c hc => ?_⟩ horder
  · cases List.suffix_nil.mp hsuffix
  · obtain rfl := List.mem_singleton.mp hc
    exact ⟨[], .start, fun a ha => by cases ha⟩

end Chordal.Ssa.Func
