/-
# Allocations without gaps

A node takes a colour only if its neighbours have all smaller ones, so its colour is at most the
number of its neighbours and the colours of a graph are the numbers below their count. The
first of them stand for the registers of the pool, in its order, and the others for slots, so
neither the registers that are taken nor the slots have gaps. All this holds for every
graph that is built, chordal or not.

An allocator has a pool from the beginning and keeps it. What it took for other graphs is forgotten
when it turns to the next, and the order and the colours come from the graph alone.

Key definitions: `RegFile.poolSize`, `RegFile.Serving`, `Allocation.MadeFrom`, `Allocation.GapFree`.
Key theorems: `RegFile.madeFrom_of_allocate`, `Interference.Graph.Valid.color_le_degree`,
`allocation_gap_free`.
-/
import Mathlib
import Chordal.Proofs.Allocation
import Chordal.Proofs.Interference.OptimalColoring

namespace Chordal

open Interference

/-! ### Allocators -/

namespace RegFile

/-- The number of registers that an allocator with this limit may take. -/
def poolSize (limit : Option Nat) : Nat := min (limit.getD Reg.pool.length) Reg.pool.length

theorem pool_ofLimit (limit : Option Nat) : (ofLimit limit).pool = Reg.pool.take (poolSize limit) := by
  cases limit with
  | none => rfl
  | some n => exact (List.take_eq_take_min : Reg.pool.take n = _)

/-- An allocator with this limit that may have allocated other graphs. -/
inductive Serving (limit : Option Nat) : RegFile → Prop
  | fresh : Serving limit (ofLimit limit)
  | next {file file' : RegFile} {g : Graph} {a : Allocation} :
    Serving limit file → file.allocate g = .ok (a, file') → Serving limit file'

end RegFile

/-- What an allocation of a graph consists of, with this pool. -/
structure Allocation.MadeFrom (a : Allocation) (g : Graph) (pool : List Reg) : Prop where
  ordering : g.cardinalityOrder = .ok a.ordering
  colors : g.colorInOrder a.ordering = .ok a.colors
  colorCount : a.colorCount = (a.colors.values.map (· + 1)).foldl max 0
  locations : ∀ x, a.placement.locations.get? x = (a.colors.get? x).map (RegFile.placeOf pool)
  stackSlots : a.placement.stackSlots = a.colorCount - pool.length
  used : ∀ r, a.placement.used.contains r = true ↔ ∃ p ∈ a.colors, pool[p.2]? = some r

namespace RegFile

variable {limit : Option Nat} {file file' : RegFile} {g : Graph} {a : Allocation}

/-- An allocator keeps its pool, and what it had taken does not matter. -/
theorem madeFrom_of_allocate (h : file.allocate g = .ok (a, file')) :
    a.MadeFrom g file.pool ∧ file'.pool = file.pool := by
  obtain ⟨order, horder, h⟩ := bind_eq_ok.mp h
  obtain ⟨colors, hcolors, rfl, rfl⟩ := bind_pure_pair h
  obtain ⟨hplaces, hpool⟩ := placeAll_eq colors file.reset
  refine ⟨⟨horder, hcolors, rfl, fun x => ?_, congrArg (_ - List.length ·) hpool, fun r => ?_⟩, hpool⟩
  · exact (congrArg (IdMap.get? · x) hplaces).trans (IdMap.get?_map_values (placeOf file.pool) x colors)
  · refine (contains_placeAll colors file.reset r).trans (or_iff_right fun hr => ?_)
    simp [reset, RegSet.empty, RegSet.contains] at hr

theorem Serving.pool (h : file.Serving limit) : file.pool = Reg.pool.take (poolSize limit) := by
  induction h with
  | fresh => exact pool_ofLimit limit
  | next _ hok ih => exact (madeFrom_of_allocate hok).2.trans ih

end RegFile

/-! ### Colours -/

namespace Interference.Graph

variable {g : Graph} {order : List Nat} {colors : IdMap Nat}

/-- A node has neighbours of all smaller colours, so at least as many as its colour says. -/
theorem Valid.color_le_degree (hv : g.Valid) (hok : g.cardinalityOrder = .ok order)
    (hcolors : g.colorInOrder order = .ok colors) {x c : Nat} (hx : x ∈ g.nodes)
    (hc : colors.get? x = some c) : (c : ℕ∞) ≤ {y | g.interferes x y = true}.encard := by
  obtain ⟨before, behind, hsplit⟩ := hv.exists_split hok hx
  calc (c : ℕ∞) = (Finset.range c : Set Nat).encard := by
        rw [Set.encard_coe_eq_coe_finsetCard, Finset.card_range]
    _ ≤ (colorOf colors '' {y | g.interferes x y = true}).encard := by
        apply Set.encard_le_encard
        intro c' hc'
        obtain ⟨b, -, hadj, hb⟩ := hv.colors_least hok hcolors hsplit hc c' (Finset.mem_range.mp hc')
        refine ⟨b, interferes_iff.mpr (hv.symm hadj), ?_⟩
        rw [colorOf, hb]
        rfl
    _ ≤ {y | g.interferes x y = true}.encard := Set.encard_image_le _ _

end Interference.Graph

/-! ### Places -/

/-- An allocation of the nodes of a graph whose colours, registers and slots have no gaps, for the
first registers of the pool. -/
structure Allocation.GapFree (a : Allocation) (g : Graph) (poolSize : Nat) : Prop where
  ordering : a.ordering.Perm g.nodes
  colored : ∀ x, (∃ c, a.colors.get? x = some c) ↔ x ∈ g.nodes
  proper : ∀ x y, g.interferes x y = true → a.colors.get? x ≠ a.colors.get? y
  degree : ∀ x c, a.colors.get? x = some c → (c : ℕ∞) ≤ {y | g.interferes x y = true}.encard
  colors : ∀ c, (∃ x, a.colors.get? x = some c) ↔ c < a.colorCount
  placed : ∀ x, (∃ p, a.placement.locations.get? x = some p) ↔ x ∈ g.nodes
  shared : ∀ x y, a.placement.locations.get? x = a.placement.locations.get? y ↔ a.colors.get? x = a.colors.get? y
  registers : ∀ r, (∃ x, a.placement.locations.get? x = some (.reg r)) ↔ r ∈ Reg.pool.take (min a.colorCount poolSize)
  used : ∀ r, a.placement.used.contains r = true ↔ r ∈ Reg.pool.take (min a.colorCount poolSize)
  slots : ∀ n, (∃ x, a.placement.locations.get? x = some (.slot n)) ↔ n < a.placement.stackSlots
  stackSlots : a.placement.stackSlots = a.colorCount - poolSize

namespace Allocation

variable {g : Graph} {a : Allocation} {pool : List Reg} {n : Nat}

namespace MadeFrom

section

variable (h : a.MadeFrom g pool) (hv : g.Valid)

include h hv

/-- Every node has one colour, and neighbours have different ones. -/
theorem coloring :
    a.colors.keys.Nodup ∧ g.Proper a.colors ∧ ∀ x, x ∈ a.colors.keys ↔ x ∈ g.nodes := by
  obtain ⟨colors, hok, hsorted, hproper, hkeys⟩ := Graph.colorInOrder_ok hv h.ordering
  obtain rfl := Except.ok.inj (hok.symm.trans h.colors)
  exact ⟨hsorted.nodup, hproper, hkeys⟩

theorem exists_color_iff {x : Nat} : (∃ c, a.colors.get? x = some c) ↔ x ∈ g.nodes := by
  rw [← (h.coloring hv).2.2]
  exact ⟨fun ⟨c, hc⟩ => IdMap.mem_keys_of_get? hc, IdMap.exists_get?⟩

/-- The colours are the numbers below their count. -/
theorem mem_colors_iff {c : Nat} : c ∈ a.colors.values ↔ c < a.colorCount := by
  obtain ⟨hnd, -, hkeys⟩ := h.coloring hv
  rw [← List.mem_toFinset, hv.colors_eq_range h.ordering h.colors hnd hkeys, Finset.mem_range, h.colorCount]

/-- A place is in use if a colour below the count stands for it. -/
theorem exists_place_iff {p : Location} :
    (∃ x, a.placement.locations.get? x = some p) ↔ ∃ c < a.colorCount, RegFile.placeOf pool c = p := by
  simp only [h.locations, Option.map_eq_some_iff, ← h.mem_colors_iff hv, IdMap.mem_values (h.coloring hv).1]
  constructor
  · rintro ⟨x, c, hc, hp⟩
    exact ⟨c, ⟨x, hc⟩, hp⟩
  · rintro ⟨c, ⟨x, hc⟩, hp⟩
    exact ⟨x, c, hc, hp⟩

/-- A register is taken if a colour below the count stands for it. -/
theorem used_iff {r : Reg} :
    a.placement.used.contains r = true ↔ ∃ c < a.colorCount, pool[c]? = some r := by
  rw [h.used]
  simp only [← h.mem_colors_iff hv]
  constructor
  · rintro ⟨p, hp, hr⟩
    exact ⟨p.2, List.mem_map_of_mem hp, hr⟩
  · rintro ⟨c, hc, hr⟩
    obtain ⟨p, hp, rfl⟩ := List.mem_map.mp hc
    exact ⟨p, hp, hr⟩

end

/-- The first colours stand for the registers at the same places of the pool. -/
theorem exists_register_iff (hpool : pool = Reg.pool.take n) {count : Nat} {r : Reg} :
    (∃ c < count, pool[c]? = some r) ↔ r ∈ Reg.pool.take (min count n) := by
  rw [← List.take_take, ← hpool, List.mem_iff_getElem?]
  simp only [List.getElem?_take]
  constructor
  · rintro ⟨c, hlt, hc⟩
    exact ⟨c, by rw [if_pos hlt, hc]⟩
  · rintro ⟨c, hc⟩
    split_ifs at hc with hlt
    exact ⟨c, hlt, hc⟩

/-- An allocation with the first registers of the pool has no gaps. -/
theorem gapFree (h : a.MadeFrom g pool) (hv : g.Valid) (hpool : pool = Reg.pool.take n)
    (hn : n ≤ Reg.pool.length) : a.GapFree g n := by
  obtain ⟨hnd, hproper, -⟩ := h.coloring hv
  have hsize : pool.length = n := by
    rw [hpool, List.length_take, min_eq_left hn]
  have hnodup : pool.Nodup := hpool ▸ (show Reg.pool.Nodup by decide).sublist (List.take_sublist n Reg.pool)
  have hstack : a.placement.stackSlots = a.colorCount - n := by
    rw [h.stackSlots, hsize]
  refine ⟨?_, fun x => h.exists_color_iff hv, ?_, ?_, ?_, ?_, ?_, ?_, ?_, ?_, hstack⟩
  · exact Graph.cardinalityOrder_perm hv h.ordering
  · intro x y hxy heq
    have hadj := Graph.interferes_iff.mp hxy
    obtain ⟨c, hc⟩ := (h.exists_color_iff hv).mpr hadj.mem_left
    exact hproper hadj hc (heq ▸ hc)
  · intro x c hc
    exact hv.color_le_degree h.ordering h.colors ((h.exists_color_iff hv).mp ⟨c, hc⟩) hc
  · intro c
    rw [← h.mem_colors_iff hv, IdMap.mem_values hnd]
  · intro x
    rw [← h.exists_color_iff hv, h.locations]
    simp [Option.map_eq_some_iff]
  · intro x y
    rw [h.locations, h.locations]
    exact (Option.map_injective fun c d => RegFile.placeOf_injective hnodup).eq_iff
  · intro r
    rw [h.exists_place_iff hv]
    simp only [RegFile.placeOf_eq_reg]
    exact exists_register_iff hpool
  · intro r
    exact (h.used_iff hv).trans (exists_register_iff hpool)
  · intro k
    rw [h.exists_place_iff hv, hstack]
    simp only [RegFile.placeOf_eq_slot, hsize]
    constructor
    · rintro ⟨c, hc, rfl⟩
      omega
    · intro hk
      exact ⟨n + k, by omega, rfl⟩

end MadeFrom

/-- The registers that division, shifts, results, the stack and work on slots need are not taken. -/
theorem GapFree.reserved (h : a.GapFree g n) : ∀ r ∈ [Reg.rax, .rcx, .rdx, .rsp, .rbp, .scratch],
    a.placement.used.contains r = false ∧ ∀ x, a.placement.locations.get? x ≠ some (.reg r) := by
  intro r hr
  have hnone : r ∉ Reg.pool.take (min a.colorCount n) := by
    have hall : ∀ r ∈ [Reg.rax, .rcx, .rdx, .rsp, .rbp, .scratch], r ∉ Reg.pool := by decide
    exact fun hmem => hall r hr (List.mem_of_mem_take hmem)
  constructor
  · rw [← Bool.not_eq_true, h.used]
    exact hnone
  · intro x hx
    exact hnone ((h.registers r).mp ⟨x, hx⟩)

end Allocation

/-- **Allocation without gaps.** Whatever graphs an allocator has allocated, it allocates the next one
without gaps, with the registers that its limit allows. The order and the colours are the
same for every limit and after all other graphs. -/
theorem allocation_gap_free {limit : Option Nat} {file : RegFile} {g : Graph} (hg : g.Built)
    (hfile : file.Serving limit) :
    ∃ a file', file.allocate g = .ok (a, file') ∧ a.GapFree g (RegFile.poolSize limit) ∧
      (∀ r ∈ [Reg.rax, .rcx, .rdx, .rsp, .rbp, .scratch], a.placement.used.contains r = false ∧
        ∀ x, a.placement.locations.get? x ≠ some (.reg r)) ∧
      ∀ (limit' : Option Nat) (other other' : RegFile) (a' : Allocation), other.Serving limit' →
        other.allocate g = .ok (a', other') → a'.ordering = a.ordering ∧ a'.colors = a.colors := by
  obtain ⟨order, horder, -⟩ := Graph.cardinalityOrder_ok hg.valid
  obtain ⟨colors, hcolors, -⟩ := Graph.colorInOrder_ok hg.valid horder
  obtain ⟨a, file', hok, -⟩ := file.allocate_eq_ok horder hcolors
  have hmade := (RegFile.madeFrom_of_allocate hok).1
  have hgap := hmade.gapFree hg.valid hfile.pool (min_le_right _ _)
  refine ⟨a, file', hok, hgap, hgap.reserved, fun _ _ _ _ _ hok' => ?_⟩
  have hmade' := (RegFile.madeFrom_of_allocate hok').1
  have hordering := Except.ok.inj (hmade'.ordering.symm.trans hmade.ordering)
  exact ⟨hordering, Except.ok.inj (hmade'.colors.symm.trans (hordering ▸ hmade.colors))⟩

/-- Five nodes in a circle, without chords. -/
def pentagon : Graph := ⟨[(0, [1, 4]), (1, [0, 2]), (2, [1, 3]), (3, [2, 4]), (4, [0, 3])]⟩

theorem built_pentagon : pentagon.Built := by
  have hnodes := ((((Graph.Built.empty.addNode (a := 0) rfl).addNode (a := 1) rfl).addNode
    (a := 2) rfl).addNode (a := 3) rfl).addNode (a := 4) rfl
  exact ((((hnodes.addEdge (a := 0) (b := 1) rfl).addEdge (a := 1) (b := 2) rfl).addEdge
    (a := 2) (b := 3) rfl).addEdge (a := 3) (b := 4) rfl).addEdge (a := 4) (b := 0) rfl

/-- Two registers and one slot, after another graph that also took both registers. -/
theorem pentagon_places : pentagon.Built ∧ ∃ file : RegFile, file.Serving (some 2) ∧ ∃ a file',
    file.allocate pentagon = .ok (a, file') ∧ a.colors = [(0, 0), (1, 1), (2, 0), (3, 1), (4, 2)] ∧
    a.placement.used.contains .rsi = true ∧ a.placement.used.contains .rdi = false ∧
    a.placement.stackSlots = 1 ∧ ∃ x, a.placement.locations.get? x = some (.slot 0) := by
  have hfresh : (RegFile.ofLimit (some 2)).Serving (some 2) := .fresh
  obtain ⟨_, file, hfirst, -⟩ := allocation_gap_free Graph.built_diamond hfresh
  have hfile : file.Serving (some 2) := hfresh.next hfirst
  obtain ⟨a, file', hok, hgap, -⟩ := allocation_gap_free built_pentagon hfile
  have hmade := (RegFile.madeFrom_of_allocate hok).1
  have hcolors : a.colors = [(0, 0), (1, 1), (2, 0), (3, 1), (4, 2)] := by
    have hrun : (do pentagon.colorInOrder (← pentagon.cardinalityOrder)) =
        .ok [(0, 0), (1, 1), (2, 0), (3, 1), (4, 2)] := by
      decide
    rw [hmade.ordering] at hrun
    exact Except.ok.inj (hmade.colors.symm.trans hrun)
  have hcount : a.colorCount = 3 := by
    rw [hmade.colorCount, hcolors]
    decide
  have hslots : a.placement.stackSlots = 1 := by
    rw [hgap.stackSlots, hcount]
    decide
  refine ⟨built_pentagon, file, hfile, a, file', hok, hcolors, ?_, ?_, hslots, (hgap.slots 0).mpr (by omega)⟩
  · rw [hgap.used, hcount]
    decide
  · rw [← Bool.not_eq_true, hgap.used, hcount]
    decide

end Chordal
