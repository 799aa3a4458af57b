/-
# The line of instructions

The points of a function are the instructions of its blocks in the order of the layout. Their
positions are the numbers from zero on. The points of a block stand next to each other, and they
begin where the points of the blocks before it end.

Key definitions: `Linear.extent`, `Linear.InLine`.
Key theorems: `Linear.of_mem_points`, `Linear.exists_mem_pointsFrom`, `Linear.pointsFrom_append`,
`Linear.inLine`.
-/
import Mathlib
import Chordal.Proofs.Finite
import Chordal.Proofs.Ssa.Layout
import Chordal.Ssa.Linear

namespace Chordal.Ssa

/-- The function in a line, if its blocks can be laid out. -/
theorem Func.linear_eq {f : Func} {order : List BlockId} (h : f.layout = .ok order) : f.linear = .ok ⟨f, order⟩ := by
  unfold linear
  rw [h]
  rfl

namespace Linear

variable {l : Linear}

/-! ### Points -/

/-- A point stands where its instruction does in every list that goes along with the line. -/
theorem getElem?_of_mem_pointsFrom {β : Type} {g : BlockId → List β} (hg : ∀ b, (g b).length = (l.code b).length)
    {p : Point} : ∀ {bs : List BlockId} {position : Nat}, p ∈ l.pointsFrom position bs →
    p.block ∈ bs ∧ (l.code p.block)[p.index]? = some p.instr ∧
      ∃ n, p.position = position + n ∧ (bs.flatMap g)[n]? = (g p.block)[p.index]?
  | b :: bs, position, h => by
    rcases List.mem_append.mp h with h | h
    · obtain ⟨k, hk, rfl⟩ := List.mem_mapIdx.mp h
      refine ⟨List.mem_cons_self, List.getElem?_eq_getElem hk, k, rfl, ?_⟩
      rw [List.flatMap_cons, List.getElem?_append_left (by rw [hg]; exact hk)]
    · obtain ⟨hb, hinstr, n, hn, hget⟩ := getElem?_of_mem_pointsFrom hg h
      refine ⟨List.mem_cons_of_mem b hb, hinstr, (l.code b).length + n, by omega, ?_⟩
      rw [List.flatMap_cons, List.getElem?_append_right (by rw [hg]; omega), hg, Nat.add_sub_cancel_left, hget]

theorem length_pointsFrom {β : Type} {g : BlockId → List β} (hg : ∀ b, (g b).length = (l.code b).length) :
    ∀ (bs : List BlockId) (position : Nat), (l.pointsFrom position bs).length = (bs.flatMap g).length
  | [], _ => rfl
  | b :: bs, position => by
    rw [pointsFrom, List.flatMap_cons, List.length_append, List.length_append, List.length_mapIdx, hg,
      length_pointsFrom hg bs]

/-- A point is an instruction of a laid out block. -/
theorem of_mem_points {p : Point} (hp : p ∈ l.points) :
    p.block ∈ l.order ∧ (l.func.code p.block)[p.index]? = some p.instr := by
  obtain ⟨hb, hinstr, -⟩ := getElem?_of_mem_pointsFrom (g := l.code) (fun _ => rfl) hp
  exact ⟨hb, hinstr⟩

/-- Every instruction of a laid out block is a point. -/
theorem exists_mem_pointsFrom {b : BlockId} {k : Nat} {i : Instr} (hi : (l.func.code b)[k]? = some i) :
    ∀ {bs : List BlockId} (position : Nat), b ∈ bs →
      ∃ p ∈ l.pointsFrom position bs, p.block = b ∧ p.index = k ∧ p.instr = i
  | c :: bs, position, hb => by
    by_cases hc : b = c
    · subst hc
      obtain ⟨hk, rfl⟩ := List.getElem?_eq_some_iff.mp hi
      exact ⟨_, List.mem_append_left _ (List.mem_mapIdx.mpr ⟨k, hk, rfl⟩), rfl, rfl, rfl⟩
    · obtain ⟨p, hp, hplace⟩ := exists_mem_pointsFrom hi (position + (l.code c).length)
        ((List.mem_cons.mp hb).resolve_left hc)
      exact ⟨p, List.mem_append_right _ hp, hplace⟩

/-! ### Stretches -/

/-- The number of instructions of some blocks. -/
def extent (l : Linear) (bs : List BlockId) : Nat := (bs.map fun b => (l.code b).length).sum

theorem extent_cons (b : BlockId) (bs : List BlockId) : l.extent (b :: bs) = (l.code b).length + l.extent bs := by
  simp [extent]

theorem length_points (l : Linear) (position : Nat) (bs : List BlockId) :
    (l.pointsFrom position bs).length = l.extent bs := by
  rw [length_pointsFrom (g := l.code) (fun _ => rfl), List.length_flatMap, extent]

/-- The points of further blocks come behind. -/
theorem pointsFrom_append (l : Linear) : ∀ (position : Nat) (bs cs : List BlockId),
    l.pointsFrom position (bs ++ cs) = l.pointsFrom position bs ++ l.pointsFrom (position + l.extent bs) cs
  | position, [], cs => by simp [pointsFrom, extent]
  | position, b :: bs, cs => by
    rw [List.cons_append, pointsFrom, pointsFrom_append l _ bs cs, pointsFrom, extent_cons, List.append_assoc,
      Nat.add_assoc]

/-- The positions are the numbers from the first on. -/
theorem map_position_pointsFrom (l : Linear) : ∀ (position : Nat) (bs : List BlockId),
    (l.pointsFrom position bs).map Point.position = List.range' position (l.extent bs)
  | position, [] => by simp [pointsFrom, extent]
  | position, b :: bs => by
    rw [pointsFrom, List.map_append, map_position_pointsFrom l _ bs, extent_cons, ← List.range'_append_1]
    congr 1
    apply List.ext_getElem
    · simp
    · intro k hk hk'
      simp

/-- The places of the points: each block with each index of its code. -/
theorem map_place_pointsFrom (l : Linear) : ∀ (position : Nat) (bs : List BlockId),
    (l.pointsFrom position bs).map (fun p => (p.block, p.index)) =
      bs.flatMap fun b => (List.range (l.code b).length).map (Prod.mk b)
  | position, [] => rfl
  | position, b :: bs => by
    rw [pointsFrom, List.map_append, map_place_pointsFrom l _ bs, List.flatMap_cons]
    congr 1
    apply List.ext_getElem
    · simp
    · intro k hk hk'
      simp

/-- No two points have the same place. -/
theorem nodup_places (hnd : l.order.Nodup) : (l.points.map fun p => (p.block, p.index)).Nodup := by
  unfold points
  rw [map_place_pointsFrom]
  exact nodup_flatMap_pairs hnd fun b _ => List.nodup_range

/-- A block begins where the blocks before it end. -/
theorem range_eq (hnd : l.order.Nodup) {before behind : List BlockId} {b : BlockId}
    (h : l.order = before ++ b :: behind) :
    l.range b = (l.extent before, l.extent before + (l.code b).length) := by
  have hnot : b ∉ before := fun hb => List.disjoint_of_nodup_append (h ▸ hnd) hb List.mem_cons_self
  have htake : l.order.takeWhile (· != b) = before := by
    rw [h, List.takeWhile_append_of_pos fun a ha => by
      rw [bne_iff_ne]
      rintro rfl
      exact hnot ha]
    simp
  have hmem : l.order.contains b = true := by
    rw [h]
    simp
  unfold range
  rw [if_pos hmem, htake, List.length_flatMap]
  rfl

/-- Every instruction of the blocks of a line has one point, the points are numbered from the first to
the last, and those of a block stand next to each other in its range. -/
structure InLine (l : Linear) : Prop where
  positions : l.points.map Point.position = List.range l.points.length
  once : (l.points.map fun p => (p.block, p.index)).Nodup
  mem : ∀ b k i, (∃ p ∈ l.points, p.block = b ∧ p.index = k ∧ p.instr = i) ↔
    b ∈ l.order ∧ (l.func.code b)[k]? = some i
  length : l.points.length = l.extent l.order
  stretch : ∀ before b behind, l.order = before ++ b :: behind →
    l.range b = (l.extent before, l.extent before + (l.func.code b).length) ∧
    (l.points.drop (l.extent before)).take (l.func.code b).length =
      (l.func.code b).mapIdx fun k i => ⟨l.extent before + k, b, k, i⟩
  outside : ∀ b, b ∉ l.order → l.range b = (0, 0)

theorem inLine (hnd : l.order.Nodup) : l.InLine where
  positions := by
    unfold points
    rw [map_position_pointsFrom, length_points, List.range_eq_range']
  once := nodup_places hnd
  mem b k i := by
    constructor
    · rintro ⟨p, hp, rfl, rfl, rfl⟩
      exact of_mem_points hp
    · rintro ⟨hb, hi⟩
      exact exists_mem_pointsFrom hi 0 hb
  length := length_points l 0 l.order
  stretch before b behind h := by
    refine ⟨range_eq hnd h, ?_⟩
    have hlen : (l.pointsFrom 0 before).length = l.extent before := length_points l 0 before
    unfold points
    rw [h, pointsFrom_append, ← hlen, List.drop_left, pointsFrom, Nat.zero_add]
    exact List.take_left' List.length_mapIdx
  outside b hb := by
    unfold range
    rw [if_neg (by simpa using hb)]

end Linear
end Chordal.Ssa
