/-
# Chordal graphs

A graph is chordal if every cycle of four or more nodes has a chord. Take an order
of the nodes that is attentive: where a node was left behind for one that comes
before it, and has an earlier neighbour that the other lacks, the other has an earlier
neighbour that it lacks. In such an order of a chordal graph the earlier neighbours of
each node form a clique.

Two earlier neighbours that are not adjacent would be the ends of a path without
chords whose inner nodes come later than both ends, a bypass. From a bypass we get
another one with earlier ends: the later end has a neighbour before it that the
path's second node lacks, and up to the first node of the path which that neighbour
is adjacent to, the path goes on to it. So there is none.

Key definitions: `Graph.IsChordal`, `Graph.Attentive`, `Graph.Bypass`.
Key theorems: `Graph.IsChordal.no_hole`, `Graph.Bypass.descend`, `Graph.Attentive.clique`,
`Graph.isChordal_of_clique`.
-/
import Mathlib
import Chordal.Proofs.Interference.Operations

namespace Chordal.Interference.Graph

variable {g : Graph} {a b c d : Nat}

/-- The edges alone, as a simple graph on all numbers. -/
def simple (g : Graph) : SimpleGraph Nat := SimpleGraph.fromRel g.Adj

theorem Valid.simple_adj (hv : g.Valid) : g.simple.Adj a b ↔ g.Adj a b := by
  unfold simple
  rw [SimpleGraph.fromRel_adj]
  constructor
  · rintro ⟨-, h | h⟩
    · exact h
    · exact hv.symm h
  · intro h
    refine ⟨?_, .inl h⟩
    rintro rfl
    exact hv.irrefl h

/-- Every cycle of four or more nodes has a chord. -/
def IsChordal (g : Graph) : Prop :=
  ∀ ⦃a : Nat⦄ (cycle : g.simple.Walk a a), cycle.IsCycle → 4 ≤ cycle.length → ∃ e, cycle.IsChord e

/-! ### Paths without chords -/

/-- The nodes `v 0, …, v k` are a path, and no edge joins two of them but its own. -/
structure InducedPath (g : Graph) (v : Nat → Nat) (k : Nat) : Prop where
  distinct : ∀ {i j}, i < j → j ≤ k → v i ≠ v j
  adj : ∀ {i}, i < k → g.Adj (v i) (v (i + 1))
  chordless : ∀ {i j}, i + 1 < j → j ≤ k → ¬ g.Adj (v i) (v j)

namespace InducedPath

variable {v : Nat → Nat} {j k : Nat}

theorem take (h : g.InducedPath v k) (hj : j ≤ k) : g.InducedPath v j where
  distinct hi hle := h.distinct hi (hle.trans hj)
  adj hi := h.adj (hi.trans_le hj)
  chordless hi hle := h.chordless hi (hle.trans hj)

theorem reverse (hv : g.Valid) (h : g.InducedPath v k) : g.InducedPath (fun i => v (k - i)) k where
  distinct hi hle := (h.distinct (by omega) (Nat.sub_le k _)).symm
  adj {i} hi := by
    have hstep := h.adj (i := k - (i + 1)) (by omega)
    rw [show k - (i + 1) + 1 = k - i by omega] at hstep
    exact hv.symm hstep
  chordless hi hle hadj := h.chordless (by omega) (Nat.sub_le k _) (hv.symm hadj)

/-- The path goes on to a node that is adjacent to its last node only. -/
theorem concat (h : g.InducedPath v k) (hnew : ∀ i ≤ k, v i ≠ d) (hlast : g.Adj (v k) d)
    (hothers : ∀ i < k, ¬ g.Adj (v i) d) : g.InducedPath (fun i => if i ≤ k then v i else d) (k + 1) where
  distinct {i j} hi hle := by
    rw [if_pos (show i ≤ k by omega)]
    split_ifs with hj
    · exact h.distinct hi hj
    · exact hnew i (by omega)
  adj {i} hi := by
    rw [if_pos (show i ≤ k by omega)]
    split_ifs with hi'
    · exact h.adj hi'
    · rwa [show i = k by omega]
  chordless {i j} hi hle := by
    rw [if_pos (show i ≤ k by omega)]
    split_ifs with hj
    · exact h.chordless hi hj
    · exact hothers i (by omega)

end InducedPath

/-- The walk along the nodes `v 0, …, v k`. -/
def walkAlong {G : SimpleGraph Nat} (v : Nat → Nat) : (k : Nat) → (∀ i < k, G.Adj (v i) (v (i + 1))) →
    G.Walk (v 0) (v k)
  | 0, _ => .nil
  | k + 1, h => (walkAlong v k fun i hi => h i (Nat.lt_succ_of_lt hi)).concat (h k (Nat.lt_succ_self k))

section

variable {G : SimpleGraph Nat} {v : Nat → Nat}

theorem length_walkAlong : ∀ (k : Nat) (h : ∀ i < k, G.Adj (v i) (v (i + 1))), (walkAlong v k h).length = k
  | 0, _ => rfl
  | k + 1, h => by rw [walkAlong, SimpleGraph.Walk.length_concat, length_walkAlong k]

theorem support_walkAlong : ∀ (k : Nat) (h : ∀ i < k, G.Adj (v i) (v (i + 1))),
    (walkAlong v k h).support = (List.range (k + 1)).map v
  | 0, _ => rfl
  | k + 1, h => by
    rw [walkAlong, SimpleGraph.Walk.support_concat, support_walkAlong k, List.range_succ (n := k + 1), List.map_append]
    rfl

theorem mem_edges_walkAlong {e : Sym2 Nat} : ∀ (k : Nat) (h : ∀ i < k, G.Adj (v i) (v (i + 1))),
    e ∈ (walkAlong v k h).edges ↔ ∃ i < k, e = s(v i, v (i + 1))
  | 0, _ => by simp [walkAlong]
  | k + 1, h => by
    rw [walkAlong, SimpleGraph.Walk.edges_concat, List.concat_eq_append, List.mem_append, mem_edges_walkAlong k,
      List.mem_singleton]
    constructor
    · rintro (⟨i, hi, rfl⟩ | rfl)
      · exact ⟨i, by omega, rfl⟩
      · exact ⟨k, by omega, rfl⟩
    · rintro ⟨i, hi, rfl⟩
      rcases Nat.lt_succ_iff_lt_or_eq.mp hi with hi | rfl
      · exact .inl ⟨i, hi, rfl⟩
      · exact .inr rfl

/-- The walk from `d` along the nodes `v 0, …, v k` and back to `d`. -/
def cycleAlong (v : Nat → Nat) {k : Nat} (h : ∀ i < k, G.Adj (v i) (v (i + 1))) (hfrom : G.Adj d (v 0))
    (hto : G.Adj (v k) d) : G.Walk d d := .cons hfrom ((walkAlong v k h).concat hto)

variable {k : Nat} {h : ∀ i < k, G.Adj (v i) (v (i + 1))} {hfrom : G.Adj d (v 0)} {hto : G.Adj (v k) d}

theorem length_cycleAlong : (cycleAlong v h hfrom hto).length = k + 2 := by
  rw [cycleAlong, SimpleGraph.Walk.length_cons, SimpleGraph.Walk.length_concat, length_walkAlong]

theorem mem_support_cycleAlong {x : Nat} :
    x ∈ (cycleAlong v h hfrom hto).support ↔ x = d ∨ ∃ i ≤ k, v i = x := by
  rw [cycleAlong, SimpleGraph.Walk.support_cons, SimpleGraph.Walk.support_concat, support_walkAlong, List.mem_cons,
    List.mem_append, List.mem_map, List.mem_singleton]
  simp only [List.mem_range, Nat.lt_succ_iff]
  rw [← or_assoc, or_right_comm, or_self]

theorem mem_edges_cycleAlong {e : Sym2 Nat} : e ∈ (cycleAlong v h hfrom hto).edges ↔
    e = s(d, v 0) ∨ (∃ i < k, e = s(v i, v (i + 1))) ∨ e = s(v k, d) := by
  rw [cycleAlong, SimpleGraph.Walk.edges_cons, List.mem_cons, SimpleGraph.Walk.edges_concat, List.concat_eq_append,
    List.mem_append, mem_edges_walkAlong, List.mem_singleton]

theorem isCycle_cycleAlong (hk : 0 < k) (hdistinct : ∀ {i j}, i < j → j ≤ k → v i ≠ v j)
    (hnew : ∀ i ≤ k, v i ≠ d) : (cycleAlong v h hfrom hto).IsCycle := by
  rw [cycleAlong, SimpleGraph.Walk.cons_isCycle_iff, SimpleGraph.Walk.concat_isPath_iff, SimpleGraph.Walk.isPath_def,
    support_walkAlong, SimpleGraph.Walk.edges_concat, List.concat_eq_append, List.mem_append, mem_edges_walkAlong,
    List.mem_singleton]
  refine ⟨⟨?_, ?_⟩, ?_⟩
  · refine List.Nodup.map_on (fun i hi j hj hij => ?_) List.nodup_range
    rw [List.mem_range] at hi hj
    by_contra hne
    rcases Nat.lt_or_gt_of_ne hne with hlt | hlt
    · exact hdistinct hlt (by omega) hij
    · exact hdistinct hlt (by omega) hij.symm
  · rw [List.mem_map]
    rintro ⟨i, hi, hid⟩
    exact hnew i (Nat.lt_succ_iff.mp (List.mem_range.mp hi)) hid
  · rintro (⟨i, hi, he⟩ | he)
    · rcases Sym2.eq_iff.mp he with ⟨he, -⟩ | ⟨he, -⟩
      · exact hnew i (by omega) he.symm
      · exact hnew (i + 1) (by omega) he.symm
    · rcases Sym2.eq_iff.mp he with ⟨he, -⟩ | ⟨-, he⟩
      · exact hnew k le_rfl he.symm
      · exact hdistinct hk le_rfl he

end

/-- In a chordal graph no node closes a path without chords to a longer cycle, if it is
adjacent to the two ends of the path only. -/
theorem IsChordal.no_hole {v : Nat → Nat} {k : Nat} (hc : g.IsChordal) (hv : g.Valid) (hpath : g.InducedPath v k)
    (hk : 2 ≤ k) (hnew : ∀ i ≤ k, v i ≠ d) (hfirst : g.Adj (v 0) d) (hlast : g.Adj (v k) d)
    (hinner : ∀ i, 0 < i → i < k → ¬ g.Adj (v i) d) : False := by
  have hstep : ∀ i < k, g.simple.Adj (v i) (v (i + 1)) := fun i hi => hv.simple_adj.mpr (hpath.adj hi)
  let cycle := cycleAlong v hstep (hv.simple_adj.mpr (hv.symm hfirst)) (hv.simple_adj.mpr hlast)
  obtain ⟨e, he⟩ := hc cycle (isCycle_cycleAlong (by omega) hpath.distinct hnew) (by
    rw [length_cycleAlong]
    omega)
  -- every edge between two nodes of the cycle is one of the cycle's own
  have hend : ∀ i ≤ k, g.Adj (v i) d → s(v i, d) ∈ cycle.edges := by
    intro i hi hadj
    rcases Nat.eq_zero_or_pos i with rfl | hpos
    · exact mem_edges_cycleAlong.mpr (.inl Sym2.eq_swap)
    · rcases Nat.lt_or_eq_of_le hi with hlt | rfl
      · exact absurd hadj (hinner i hpos hlt)
      · exact mem_edges_cycleAlong.mpr (.inr (.inr rfl))
  have halong : ∀ i j, i < j → j ≤ k → g.Adj (v i) (v j) → s(v i, v j) ∈ cycle.edges := by
    intro i j hlt hj hadj
    obtain rfl : j = i + 1 := by
      by_contra hne
      exact hpath.chordless (by omega) hj hadj
    exact mem_edges_cycleAlong.mpr (.inr (.inl ⟨i, hj, rfl⟩))
  induction e using Sym2.ind with
  | _ x y =>
    obtain ⟨hxy, hnot, hx, hy⟩ := SimpleGraph.Walk.isChord_sym2Mk.mp he
    rw [hv.simple_adj] at hxy
    rcases mem_support_cycleAlong.mp hx with rfl | ⟨i, hi, rfl⟩
    · rcases mem_support_cycleAlong.mp hy with rfl | ⟨j, hj, rfl⟩
      · exact hv.irrefl hxy
      · exact hnot (Sym2.eq_swap ▸ hend j hj (hv.symm hxy))
    · rcases mem_support_cycleAlong.mp hy with rfl | ⟨j, hj, rfl⟩
      · exact hnot (hend i hi hxy)
      · rcases Nat.lt_trichotomy i j with hlt | rfl | hlt
        · exact hnot (halong i j hlt hj hxy)
        · exact hv.irrefl hxy
        · exact hnot (Sym2.eq_swap ▸ halong j i hlt hi (hv.symm hxy))

/-! ### Orders -/

/-- The places of nodes in an order: if `b` comes before `c`, and `c` has a neighbour
before both that `b` lacks, then `b` has a neighbour before it that `c` lacks. -/
def Attentive (g : Graph) (place : Nat → Nat) : Prop :=
  ∀ ⦃a b c⦄, place a < place b → place b < place c → g.Adj a c → ¬ g.Adj a b →
    ∃ d, place d < place b ∧ g.Adj d b ∧ ¬ g.Adj d c

/-- A path without chords whose inner nodes come later than both ends. -/
structure Bypass (g : Graph) (place : Nat → Nat) (v : Nat → Nat) (k : Nat) : Prop extends g.InducedPath v k where
  inner : 2 ≤ k
  later : ∀ {i}, 0 < i → i < k → place (v 0) < place (v i) ∧ place (v k) < place (v i)

variable {place v : Nat → Nat} {k : Nat}

theorem Bypass.reverse (hv : g.Valid) (h : g.Bypass place v k) : g.Bypass place (fun i => v (k - i)) k where
  toInducedPath := h.toInducedPath.reverse hv
  inner := h.inner
  later {i} hpos hi := by
    have hlater := h.later (i := k - i) (by omega) (by omega)
    simp only [Nat.sub_zero, Nat.sub_self]
    exact hlater.symm

/-- Below a bypass whose last node is the later end there is one with earlier ends. -/
theorem Bypass.descend (hv : g.Valid) (hc : g.IsChordal) (hplace : g.Attentive place) (h : g.Bypass place v k)
    (hends : place (v 0) < place (v k)) :
    ∃ w n, g.Bypass place w n ∧ max (place (w 0)) (place (w n)) < place (v k) := by
  have hk := h.inner
  -- the last node has a neighbour before it that the second lacks
  obtain ⟨d, hd, hdlast, hdsecond⟩ := hplace hends (h.later (i := 1) (by omega) (by omega)).2
    (h.adj (by omega)) (h.chordless (by omega) le_rfl)
  have hnew : ∀ i ≤ k, v i ≠ d := by
    rintro i hi rfl
    rcases Nat.eq_zero_or_pos i with rfl | hpos
    · exact h.chordless (by omega) le_rfl hdlast
    · rcases Nat.lt_or_eq_of_le hi with hlt | rfl
      · exact absurd hd (h.later hpos hlt).2.not_gt
      · exact hv.irrefl hdlast
  -- the first node behind the start that is adjacent to the new one
  have hsome : ∃ j, 0 < j ∧ j ≤ k ∧ g.Adj (v j) d := ⟨k, by omega, le_rfl, hv.symm hdlast⟩
  classical
  obtain ⟨hpos, hjk, hjd⟩ := Nat.find_spec hsome
  have hleast : ∀ i, 0 < i → i < Nat.find hsome → ¬ g.Adj (v i) d := fun i hi hlt hadj =>
    Nat.find_min hsome hlt ⟨hi, by omega, hadj⟩
  generalize Nat.find hsome = j at hpos hjk hjd hleast
  have hj : 2 ≤ j := by
    by_contra hlt
    obtain rfl : j = 1 := by omega
    exact hdsecond (hv.symm hjd)
  have hpath := h.toInducedPath.take hjk
  have hfirst : ¬ g.Adj (v 0) d := fun hadj =>
    hc.no_hole hv hpath hj (fun i hi => hnew i (by omega)) hadj hjd hleast
  refine ⟨fun i => if i ≤ j then v i else d, j + 1, ⟨?_, by omega, ?_⟩, ?_⟩
  · refine hpath.concat (fun i hi => hnew i (by omega)) hjd fun i hi => ?_
    rcases Nat.eq_zero_or_pos i with rfl | hi'
    · exact hfirst
    · exact hleast i hi' hi
  · intro i hi hlt
    -- the inner nodes are those of the old path, its last node perhaps among them
    have hlater : place (v 0) < place (v i) ∧ place d < place (v i) := by
      rcases Nat.lt_or_eq_of_le (show i ≤ k by omega) with hik | rfl
      · exact ⟨(h.later hi hik).1, hd.trans (h.later hi hik).2⟩
      · exact ⟨hends, hd⟩
    simpa [show i ≤ j by omega] using hlater
  · simpa using ⟨hends, hd⟩

section

variable (hplace : g.Attentive place) (hv : g.Valid) (hc : g.IsChordal)
  (hinj : ∀ {a b}, a ∈ g.nodes → b ∈ g.nodes → place a = place b → a = b)

include hplace hv hc hinj

/-- A chordal graph with an attentive order has no bypass. -/
theorem Attentive.no_bypass : ¬ g.Bypass place v k := by
  intro h
  induction hn : max (place (v 0)) (place (v k)) using Nat.strong_induction_on generalizing v k with
  | _ n ih =>
    have hk := h.inner
    rcases Nat.lt_trichotomy (place (v 0)) (place (v k)) with hlt | heq | hgt
    · obtain ⟨w, m, hw, hless⟩ := h.descend hv hc hplace hlt
      exact ih _ (hn ▸ hless.trans_le (le_max_right _ _)) hw rfl
    · refine h.distinct (show 0 < k by omega) le_rfl (hinj (h.adj (by omega)).mem_left ?_ heq)
      have hlast := h.adj (i := k - 1) (by omega)
      rw [Nat.sub_add_cancel (by omega)] at hlast
      exact hv.mem_right hlast
    · obtain ⟨w, m, hw, hless⟩ := (h.reverse hv).descend hv hc hplace (by simpa using hgt)
      refine ih _ (hn ▸ hless.trans_le ?_) hw rfl
      simp

/-- **The earlier neighbours of a node are adjacent to each other.** -/
theorem Attentive.clique (hac : g.Adj a c) (hbc : g.Adj b c) (ha : place a < place c)
    (hb : place b < place c) (hne : a ≠ b) : g.Adj a b := by
  by_contra hab
  refine hplace.no_bypass (v := fun i => if i = 0 then a else if i = 1 then c else b) (k := 2) hv hc hinj
    ⟨⟨fun {i j} hi hle => ?_, fun {i} hi => ?_, fun {i j} hi hle => ?_⟩, le_rfl, fun {i} hi hlt => ?_⟩
  · have hac' : a ≠ c := by
      rintro rfl
      exact hv.irrefl hac
    have hcb' : c ≠ b := by
      rintro rfl
      exact hv.irrefl hbc
    interval_cases j <;> interval_cases i <;> simp [hac', hcb', hne]
  · interval_cases i
    · exact hac
    · exact hv.symm hbc
  · obtain ⟨rfl, rfl⟩ : i = 0 ∧ j = 2 := by omega
    exact hab
  · obtain rfl : i = 1 := by omega
    exact ⟨ha, hb⟩

end

/-- Conversely, a graph is chordal if in some order the earlier neighbours of each node
are adjacent: the last node of a cycle joins its two neighbours there by a chord. -/
theorem isChordal_of_clique (hv : g.Valid)
    (hinj : ∀ {a b}, a ∈ g.nodes → b ∈ g.nodes → place a = place b → a = b)
    (hclique : ∀ {a b c}, g.Adj a c → g.Adj b c → place a < place c → place b < place c → a ≠ b → g.Adj a b) :
    g.IsChordal := by
  intro u cycle hcycle hlength
  obtain ⟨m, hm, hlast⟩ := cycle.support.toFinset.exists_max_image place ⟨u, by simp⟩
  rw [List.mem_toFinset] at hm
  -- from here on the cycle starts at its last node
  have hcycle' := (SimpleGraph.Walk.isCycle_rotate hm).mpr hcycle
  have hlength' := cycle.length_rotate m hm
  have hsupport := fun x => cycle.mem_support_rotate_iff (w := x) m hm
  have hedges := fun e => (cycle.rotate_edges m hm).mem_iff (a := e)
  generalize cycle.rotate m hm = turned at hcycle' hlength' hsupport hedges
  cases turned with
  | nil => exact absurd rfl hcycle'.ne_nil
  | @cons _ x _ hmx path =>
    obtain ⟨hpath, -⟩ := (SimpleGraph.Walk.cons_isCycle_iff path hmx).mp hcycle'
    rw [SimpleGraph.Walk.length_cons] at hlength'
    have hearlier : ∀ {y}, g.Adj y m → y ∈ path.support → place y < place m := by
      intro y hy hmem
      have hle : place y ≤ place m := hlast y (by
        rw [List.mem_toFinset, ← hsupport, SimpleGraph.Walk.support_cons]
        exact List.mem_cons_of_mem m hmem)
      refine lt_of_le_of_ne hle fun heq => hv.irrefl (a := m) ?_
      have hym := hinj hy.mem_left (hv.mem_right hy) heq
      rwa [hym] at hy
    have hxm : g.Adj x m := hv.symm (hv.simple_adj.mp hmx)
    have hym : g.Adj path.penultimate m := hv.simple_adj.mp (path.adj_penultimate (by
      rw [← SimpleGraph.Walk.length_eq_zero_iff]
      omega))
    have hnotSnd : path.penultimate ≠ path.snd := fun heq => by
      have := hpath.getVert_injOn (show path.length - 1 ≤ path.length by omega) (show 1 ≤ path.length by omega) heq
      omega
    have hne : x ≠ path.penultimate := fun heq => by
      have := hpath.getVert_injOn (show 0 ≤ path.length by omega) (show path.length - 1 ≤ path.length by omega)
        (path.getVert_zero.trans heq)
      omega
    have hxy := hclique hxm hym (hearlier hxm path.start_mem_support)
      (hearlier hym (path.getVert_mem_support _)) hne
    refine ⟨s(x, path.penultimate), SimpleGraph.Walk.isChord_sym2Mk.mpr ⟨hv.simple_adj.mpr hxy, ?_, ?_, ?_⟩⟩
    · rw [← hedges, SimpleGraph.Walk.edges_cons, List.mem_cons]
      rintro (heq | hmem)
      · rcases Sym2.eq_iff.mp heq with ⟨rfl, -⟩ | ⟨-, heq⟩
        · exact hv.irrefl hxm
        · exact hv.irrefl (heq ▸ hym)
      · exact hnotSnd (hpath.eq_snd_of_mem_edges hmem)
    · rw [← hsupport, SimpleGraph.Walk.support_cons]
      exact List.mem_cons_of_mem m path.start_mem_support
    · rw [← hsupport, SimpleGraph.Walk.support_cons]
      exact List.mem_cons_of_mem m (path.getVert_mem_support _)

end Chordal.Interference.Graph
