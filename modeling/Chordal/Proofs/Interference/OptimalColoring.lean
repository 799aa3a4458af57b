/-
# Colouring with as few colours as the largest clique needs

The weight of a node in the search is the number of its neighbours in the order so far,
so a node that is put in the order has at least as many of them as any node that comes
later. That makes the order attentive, and in a chordal graph the earlier neighbours of
each node are a clique. A node takes a colour only if its earlier neighbours have all
smaller ones, so a node of the largest colour and its earlier neighbours are a clique
with as many nodes as there are colours; and no clique has more nodes than colours.

Key definitions: `Graph.colorOf`, `Graph.withEarlier`.
Key theorems: `Graph.cardinalityOrder_attentive`, `Graph.colorFrom_least`,
`Graph.chordal_coloring_optimal`.
-/
import Mathlib
import Chordal.Proofs.Interference.Chordality
import Chordal.Proofs.Interference.Coloring

namespace Chordal

namespace Interference.Graph

variable {g : Graph} {a b : Nat} {done order : List Nat} {colors : IdMap Nat}

/-! ### The search -/

/-- If one node has no fewer neighbours among some nodes than another, and lacks one of
the other's, then the other lacks one of its. -/
theorem exists_of_seen_le (h : g.seen done b ≤ g.seen done a) {x : Nat} (hx : x ∈ done) (hxb : g.Adj x b)
    (hxa : ¬ g.Adj x a) : ∃ y ∈ done, g.Adj y a ∧ ¬ g.Adj y b := by
  by_contra hnone
  push Not at hnone
  have hsub : ∀ l ⊆ done, g.seen l a ≤ g.seen l b := fun l hl =>
    List.countP_mono_left fun y hy hya =>
      interferes_iff.mpr (hnone y (hl hy) (interferes_iff.mp hya))
  obtain ⟨front, rest, rfl⟩ := List.append_of_mem hx
  have hfront := hsub front (by simp)
  have hrest := hsub rest (by simp)
  unfold seen at h hfront hrest
  rw [List.countP_append, List.countP_append, List.countP_cons, List.countP_cons, if_pos (interferes_iff.mpr hxb),
    if_neg fun h => hxa (interferes_iff.mp h)] at h
  omega

section

variable (hv : g.Valid) (hok : g.cardinalityOrder = .ok order)

include hv hok

theorem Valid.mem_order : a ∈ order ↔ a ∈ g.nodes :=
  (cardinalityOrder_perm hv hok).mem_iff

theorem Valid.nodup_order : order.Nodup :=
  (cardinalityOrder_perm hv hok).nodup_iff.mpr hv.sorted.nodup

theorem Valid.idxOf_inj (ha : a ∈ g.nodes) (_ : b ∈ g.nodes) (h : order.idxOf a = order.idxOf b) : a = b :=
  (List.idxOf_inj ((hv.mem_order hok).mpr ha)).mp h

end

variable {before behind : List Nat}

section

variable (hv : g.Valid) (hok : g.cardinalityOrder = .ok order)

include hv hok

/-- In a split of the order, the nodes before `a` are those with smaller places. -/
theorem Valid.mem_before_iff (h : order = before ++ a :: behind) :
    b ∈ before ↔ b ∈ g.nodes ∧ order.idxOf b < order.idxOf a := by
  have hnd : (before ++ a :: behind).Nodup := h ▸ hv.nodup_order hok
  have hnot : a ∉ before := fun ha => List.disjoint_of_nodup_append hnd ha List.mem_cons_self
  have hplace : order.idxOf a = before.length := by
    rw [h, List.idxOf_append_of_notMem hnot, List.idxOf_cons_self, Nat.add_zero]
  rw [hplace, ← hv.mem_order hok]
  constructor
  · intro hb
    have hmem : b ∈ order := by
      rw [h]
      exact List.mem_append_left _ hb
    refine ⟨hmem, (List.mem_take_iff_idxOf_lt hmem).mp ?_⟩
    rwa [h, List.take_left]
  · rintro ⟨hmem, hlt⟩
    have htake := (List.mem_take_iff_idxOf_lt hmem).mpr hlt
    rwa [h, List.take_left] at htake

theorem Valid.exists_split (ha : a ∈ g.nodes) : ∃ before behind, order = before ++ a :: behind :=
  List.append_of_mem ((hv.mem_order hok).mpr ha)

/-- The order of the search is attentive. -/
theorem cardinalityOrder_attentive : g.Attentive order.idxOf := by
  intro a b c hab hbc hac hnab
  have hc := hv.mem_right hac
  have hb : b ∈ g.nodes := by
    rw [← hv.mem_order hok, ← List.idxOf_lt_length_iff]
    exact hbc.trans (List.idxOf_lt_length_iff.mpr ((hv.mem_order hok).mpr hc))
  obtain ⟨before, behind, hsplit⟩ := hv.exists_split hok hb
  have hbefore := fun x => hv.mem_before_iff (b := x) hok hsplit
  have hbehind : c ∈ behind := by
    have hmem := (hv.mem_order hok).mpr hc
    rw [hsplit, List.mem_append, List.mem_cons] at hmem
    rcases hmem with hmem | rfl | hmem
    · exact absurd hbc ((hbefore c).mp hmem).2.not_gt
    · exact absurd hbc (lt_irrefl _)
    · exact hmem
  obtain ⟨order', hok', -, hmost⟩ := cardinalityOrder_ok hv
  obtain rfl := Except.ok.inj (hok'.symm.trans hok)
  obtain ⟨d, hd, hdb, hdc⟩ :=
    exists_of_seen_le (hmost hsplit c hbehind) ((hbefore a).mpr ⟨hac.mem_left, hab⟩) hac hnab
  exact ⟨d, ((hbefore d).mp hd).2, hdb, hdc⟩

end

/-- In a chordal graph the neighbours of a node that are in the order already form a clique. -/
theorem IsChordal.earlier_clique (hc : g.IsChordal) (hv : g.Valid)
    (hok : g.cardinalityOrder = .ok order) (h : order = before ++ a :: behind) :
    g.simple.IsClique {b | b ∈ before ∧ g.Adj b a} := by
  rw [SimpleGraph.isClique_iff]
  intro x hx y hy hne
  exact hv.simple_adj.mpr ((cardinalityOrder_attentive hv hok).clique hv hc (hv.idxOf_inj hok) hx.2 hy.2
    ((hv.mem_before_iff hok h).mp hx.1).2 ((hv.mem_before_iff hok h).mp hy.1).2 hne)

/-! ### The colours -/

/-- All smaller colours are taken. -/
theorem leastFree_least (taken : List Nat) : ∀ c < leastFree taken, c ∈ taken := by
  intro c hc
  unfold leastFree at hc
  cases hfind : (List.range (taken.length + 1)).find? fun c => !taken.contains c with
  | some d =>
    rw [hfind] at hc
    simpa using (List.find?_range_eq_some.mp hfind).2.2 c hc
  | none =>
    rw [hfind] at hc
    have hall := List.find?_eq_none.mp hfind c (List.mem_range.mpr (Nat.lt_succ_of_lt hc))
    simpa using hall

/-- Colouring changes no colour of a node outside the order. -/
theorem get?_colorFrom : ∀ (order : List Nat) {colors final : IdMap Nat}, g.colorFrom order colors = .ok final →
    ∀ {x}, x ∉ order → final.get? x = colors.get? x
  | [], _, _, h, _, _ => by rw [Except.ok.inj h]
  | a :: order, colors, final, h, x, hx => by
    obtain ⟨s, -, h⟩ := bind_eq_ok.mp h
    obtain ⟨hne, hx⟩ := not_or.mp (mt List.mem_cons.mpr hx)
    rw [get?_colorFrom order h hx, IdMap.get?_insert, if_neg hne]

/-- A node takes a colour only if neighbours before it have all smaller ones. -/
theorem colorFrom_least : ∀ (order : List Nat) {colors final : IdMap Nat}, g.colorFrom order colors = .ok final →
    order.Nodup → (∀ a ∈ order, a ∉ colors.keys) →
    ∀ {before behind : List Nat} {a c : Nat}, order = before ++ a :: behind → final.get? a = some c →
      ∀ c' < c, ∃ b, (b ∈ before ∨ b ∈ colors.keys) ∧ g.Adj a b ∧ final.get? b = some c'
  | [], _, _, _, _, _, before, _, _, _, hsplit, _ =>
    absurd hsplit.symm (List.append_ne_nil_of_right_ne_nil before (List.cons_ne_nil _ _))
  | first :: order, colors, final, h, hnd, hnew, before, behind, a, c, hsplit, hc => by
    intro c' hlt
    obtain ⟨s, hs, h⟩ := bind_eq_ok.mp h
    have hnd := List.nodup_cons.mp hnd
    cases before with
    | nil =>
      obtain ⟨rfl, rfl⟩ := List.cons.inj hsplit
      rw [get?_colorFrom order h hnd.1, IdMap.get?_insert, if_pos rfl] at hc
      obtain rfl := Option.some.inj hc
      obtain ⟨b, hb, hcolor⟩ := List.mem_filterMap.mp (leastFree_least _ c' hlt)
      have hkey := IdMap.mem_keys_of_get? hcolor
      obtain ⟨hne, hlater⟩ := not_or.mp (mt List.mem_cons.mpr fun hmem => hnew b hmem hkey)
      refine ⟨b, .inr hkey, ⟨s, neighbors_eq_ok.mp hs, hb⟩, ?_⟩
      rw [get?_colorFrom order h hlater, IdMap.get?_insert, if_neg hne, hcolor]
    | cons _ before =>
      obtain ⟨rfl, hrest⟩ := List.cons.inj hsplit
      have hnew' : ∀ a ∈ order, a ∉ (colors.insert first (leastFree (s.filterMap colors.get?))).keys := by
        intro x hx hkey
        rcases (IdMap.mem_keys_insert _ _ _ _).mp hkey with rfl | hkey
        · exact hnd.1 hx
        · exact hnew x (List.mem_cons_of_mem _ hx) hkey
      obtain ⟨b, hb, hadj, hcolor⟩ := colorFrom_least order h hnd.2 hnew' hrest hc c' hlt
      refine ⟨b, ?_, hadj, hcolor⟩
      rw [IdMap.mem_keys_insert] at hb
      rw [List.mem_cons]
      tauto

/-- The colour of a node, if it has one. -/
def colorOf (colors : IdMap Nat) (a : Nat) : Nat := (colors.get? a).getD 0

/-- A clique needs a colour for each of its nodes. -/
theorem Proper.card_clique_le {colors : IdMap Nat} (hp : g.Proper colors) (hv : g.Valid) (hnd : colors.keys.Nodup)
    {s : Finset Nat} (hs : ∀ a ∈ s, a ∈ colors.keys) (hclique : g.simple.IsClique s) :
    s.card ≤ colors.values.toFinset.card := by
  refine Finset.card_le_card_of_injOn (colorOf colors) (fun a ha => ?_) fun a ha b hb heq => ?_
  · obtain ⟨c, hc⟩ := IdMap.exists_get? (hs a ha)
    rw [Finset.mem_coe, List.mem_toFinset, colorOf, hc]
    exact (IdMap.mem_values hnd).mpr ⟨a, hc⟩
  · by_contra hne
    obtain ⟨c, hc⟩ := IdMap.exists_get? (hs a ha)
    obtain ⟨d, hd⟩ := IdMap.exists_get? (hs b hb)
    obtain rfl : c = d := by simpa [colorOf, hc, hd] using heq
    exact hp (hv.simple_adj.mp (hclique ha hb hne)) hc hd

/-- A node and its earlier neighbours. -/
def withEarlier (g : Graph) (before : List Nat) (a : Nat) : Finset Nat :=
  insert a (before.toFinset.filter fun b => g.interferes b a = true)

theorem IsChordal.isClique_withEarlier (hc : g.IsChordal) (hv : g.Valid)
    (hok : g.cardinalityOrder = .ok order) (h : order = before ++ a :: behind) :
    g.simple.IsClique (g.withEarlier before a) := by
  have hset : ((before.toFinset.filter fun b => g.interferes b a = true : Finset Nat) : Set Nat) =
      {b | b ∈ before ∧ g.Adj b a} := by
    ext b
    simp [interferes_iff]
  rw [withEarlier, Finset.coe_insert, hset]
  exact (hc.earlier_clique hv hok h).insert fun b hb _ => hv.simple_adj.mpr (hv.symm hb.2)

section

variable (hv : g.Valid) (hok : g.cardinalityOrder = .ok order)
  (hcolors : g.colorInOrder order = .ok colors)

include hv hok hcolors

/-- The greedy colouring along the order of the search: a node takes a colour only if earlier
neighbours have all smaller ones. -/
theorem Valid.colors_least {c : Nat} (hsplit : order = before ++ a :: behind)
    (hc : colors.get? a = some c) :
    ∀ c' < c, ∃ b ∈ before, g.Adj b a ∧ colors.get? b = some c' := by
  intro c' hlt
  obtain ⟨b, hb, hadj, hcolor⟩ :=
    colorFrom_least order hcolors (hv.nodup_order hok) (by simp [IdMap.keys]) hsplit hc c' hlt
  refine ⟨b, ?_, hv.symm hadj, hcolor⟩
  simpa [IdMap.keys] using hb

/-- The colours of a graph are the numbers below one more than the largest. -/
theorem Valid.colors_eq_range (hnd : colors.keys.Nodup) (hkeys : ∀ a, a ∈ colors.keys ↔ a ∈ g.nodes) :
    colors.values.toFinset = Finset.range ((colors.values.map (· + 1)).foldl max 0) := by
  rw [foldl_max_eq_sup]
  apply toFinset_eq_range
  intro c hc c' hlt
  obtain ⟨a, ha⟩ := (IdMap.mem_values hnd).mp hc
  obtain ⟨before, behind, hsplit⟩ := hv.exists_split hok ((hkeys a).mp (IdMap.mem_keys_of_get? ha))
  obtain ⟨b, -, -, hb⟩ := hv.colors_least hok hcolors hsplit ha c' hlt
  exact (IdMap.mem_values hnd).mpr ⟨b, hb⟩

end

/-- In a chordal graph a node of the largest colour and its earlier neighbours are a clique
with a node of each colour. -/
theorem IsChordal.exists_clique (hchordal : g.IsChordal) (hv : g.Valid) {k : Nat}
    (hok : g.cardinalityOrder = .ok order) (hcolors : g.colorInOrder order = .ok colors)
    (hnd : colors.keys.Nodup) (hkeys : ∀ a, a ∈ colors.keys ↔ a ∈ g.nodes) (hproper : g.Proper colors)
    (hrange : colors.values.toFinset = Finset.range k) :
    ∃ s : Finset Nat, (∀ a ∈ s, a ∈ g.nodes) ∧ g.simple.IsNClique k s := by
  cases k with
  | zero => exact ⟨∅, by simp, by simp⟩
  | succ n =>
    obtain ⟨a, ha⟩ := (IdMap.mem_values hnd).mp (List.mem_toFinset.mp (hrange ▸ Finset.self_mem_range_succ n))
    have hnode := (hkeys a).mp (IdMap.mem_keys_of_get? ha)
    obtain ⟨before, behind, hsplit⟩ := hv.exists_split hok hnode
    have hclique := hchordal.isClique_withEarlier hv hok hsplit
    have hnodes : ∀ b ∈ g.withEarlier before a, b ∈ g.nodes := by
      intro b hb
      rcases Finset.mem_insert.mp hb with rfl | hb
      · exact hnode
      · exact (interferes_iff.mp (Finset.mem_filter.mp hb).2).mem_left
    refine ⟨g.withEarlier before a, hnodes, hclique, le_antisymm ?_ ?_⟩
    · have hle := hproper.card_clique_le hv hnd (fun b hb => (hkeys b).mpr (hnodes b hb)) hclique
      rwa [hrange, Finset.card_range] at hle
    · -- every colour up to that of the node is found among them
      rw [← Finset.card_range (n + 1)]
      refine Finset.card_le_card_of_surjOn (colorOf colors) fun c hc => ?_
      rcases Nat.lt_succ_iff_lt_or_eq.mp (Finset.mem_range.mp hc) with hlt | rfl
      · obtain ⟨b, hb, hadj, hcolor⟩ := hv.colors_least hok hcolors hsplit ha c hlt
        refine ⟨b, Finset.mem_insert_of_mem (Finset.mem_filter.mpr ⟨List.mem_toFinset.mpr hb, ?_⟩), ?_⟩
        · exact interferes_iff.mpr hadj
        · rw [colorOf, hcolor]
          rfl
      · refine ⟨a, Finset.mem_insert_self _ _, ?_⟩
        rw [colorOf, ha]
        rfl

/-- **Chordal graphs are coloured with as few colours as possible.** In the order of the
search the earlier neighbours of each node form a clique, and the number of colours is the
number of nodes of a largest clique. -/
theorem chordal_coloring_optimal (hbuilt : g.Built) (hchordal : g.IsChordal) :
    ∃ order, g.cardinalityOrder = .ok order ∧ order.Perm g.nodes ∧
    (∀ before a behind, order = before ++ a :: behind →
      g.simple.IsClique {b | b ∈ before ∧ g.Adj b a}) ∧
    ∃ colors k, g.colorInOrder order = .ok colors ∧ (∀ a, a ∈ colors.keys ↔ a ∈ g.nodes) ∧
      g.Proper colors ∧ colors.values.toFinset = Finset.range k ∧
      IsGreatest {n | ∃ s : Finset Nat, (∀ a ∈ s, a ∈ g.nodes) ∧ g.simple.IsNClique n s} k := by
  have hv := hbuilt.valid
  obtain ⟨order, hok, hperm, -⟩ := cardinalityOrder_ok hv
  refine ⟨order, hok, hperm, fun before a behind h => hchordal.earlier_clique hv hok h, ?_⟩
  obtain ⟨colors, hcolors, hsorted, hproper, hkeys⟩ := colorInOrder_ok hv hok
  have hnd := hsorted.nodup
  have hrange := hv.colors_eq_range hok hcolors hnd hkeys
  refine ⟨colors, _, hcolors, hkeys, hproper, hrange,
    hchordal.exists_clique hv hok hcolors hnd hkeys hproper hrange, ?_⟩
  rintro n ⟨s, hs, hclique⟩
  have hle := hproper.card_clique_le hv hnd (fun a ha => (hkeys a).mpr (hs a ha)) hclique.isClique
  rwa [hrange, Finset.card_range, hclique.card_eq] at hle

/-- Four nodes in a circle, two of them across from each other joined. -/
def diamond : Graph := ⟨[(0, [1, 2, 3]), (1, [0, 2]), (2, [0, 1, 3]), (3, [0, 2])]⟩

/-- A fifth node, adjacent to the two that are not joined, came and went. -/
theorem built_diamond : diamond.Built := by
  have hnodes := ((((Built.empty.addNode (a := 0) rfl).addNode (a := 1) rfl).addNode
    (a := 2) rfl).addNode (a := 3) rfl).addNode (a := 4) rfl
  have hcircle := (((hnodes.addEdge (a := 0) (b := 1) rfl).addEdge (a := 1) (b := 2) rfl).addEdge
    (a := 2) (b := 3) rfl).addEdge (a := 3) (b := 0) rfl
  have hjoined := ((hcircle.addEdge (a := 0) (b := 2) rfl).addEdge (a := 4) (b := 1) rfl).addEdge
    (a := 4) (b := 3) rfl
  exact hjoined.removeNode (a := 4) (s := [1, 3]) rfl

theorem isChordal_diamond : diamond.IsChordal := by
  have hv := built_diamond.valid
  have hall : ∀ c ∈ diamond.nodes, ∀ a ∈ diamond.nodes, ∀ b ∈ diamond.nodes, diamond.interferes a c = true →
      diamond.interferes b c = true → a < c → b < c → a ≠ b → diamond.interferes a b = true := by decide
  refine isChordal_of_clique hv (fun _ _ h => h) fun {a b c} hac hbc ha hb hne => ?_
  exact interferes_iff.mp (hall c (hv.mem_right hac) a hac.mem_left b hbc.mem_left (interferes_iff.mpr hac)
    (interferes_iff.mpr hbc) ha hb hne)

/-- The two nodes that are not joined share a colour, and three nodes are a clique. -/
theorem diamond_colors : diamond.Built ∧ diamond.IsChordal ∧
    (do diamond.colorInOrder (← diamond.cardinalityOrder)) = .ok [(0, 0), (1, 1), (2, 2), (3, 1)] ∧
    IsGreatest {n | ∃ s : Finset Nat, (∀ a ∈ s, a ∈ diamond.nodes) ∧ diamond.simple.IsNClique n s} 3 := by
  have hrun : (do diamond.colorInOrder (← diamond.cardinalityOrder)) = .ok [(0, 0), (1, 1), (2, 2), (3, 1)] := by
    decide
  obtain ⟨order, horder, -, -, colors, k, hok, -, -, hrange, hgreatest⟩ :=
    chordal_coloring_optimal built_diamond isChordal_diamond
  obtain ⟨order', horder', hok'⟩ := bind_eq_ok.mp hrun
  obtain rfl := Except.ok.inj (horder.symm.trans horder')
  obtain rfl := Except.ok.inj (hok'.symm.trans hok)
  have hk : k = 3 := by
    rw [← Finset.card_range k, ← hrange]
    decide
  exact ⟨built_diamond, isChordal_diamond, hrun, hk ▸ hgreatest⟩

end Interference.Graph
end Chordal
