/-
# Colouring

The search takes nodes out of a copy of the graph until none is left, so it never
asks for a node that is not there and puts every node in its order once. The
weight of a node is the number of its neighbours that are out already. Each node
in turn takes a colour that no neighbour has, and the neighbours that come later
see it, so in the end neighbours have different colours.

Key definitions: `Graph.seen`, `Graph.Left`, `Graph.Proper`.
Key theorems: `Graph.orderFrom_ok`, `Graph.cardinalityOrder_ok`, `Graph.colorInOrder_ok`.
-/
import Mathlib
import Chordal.Interference.Coloring
import Chordal.Proofs.Interference.Operations

namespace Chordal.Interference.Graph

variable {g : Graph}

/-! ### The order -/

theorem heaviest_mem : ∀ {weights : IdMap Nat} {p : Nat × Nat}, heaviest weights = some p → p ∈ weights
  | [], p, h => by cases h
  | q :: weights, p, h => by
    rw [heaviest] at h
    cases hrest : heaviest weights with
    | none =>
      rw [hrest] at h
      exact Option.some.inj h ▸ List.mem_cons_self
    | some r =>
      rw [hrest] at h
      simp only at h
      split_ifs at h
      · exact List.mem_cons_of_mem q (heaviest_mem (Option.some.inj h ▸ hrest))
      · exact Option.some.inj h ▸ List.mem_cons_self

theorem heaviest_eq_none {weights : IdMap Nat} (h : heaviest weights = none) : weights = [] := by
  cases weights with
  | nil => rfl
  | cons q weights =>
    rw [heaviest] at h
    cases hrest : heaviest weights with
    | none =>
      rw [hrest] at h
      cases h
    | some r =>
      rw [hrest] at h
      simp only at h
      split_ifs at h

theorem heaviest_max : ∀ {weights : IdMap Nat} {p : Nat × Nat}, heaviest weights = some p →
    ∀ q ∈ weights, q.2 ≤ p.2
  | r :: weights, p, h, q, hq => by
    rw [heaviest] at h
    cases hrest : heaviest weights with
    | none =>
      rw [hrest] at h
      obtain rfl := Option.some.inj h
      obtain rfl : q = r := by simpa [heaviest_eq_none hrest] using hq
      exact le_rfl
    | some t =>
      have ht := heaviest_max hrest
      rw [hrest] at h
      simp only at h
      split_ifs at h with hlt
      · obtain rfl := Option.some.inj h
        rcases List.mem_cons.mp hq with rfl | hq
        · exact hlt.le
        · exact ht q hq
      · obtain rfl := Option.some.inj h
        rcases List.mem_cons.mp hq with rfl | hq
        · exact le_rfl
        · exact (ht q hq).trans (not_lt.mp hlt)

/-- How many nodes of `done` are neighbours of `a`. -/
def seen (g : Graph) (done : List Nat) (a : Nat) : Nat := done.countP (g.interferes · a)

theorem seen_append (g : Graph) (done : List Nat) (a x : Nat) :
    g.seen (done ++ [a]) x = if g.interferes a x then g.seen done x + 1 else g.seen done x := by
  unfold seen
  rw [List.countP_append, List.countP_singleton]
  split_ifs <;> rfl

/-- What the search is left with after the nodes of `done`: the graph between the other nodes, and for
each of them the number of its neighbours in `done`. -/
structure Left (g : Graph) (done : List Nat) (rest : Graph) (weights : IdMap Nat) : Prop where
  valid : rest.Valid
  adj : ∀ {x y}, x ∈ rest.nodes → y ∈ rest.nodes → (rest.Adj x y ↔ g.Adj x y)
  weights : weights = rest.nodes.map fun x => (x, g.seen done x)

variable {done : List Nat} {rest : Graph} {weights : IdMap Nat}

theorem Left.mem_weights (h : g.Left done rest weights) {x w : Nat} :
    (x, w) ∈ weights ↔ x ∈ rest.nodes ∧ w = g.seen done x := by
  rw [h.weights, List.mem_map]
  constructor
  · rintro ⟨y, hy, heq⟩
    obtain ⟨rfl, rfl⟩ := Prod.mk.inj heq
    exact ⟨hy, rfl⟩
  · rintro ⟨hx, rfl⟩
    exact ⟨x, hx, rfl⟩

/-- A round of the search keeps what is left right. -/
theorem Left.step (h : g.Left done rest weights) {a : Nat} (ha : a ∈ rest.nodes) :
    ∃ s next, (removeNode a).run rest = .ok s next ∧ next.nodes = rest.nodes.filter (· != a) ∧
      g.Left (done ++ [a]) next (raise s (weights.erase a)) := by
  obtain ⟨s, next, hrun, hs, hvalid, hnodes, hadj⟩ := removeNode_ok h.valid ha
  refine ⟨s, next, hrun, hnodes, hvalid, fun {x y} hx hy => ?_, ?_⟩
  · rw [hnodes, List.mem_filter, bne_iff_ne] at hx hy
    rw [hadj, ← h.adj hx.1 hy.1]
    exact ⟨And.left, fun hxy => ⟨hxy, hx.2, hy.2⟩⟩
  · rw [hnodes, h.weights, IdMap.erase, List.filter_map, raise, List.map_map]
    refine List.map_congr_left fun x hx => ?_
    have hneighbor : x ∈ s ↔ g.interferes a x = true := by
      rw [interferes_iff, ← h.adj ha (List.mem_filter.mp hx).1, Adj, hs]
      simp
    rw [seen_append]
    by_cases hx : x ∈ s
    · simp [hx, hneighbor.mp hx]
    · simp [hx, mt hneighbor.mpr hx]

/-- With a round for each node, the search puts every node in the order, and none that comes later
had more neighbours there. -/
theorem orderFrom_ok : ∀ (rounds : Nat) {done : List Nat} {rest : Graph} {weights : IdMap Nat},
    g.Left done rest weights → rest.nodes.length ≤ rounds →
    ∃ order last, (orderFrom rounds weights).run rest = .ok order last ∧ order.Perm rest.nodes ∧
      ∀ {before behind a}, order = before ++ a :: behind →
        ∀ b ∈ behind, g.seen (done ++ before) b ≤ g.seen (done ++ before) a
  | 0, done, rest, weights, _, hle => by
    refine ⟨[], rest, rfl, ?_, fun {before behind a} hsplit => by simp at hsplit⟩
    rw [List.length_eq_zero_iff.mp (Nat.le_zero.mp hle)]
  | rounds + 1, done, rest, weights, h, hle => by
    cases hheavy : heaviest weights with
    | none =>
      refine ⟨[], rest, by simp [orderFrom, hheavy], ?_, fun {before behind a} hsplit => by simp at hsplit⟩
      rw [List.map_eq_nil_iff.mp (h.weights.symm.trans (heaviest_eq_none hheavy))]
    | some p =>
      obtain ⟨a, w⟩ := p
      obtain ⟨ha, hw⟩ := h.mem_weights.mp (heaviest_mem hheavy)
      obtain ⟨s, next, hrun, hnodes, hnext⟩ := h.step ha
      have herase : next.nodes = rest.nodes.erase a := by
        rw [hnodes, h.valid.sorted.nodup.erase_eq_filter]
      have hlen : next.nodes.length ≤ rounds := by
        rw [herase, List.length_erase_of_mem ha]
        omega
      obtain ⟨order, last, horder, hperm, hseen⟩ := orderFrom_ok rounds hnext hlen
      refine ⟨a :: order, last, by simp [orderFrom, hheavy, hrun, horder], ?_, ?_⟩
      · exact ((herase ▸ hperm).cons a).trans (List.perm_cons_erase ha).symm
      · intro before behind x hsplit b hb
        cases before with
        | nil =>
          obtain ⟨rfl, rfl⟩ := List.cons.inj hsplit
          -- a node that comes later was there in this round
          have hbmem : b ∈ rest.nodes := List.mem_of_mem_erase (herase ▸ hperm.mem_iff.mp hb)
          rw [List.append_nil, ← hw]
          exact heaviest_max hheavy (b, g.seen done b) (h.mem_weights.mpr ⟨hbmem, rfl⟩)
        | cons first before =>
          obtain ⟨rfl, hrest⟩ := List.cons.inj hsplit
          have hlater := hseen hrest b hb
          rwa [List.append_assoc] at hlater

/-- At the start nothing is in the order, and every weight is zero. -/
theorem Valid.left (h : g.Valid) : g.Left [] g (g.nodes.map fun a => (a, 0)) where
  valid := h
  adj _ _ := Iff.rfl
  weights := rfl

/-- The search never fails. Its order holds every node once, and each has no fewer neighbours before it
than any later node has there. -/
theorem cardinalityOrder_ok (h : g.Valid) :
    ∃ order, g.cardinalityOrder = .ok order ∧ order.Perm g.nodes ∧
      ∀ {before behind a}, order = before ++ a :: behind → ∀ b ∈ behind, g.seen before b ≤ g.seen before a := by
  obtain ⟨order, last, hrun, hperm, hseen⟩ :=
    orderFrom_ok g.nodeCount h.left (by simp [nodeCount, nodes, IdMap.keys])
  refine ⟨order, ?_, hperm, hseen⟩
  unfold cardinalityOrder Change.answer
  rw [hrun]

theorem cardinalityOrder_perm {order : List Nat} (h : g.Valid) (hok : g.cardinalityOrder = .ok order) :
    order.Perm g.nodes := by
  obtain ⟨order', hok', hperm, -⟩ := cardinalityOrder_ok h
  exact Except.ok.inj (hok'.symm.trans hok) ▸ hperm

/-! ### Colours -/

/-- Among one colour more than are taken, one is free. -/
theorem exists_free (taken : List Nat) : ∃ c ∈ List.range (taken.length + 1), c ∉ taken := by
  by_contra hall
  push Not at hall
  have hlen := (List.nodup_range.subperm hall).length_le
  rw [List.length_range] at hlen
  omega

theorem leastFree_spec (taken : List Nat) : leastFree taken ∉ taken ∧ leastFree taken ≤ taken.length := by
  unfold leastFree
  cases hfind : (List.range (taken.length + 1)).find? fun c => !taken.contains c with
  | some c =>
    have hc := List.mem_range.mp (List.mem_of_find?_eq_some hfind)
    have hfree : c ∉ taken := by simpa using List.find?_some hfind
    exact ⟨hfree, Nat.lt_succ_iff.mp hc⟩
  | none =>
    obtain ⟨c, hc, hfree⟩ := exists_free taken
    have := List.find?_eq_none.mp hfind c hc
    simp [hfree] at this

/-- Neighbours that have colours have different ones. -/
def Proper (g : Graph) (colors : IdMap Nat) : Prop :=
  ∀ {a b c}, g.Adj a b → colors.get? a = some c → colors.get? b ≠ some c

/-- A node takes the least colour that no neighbour has. -/
theorem Proper.insert {colors : IdMap Nat} {a : Nat} {s : IdSet} (h : g.Proper colors) (hv : g.Valid)
    (hs : g.adjacency.get? a = some s) :
    g.Proper (colors.insert a (leastFree (s.filterMap colors.get?))) := by
  have hfree := (leastFree_spec (s.filterMap colors.get?)).1
  -- no neighbour of the node has its colour
  have hnew : ∀ {b}, g.Adj a b → colors.get? b ≠ some (leastFree (s.filterMap colors.get?)) := by
    rintro b ⟨t, ht, hb⟩ hcolor
    obtain rfl := Option.some.inj (hs.symm.trans ht)
    exact hfree (List.mem_filterMap.mpr ⟨b, hb, hcolor⟩)
  intro x y c hxy hx hy
  rw [IdMap.get?_insert] at hx hy
  split_ifs at hx hy with hxa hya hya
  · exact hv.irrefl (hya ▸ hxa ▸ hxy)
  · exact hnew (hxa ▸ hxy) (hx ▸ hy)
  · exact hnew (hya ▸ hv.symm hxy) (hy ▸ hx)
  · exact h hxy hx hy

/-- Every node of the order gets a colour. -/
theorem colorFrom_ok (hv : g.Valid) : ∀ (order : List Nat) {colors : IdMap Nat},
    (∀ a ∈ order, a ∈ g.nodes) → colors.keys.Pairwise (· < ·) → g.Proper colors →
    ∃ final, g.colorFrom order colors = .ok final ∧ final.keys.Pairwise (· < ·) ∧ g.Proper final ∧
      ∀ a, a ∈ final.keys ↔ a ∈ order ∨ a ∈ colors.keys
  | [], colors, _, hs, hp => ⟨colors, rfl, hs, hp, fun a => by simp⟩
  | a :: order, colors, horder, hs, hp => by
    obtain ⟨s, hget⟩ := IdMap.exists_get? (horder a List.mem_cons_self)
    have hneighbors : g.neighbors a = .ok s := by
      unfold neighbors
      rw [hget]
    obtain ⟨final, hfinal, hsorted, hproper, hkeys⟩ := colorFrom_ok hv order
      (fun b hb => horder b (List.mem_cons_of_mem a hb))
      (IdMap.sorted_insert a (leastFree (s.filterMap colors.get?)) hs) (hp.insert hv hget)
    refine ⟨final, ?_, hsorted, hproper, fun b => (hkeys b).trans ?_⟩
    · rw [colorFrom, hneighbors]
      exact hfinal
    · rw [IdMap.mem_keys_insert, List.mem_cons]
      tauto

/-- The order of the search leads to a colour for every node, neighbours with
different ones. -/
theorem colorInOrder_ok (hv : g.Valid) {order : List Nat} (horder : g.cardinalityOrder = .ok order) :
    ∃ colors, g.colorInOrder order = .ok colors ∧ colors.keys.Pairwise (· < ·) ∧
      g.Proper colors ∧ ∀ a, a ∈ colors.keys ↔ a ∈ g.nodes := by
  have hperm := cardinalityOrder_perm hv horder
  have hnone : g.Proper [] := fun _ h => absurd h (Option.some_ne_none _).symm
  obtain ⟨colors, hok, hsorted, hproper, hkeys⟩ := colorFrom_ok hv order
    (fun a ha => hperm.mem_iff.mp ha) List.Pairwise.nil hnone
  refine ⟨colors, hok, hsorted, hproper, fun a => (hkeys a).trans ?_⟩
  rw [hperm.mem_iff]
  simp [IdMap.keys]

end Chordal.Interference.Graph
