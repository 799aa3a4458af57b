/-
# Graphs that are built step by step

A graph starts without nodes and changes by one operation at a time. Removing a
node leaves the other nodes and the edges between them: the node itself is not a
key any more, and its neighbours, which are the only nodes with an edge to it,
forget it.

Key definitions: `Graph.Built`.
Key theorems: `Graph.removeNode_ok`, `Graph.Built.valid`.
-/
import Mathlib
import Chordal.Proofs.Interference

namespace Chordal

namespace IdMap

variable {α : Type}

/-- Nothing is at a key that was erased, and no other key changes. -/
theorem get?_erase (k : Nat) : ∀ (m : IdMap α) (j : Nat), get? (erase k m) j = if j = k then none else get? m j
  | [], j => by simp [erase]
  | p :: m, j => by
    have ih := get?_erase k m j
    unfold erase at ih ⊢
    by_cases hp : p.1 = k
    · rw [List.filter_cons_of_neg (by simpa using hp), ih, get?_cons]
      by_cases hj : j = k
      · rw [if_pos hj, if_pos hj]
      · rw [if_neg hj, if_neg hj, if_neg fun h => hj (h.symm.trans hp)]
    · rw [List.filter_cons_of_pos (by simpa using hp), get?_cons, ih, get?_cons]
      by_cases hj : j = k
      · rw [if_pos hj, if_pos hj, if_neg fun h => hp (h.trans hj)]
      · rw [if_neg hj, if_neg hj]

theorem keys_erase (k : Nat) (m : IdMap α) : (erase k m).keys = m.keys.filter (· != k) := by
  unfold erase keys
  rw [List.filter_map]
  rfl

/-- To erase a key that is not there changes nothing. -/
theorem erase_of_get?_eq_none {k : Nat} {m : IdMap α} (h : get? m k = none) : erase k m = m := by
  refine List.filter_eq_self.mpr fun p hp => ?_
  have hk : k ∉ m.keys := get?_eq_none_iff.mp h
  simp only [bne_iff_ne, ne_eq]
  rintro rfl
  exact hk (List.mem_map_of_mem hp)

end IdMap

namespace Interference.Graph

variable {g g' : Graph} {a b x y : Nat}

theorem neighbors_eq_ok {s : IdSet} : g.neighbors a = .ok s ↔ g.adjacency.get? a = some s := by
  unfold neighbors
  cases g.adjacency.get? a with
  | none => simp
  | some t => simp

/-- Both ends of an edge are nodes. -/
theorem Adj.mem_left (h : g.Adj a b) : a ∈ g.nodes := by
  obtain ⟨s, hs, -⟩ := h
  exact IdMap.mem_keys_of_get? hs

theorem Valid.mem_right (hv : g.Valid) (h : g.Adj a b) : b ∈ g.nodes := (hv.symm h).mem_left

theorem interferes_iff : g.interferes a b = true ↔ g.Adj a b := by
  unfold interferes Adj
  cases g.adjacency.get? a with
  | none => simp
  | some s => simp

/-! ### Removing a node -/

/-- The sets of the nodes in which those of `others` have forgotten `a`. -/
abbrev forgotten (a : Nat) (others : IdSet) (m : IdMap IdSet) : IdMap IdSet :=
  m.map fun p => if others.contains p.1 then (p.1, IdSet.erase a p.2) else p

/-- The neighbours of a node that goes forget it, and no other node changes. -/
theorem get?_forgotten (a : Nat) (s : IdSet) (x : Nat) : ∀ m : IdMap IdSet,
    (forgotten a s m).get? x = if x ∈ s then (m.get? x).map (IdSet.erase a) else m.get? x
  | [] => by simp
  | p :: m => by
    rw [forgotten, List.map_cons, IdMap.get?_cons, IdMap.get?_cons, get?_forgotten a s x m]
    by_cases hp : p.1 = x
    · subst hp
      by_cases hs : p.1 ∈ s <;> simp [hs]
    · by_cases hs : p.1 ∈ s <;> simp [hs, hp]

theorem keys_forgotten (a : Nat) (s : IdSet) (m : IdMap IdSet) : (forgotten a s m).keys = m.keys := by
  unfold IdMap.keys
  rw [List.map_map]
  refine List.map_congr_left fun p _ => ?_
  simp only [Function.comp_apply]
  split_ifs <;> rfl

/-- The node goes first, and then its neighbours forget it. -/
theorem run_removeNode (g : Graph) (a : Nat) : (removeNode a).run g =
    match g.adjacency.get? a with
    | none => .error (.unknownNode a) ⟨g.adjacency.erase a⟩
    | some s => .ok s ⟨forgotten a s (g.adjacency.erase a)⟩ := by
  unfold removeNode
  simp only [EStateM.run_bind, EStateM.run_get, EStateM.run_modify]
  cases g.adjacency.get? a <;> rfl

/-- A node of a valid graph can be removed, with its edges and with no others. -/
theorem removeNode_ok (h : g.Valid) (ha : a ∈ g.nodes) :
    ∃ s g', (removeNode a).run g = .ok s g' ∧ g.adjacency.get? a = some s ∧ g'.Valid ∧
      g'.nodes = g.nodes.filter (· != a) ∧ ∀ x y, g'.Adj x y ↔ g.Adj x y ∧ x ≠ a ∧ y ≠ a := by
  obtain ⟨s, hs⟩ := IdMap.exists_get? ha
  refine ⟨s, ⟨forgotten a s (g.adjacency.erase a)⟩, ?_, hs, ?_⟩
  · rw [run_removeNode, hs]
  · have hnodes : nodes ⟨forgotten a s (g.adjacency.erase a)⟩ =
        g.nodes.filter (· != a) := (keys_forgotten a s _).trans (IdMap.keys_erase a g.adjacency)
    have hadj : ∀ x y, Adj ⟨forgotten a s (g.adjacency.erase a)⟩ x y ↔
        g.Adj x y ∧ x ≠ a ∧ y ≠ a := by
      intro x y
      -- only the neighbours of the node have an edge to it
      have hback : g.Adj x a → x ∈ s := fun hx => by
        obtain ⟨t, ht, hmem⟩ := h.symm hx
        exact Option.some.inj (hs.symm.trans ht) ▸ hmem
      unfold Adj at hback ⊢
      simp only [get?_forgotten, IdMap.get?_erase]
      by_cases hxa : x = a
      · simp [hxa]
      · by_cases hxs : x ∈ s
        · cases g.adjacency.get? x <;> simp [hxa, hxs, IdSet.mem_erase]
        · have hne : ∀ t, g.adjacency.get? x = some t → y ∈ t → y ≠ a := by
            rintro t ht hy rfl
            exact hxs (hback ⟨t, ht, hy⟩)
          simp only [if_neg hxa, if_neg hxs]
          constructor
          · rintro ⟨t, ht, hy⟩
            exact ⟨⟨t, ht, hy⟩, hxa, hne t ht hy⟩
          · rintro ⟨hxy, -, -⟩
            exact hxy
    refine ⟨⟨hnodes ▸ h.sorted.filter _, fun {x y} hxy => ?_, fun {x} hx => ?_⟩, hnodes, hadj⟩
    · obtain ⟨hxy, hx, hy⟩ := (hadj x y).mp hxy
      exact (hadj y x).mpr ⟨h.symm hxy, hy, hx⟩
    · exact h.irrefl ((hadj x x).mp hx).1

/-! ### Building -/

/-- What the operations lead to from the graph without nodes. -/
inductive Built : Graph → Prop
  | empty : Built empty
  | addNode {g g' : Graph} {a : Nat} {isNew : Bool} :
    Built g → (Graph.addNode a).run g = .ok isNew g' → Built g'
  | addEdge {g g' : Graph} {a b : Nat} : Built g → (Graph.addEdge a b).run g = .ok () g' → Built g'
  | removeNode {g g' : Graph} {a : Nat} {s : IdSet} :
    Built g → (Graph.removeNode a).run g = .ok s g' → Built g'

theorem Valid.addNode {isNew : Bool} (h : g.Valid) (hok : (Graph.addNode a).run g = .ok isNew g') :
    g'.Valid := by
  obtain ⟨g₁, hg₁, hv, -⟩ := addNode_ok h a
  obtain ⟨-, rfl⟩ := EStateM.Result.ok.inj (hg₁.symm.trans hok)
  exact hv

/-- An edge joins two different nodes. -/
theorem ends_of_addEdge (hok : (addEdge a b).run g = .ok () g') : a ≠ b ∧ a ∈ g.nodes ∧ b ∈ g.nodes := by
  rw [run_addEdge] at hok
  split_ifs at hok with hab ha hb
  exact ⟨hab, contains_iff.mp (by simpa using ha), contains_iff.mp (by simpa using hb)⟩

theorem Valid.addEdge (h : g.Valid) (hok : (Graph.addEdge a b).run g = .ok () g') : g'.Valid := by
  obtain ⟨hab, ha, hb⟩ := ends_of_addEdge hok
  obtain ⟨g₁, hg₁, hv, -⟩ := addEdge_ok h hab ha hb
  obtain ⟨-, rfl⟩ := EStateM.Result.ok.inj (hg₁.symm.trans hok)
  exact hv

/-- Only a node can be removed. -/
theorem mem_of_removeNode {s : IdSet} (hok : (removeNode a).run g = .ok s g') : a ∈ g.nodes := by
  rw [run_removeNode] at hok
  cases hs : g.adjacency.get? a with
  | none =>
    rw [hs] at hok
    cases hok
  | some t => exact IdMap.mem_keys_of_get? hs

theorem Valid.removeNode {s : IdSet} (h : g.Valid) (hok : (Graph.removeNode a).run g = .ok s g') :
    g'.Valid := by
  obtain ⟨s₁, g₁, hg₁, -, hv, -⟩ := removeNode_ok h (mem_of_removeNode hok)
  obtain ⟨-, rfl⟩ := EStateM.Result.ok.inj (hg₁.symm.trans hok)
  exact hv

/-- Every graph that is built is valid. -/
theorem Built.valid (h : g.Built) : g.Valid := by
  induction h with
  | empty => exact valid_empty
  | addNode _ hok ih => exact ih.addNode hok
  | addEdge _ hok ih => exact ih.addEdge hok
  | removeNode _ hok ih => exact ih.removeNode hok

end Interference.Graph
end Chordal
