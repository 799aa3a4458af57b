/-
# Graphs after any history of calls

A graph without nodes is changed by calls, and some of them fail: they name a node that is not
there, or join a node to itself. A call that fails also leaves a graph, and the next call goes on
with it. That graph is the one before the call, so what the operations keep holds after every
history. Each end of an edge records the other, no set of neighbours has a member twice, and so
each edge is counted twice when the sets of all nodes are counted.

Key definitions: `Graph.Call`, `Graph.change`, `Graph.afterAll`, `Graph.Neat`, `Graph.arcs`.
Key theorems: `Graph.Built.afterAll`, `Graph.Built.neat`, `Graph.encard_edges`,
`Graph.history_keeps_graph`.
-/
import Mathlib
import Chordal.Proofs.Interference.Operations

namespace Chordal.Interference.Graph

variable {g g' : Graph} {a b x y : Nat}

/-! ### Calls -/

/-- A call of one of the operations that change a graph. -/
inductive Call where
  | addNode (a : Nat)
  | addEdge (a b : Nat)
  | removeNode (a : Nat)
deriving DecidableEq, Repr

/-- What a call answers if it does not fail: whether a node is new, nothing, or the neighbours
that a node had. -/
inductive Answer where
  | node (isNew : Bool)
  | edge
  | removed (neighbors : IdSet)
deriving DecidableEq, Repr

/-- What a call does to a graph, and its answer if it does not fail. -/
def change : Call → Change Answer
  | .addNode a => return .node (← addNode a)
  | .addEdge a b => do
    addEdge a b
    return .edge
  | .removeNode a => return .removed (← removeNode a)

/-- The graph that a call leaves, whether it fails or not. -/
def after (g : Graph) (c : Call) : Graph :=
  match (change c).run g with
  | .ok _ g' => g'
  | .error _ g' => g'

/-- The graph behind calls that are made one after another. -/
def afterAll (g : Graph) (history : List Call) : Graph := history.foldl after g

variable {c : Call} {answer : Answer} {e : Failure}

theorem after_of_ok (h : (change c).run g = .ok answer g') : g.after c = g' := by
  unfold after
  rw [h]

/-- What is made of an answer changes neither the graph nor whether there is an answer. -/
theorem run_answer_eq_ok {α : Type} {x : Change α} {f : α → Answer} :
    (do return f (← x) : Change Answer).run g = .ok answer g' ↔ ∃ a, x.run g = .ok a g' ∧ answer = f a := by
  simp only [EStateM.run_bind]
  cases x.run g with
  | error e g₁ => simp
  | ok a g₁ =>
    constructor
    · intro h
      obtain ⟨rfl, rfl⟩ := EStateM.Result.ok.inj h
      exact ⟨a, rfl, rfl⟩
    · rintro ⟨_, h, rfl⟩
      obtain ⟨rfl, rfl⟩ := EStateM.Result.ok.inj h
      rfl

theorem change_addNode_eq_ok : (change (.addNode a)).run g = .ok answer g' ↔
    ∃ isNew, (addNode a).run g = .ok isNew g' ∧ answer = .node isNew := run_answer_eq_ok

theorem change_addEdge_eq_ok : (change (.addEdge a b)).run g = .ok answer g' ↔
    (addEdge a b).run g = .ok () g' ∧ answer = .edge := by
  refine (run_answer_eq_ok (f := fun _ => .edge)).trans ⟨?_, fun h => ⟨(), h⟩⟩
  rintro ⟨⟨⟩, h⟩
  exact h

theorem change_removeNode_eq_ok : (change (.removeNode a)).run g = .ok answer g' ↔
    ∃ s, (removeNode a).run g = .ok s g' ∧ answer = .removed s := run_answer_eq_ok

/-! ### When calls fail -/

theorem contains_eq_false_iff : g.contains a = false ↔ a ∉ g.nodes := by
  rw [← contains_iff, Bool.not_eq_true]

/-- A node can always be added. -/
theorem change_addNode_ne_error : (change (.addNode a)).run g ≠ .error e g' := by
  simp only [change, EStateM.run_bind, run_addNode]
  split_ifs <;> simp

/-- An edge is refused if it joins a node to itself, or if one of its ends is not there. Both ends
are looked at before anything is recorded. -/
theorem change_addEdge_eq_error : (change (.addEdge a b)).run g = .error e g' ↔
    g' = g ∧ (a = b ∧ e = .selfEdge a ∨ a ≠ b ∧ a ∉ g.nodes ∧ e = .unknownNode a ∨
      a ≠ b ∧ a ∈ g.nodes ∧ b ∉ g.nodes ∧ e = .unknownNode b) := by
  simp only [change, EStateM.run_bind, run_addEdge, Bool.not_eq_true', contains_eq_false_iff]
  split_ifs with hab ha hb <;> simp [*, and_comm, eq_comm]

/-- Only a node can be removed. What is not there was no key, so to erase it changed nothing. -/
theorem change_removeNode_eq_error : (change (.removeNode a)).run g = .error e g' ↔
    g' = g ∧ a ∉ g.nodes ∧ e = .unknownNode a := by
  simp only [change, EStateM.run_bind, run_removeNode]
  cases hs : g.adjacency.get? a with
  | none =>
    have ha : a ∉ g.nodes := IdMap.get?_eq_none_iff.mp hs
    rw [IdMap.erase_of_get?_eq_none hs]
    constructor
    · intro h
      obtain ⟨rfl, rfl⟩ := EStateM.Result.error.inj h
      exact ⟨rfl, ha, rfl⟩
    · rintro ⟨rfl, -, rfl⟩
      rfl
  | some s =>
    have ha : a ∈ g.nodes := IdMap.mem_keys_of_get? hs
    simp [ha]

/-- A call that fails leaves the graph as it was. -/
theorem eq_of_change_error (h : (change c).run g = .error e g') : g' = g := by
  cases c with
  | addNode a => exact absurd h change_addNode_ne_error
  | addEdge a b => exact (change_addEdge_eq_error.mp h).1
  | removeNode a => exact (change_removeNode_eq_error.mp h).1

theorem after_of_error (h : (change c).run g = .error e g') : g.after c = g := by
  unfold after
  rw [h]
  exact eq_of_change_error h

/-! ### Histories -/

theorem Built.after (h : g.Built) (c : Call) : (g.after c).Built := by
  cases hc : (change c).run g with
  | error e g' => rwa [after_of_error hc]
  | ok answer g' =>
    rw [after_of_ok hc]
    cases c with
    | addNode a =>
      obtain ⟨isNew, hok, -⟩ := change_addNode_eq_ok.mp hc
      exact h.addNode hok
    | addEdge a b => exact h.addEdge (change_addEdge_eq_ok.mp hc).1
    | removeNode a =>
      obtain ⟨s, hs, -⟩ := change_removeNode_eq_ok.mp hc
      exact h.removeNode hs

theorem Built.afterAll (h : g.Built) (history : List Call) : (g.afterAll history).Built := by
  induction history generalizing g with
  | nil => exact h
  | cons c history ih => exact ih (h.after c)

/-! ### Sets of neighbours in order -/

/-- Every set of neighbours is in order, so it has no member twice. -/
def Neat (g : Graph) : Prop := ∀ a s, g.adjacency.get? a = some s → s.Pairwise (· < ·)

theorem neat_empty : empty.Neat := fun a s h => by cases h

theorem Neat.addNode {isNew : Bool} (h : g.Neat) (hok : (Graph.addNode a).run g = .ok isNew g') :
    g'.Neat := by
  rw [run_addNode] at hok
  split_ifs at hok
  · obtain ⟨-, rfl⟩ := EStateM.Result.ok.inj hok
    exact h
  · obtain ⟨-, rfl⟩ := EStateM.Result.ok.inj hok
    intro x s hs
    rw [IdMap.get?_insert] at hs
    split_ifs at hs
    · exact Option.some.inj hs ▸ List.Pairwise.nil
    · exact h x s hs

/-- A change of one set keeps the sets in order if it keeps that one in order. -/
theorem Neat.modify {f : IdSet → IdSet} (h : g.Neat) (hf : ∀ s : IdSet, s.Pairwise (· < ·) → (f s).Pairwise (· < ·))
    (a : Nat) : Neat ⟨g.adjacency.modify a f⟩ := by
  intro x s hs
  rw [IdMap.get?_modify] at hs
  split_ifs at hs
  · obtain ⟨t, ht, rfl⟩ := Option.map_eq_some_iff.mp hs
    exact hf t (h a t ht)
  · exact h x s hs

theorem Neat.addEdge (h : g.Neat) (hok : (Graph.addEdge a b).run g = .ok () g') : g'.Neat := by
  rw [run_addEdge] at hok
  split_ifs at hok
  obtain ⟨-, rfl⟩ := EStateM.Result.ok.inj hok
  exact (h.modify (fun _ => IdSet.sorted_insert b) a).modify (fun _ => IdSet.sorted_insert a) b

theorem Neat.removeNode {s : IdSet} (h : g.Neat) (hok : (Graph.removeNode a).run g = .ok s g') :
    g'.Neat := by
  obtain ⟨t, ht⟩ := IdMap.exists_get? (mem_of_removeNode hok)
  rw [run_removeNode, ht] at hok
  obtain ⟨rfl, rfl⟩ := EStateM.Result.ok.inj hok
  intro x u hu
  rw [get?_forgotten, IdMap.get?_erase] at hu
  by_cases hxa : x = a
  · simp [hxa] at hu
  · rw [if_neg hxa] at hu
    split_ifs at hu
    · obtain ⟨v, hv, rfl⟩ := Option.map_eq_some_iff.mp hu
      exact IdSet.sorted_erase a (h x v hv)
    · exact h x u hu

theorem Built.neat (h : g.Built) : g.Neat := by
  induction h with
  | empty => exact neat_empty
  | addNode _ hok ih => exact ih.addNode hok
  | addEdge _ hok ih => exact ih.addEdge hok
  | removeNode _ hok ih => exact ih.removeNode hok

/-! ### The number of edges -/

/-- The edges with their directions: each node with each of its neighbours. -/
def arcs (g : Graph) : List (Nat × Nat) := g.adjacency.flatMap fun p => p.2.map (Prod.mk p.1)

theorem length_arcs (g : Graph) : g.arcs.length = g.adjacency.values.flatten.length := by
  unfold arcs IdMap.values
  rw [List.length_flatMap, List.length_flatten, List.map_map]
  simp [Function.comp_def]

theorem mem_arcs (hv : g.Valid) : (a, b) ∈ g.arcs ↔ g.Adj a b := by
  unfold arcs Adj
  simp only [List.mem_flatMap, List.mem_map, Prod.mk.injEq]
  constructor
  · rintro ⟨⟨k, s⟩, hmem, c, hc, rfl, rfl⟩
    exact ⟨s, IdMap.get?_of_mem hv.sorted.nodup hmem, hc⟩
  · rintro ⟨s, hs, hb⟩
    exact ⟨(a, s), IdMap.mem_of_get? hs, b, hb, rfl, rfl⟩

theorem nodup_arcs (hv : g.Valid) (hneat : g.Neat) : g.arcs.Nodup := by
  have hkeys : g.adjacency.Pairwise fun p q => p.1 < q.1 := List.pairwise_map.mp hv.sorted
  apply nodup_flatMap_pairs
  · exact hkeys.imp Nat.ne_of_lt
  · intro p hp
    exact (hneat p.1 p.2 (IdMap.get?_of_mem hv.sorted.nodup hp)).nodup

/-- An arc without its direction. -/
def edgeOf (arc : Nat × Nat) : Sym2 Nat := s(arc.1, arc.2)

/-- Each edge is an arc in both directions, and in no other way. -/
theorem card_arcs_of_edge (hv : g.Valid) {arc : Nat × Nat} (h : arc ∈ g.arcs) :
    (g.arcs.toFinset.filter fun p => edgeOf p = edgeOf arc).card = 2 := by
  obtain ⟨a, b⟩ := arc
  have hadj := (mem_arcs hv).mp h
  have hne : (a, b) ≠ (b, a) := by
    intro heq
    obtain ⟨rfl, -⟩ := Prod.mk.inj heq
    exact hv.irrefl hadj
  have hpair : (g.arcs.toFinset.filter fun p => edgeOf p = edgeOf (a, b)) = {(a, b), (b, a)} := by
    ext ⟨x, y⟩
    simp only [Finset.mem_filter, List.mem_toFinset, mem_arcs hv, edgeOf, Sym2.eq_iff, Finset.mem_insert,
      Finset.mem_singleton, Prod.mk.injEq]
    constructor
    · exact And.right
    · rintro (⟨rfl, rfl⟩ | ⟨rfl, rfl⟩)
      · exact ⟨hadj, .inl ⟨rfl, rfl⟩⟩
      · exact ⟨hv.symm hadj, .inr ⟨rfl, rfl⟩⟩
  rw [hpair, Finset.card_pair hne]

/-- The pairs of adjacent nodes, without regard to their order. -/
def edges (g : Graph) : Set (Sym2 Nat) := {e | ∃ a b, g.interferes a b = true ∧ e = s(a, b)}

theorem edges_eq (hv : g.Valid) : g.edges = (g.arcs.toFinset.image edgeOf : Finset (Sym2 Nat)) := by
  ext e
  rw [Finset.mem_coe, Finset.mem_image]
  constructor
  · rintro ⟨a, b, hab, rfl⟩
    exact ⟨(a, b), List.mem_toFinset.mpr ((mem_arcs hv).mpr (interferes_iff.mp hab)), rfl⟩
  · rintro ⟨⟨a, b⟩, hmem, rfl⟩
    exact ⟨a, b, interferes_iff.mpr ((mem_arcs hv).mp (List.mem_toFinset.mp hmem)), rfl⟩

/-- The count is the number of edges. -/
theorem encard_edges (hv : g.Valid) (hneat : g.Neat) : g.edges.encard = g.edgeCount := by
  have hcount : g.adjacency.values.flatten.length = (g.arcs.toFinset.image edgeOf).card * 2 := by
    calc g.adjacency.values.flatten.length
        = g.arcs.toFinset.card := by
          rw [← length_arcs, List.toFinset_card_of_nodup (nodup_arcs hv hneat)]
      _ = ∑ e ∈ g.arcs.toFinset.image edgeOf, (g.arcs.toFinset.filter fun p => edgeOf p = e).card :=
          Finset.card_eq_sum_card_image edgeOf _
      _ = (g.arcs.toFinset.image edgeOf).card * 2 := by
          apply Finset.sum_const_nat
          intro e he
          obtain ⟨arc, harc, rfl⟩ := Finset.mem_image.mp he
          exact card_arcs_of_edge hv (List.mem_toFinset.mp harc)
  rw [edges_eq hv, Set.encard_coe_eq_coe_finsetCard]
  unfold edgeCount
  rw [hcount, Nat.mul_div_cancel _ (by norm_num)]

/-! ### After any history -/

/-- What the two directions of the edges say agrees: with each other, with the nodes, with the sets
of neighbours and with the count. -/
structure Faithful (g : Graph) : Prop where
  symm : ∀ x y, g.interferes x y = true → g.interferes y x = true
  irrefl : ∀ x, g.interferes x x = false
  nodes : ∀ x y, g.interferes x y = true → x ∈ g.nodes ∧ y ∈ g.nodes
  neighbors : ∀ x s, g.neighbors x = .ok s → s.Pairwise (· < ·) ∧ ∀ y, y ∈ s ↔ g.interferes x y = true
  count : g.edges.encard = g.edgeCount

theorem Built.faithful (h : g.Built) : g.Faithful where
  symm x y hxy := interferes_iff.mpr (h.valid.symm (interferes_iff.mp hxy))
  irrefl x := Bool.eq_false_iff.mpr fun hx => h.valid.irrefl (interferes_iff.mp hx)
  nodes x y hxy := by
    have hadj := interferes_iff.mp hxy
    exact ⟨hadj.mem_left, h.valid.mem_right hadj⟩
  neighbors x s hs := by
    have hget := neighbors_eq_ok.mp hs
    refine ⟨h.neat x s hget, fun y => ?_⟩
    rw [interferes_iff, Adj, hget]
    simp
  count := encard_edges h.valid h.neat

/-- How a graph takes a call. -/
structure Answers (g : Graph) : Prop where
  unchanged : ∀ c e g', (change c).run g = .error e g' → g' = g
  addNode : ∀ a, ∃ g', (change (.addNode a)).run g = .ok (.node (decide (a ∉ g.nodes))) g' ∧
    (∀ x, x ∈ g'.nodes ↔ x = a ∨ x ∈ g.nodes) ∧ ∀ x y, g'.interferes x y = g.interferes x y
  addEdge_fails : ∀ a b, (∃ e g', (change (.addEdge a b)).run g = .error e g') ↔
    a = b ∨ a ∉ g.nodes ∨ b ∉ g.nodes
  addEdge : ∀ a b answer g', (change (.addEdge a b)).run g = .ok answer g' → g'.nodes = g.nodes ∧
    ∀ x y, g'.interferes x y = true ↔ g.interferes x y = true ∨ x = a ∧ y = b ∨ x = b ∧ y = a
  removeNode_fails : ∀ a, (∃ e g', (change (.removeNode a)).run g = .error e g') ↔ a ∉ g.nodes
  removeNode : ∀ a answer g', (change (.removeNode a)).run g = .ok answer g' →
    (∃ s, answer = .removed s ∧ s.Pairwise (· < ·) ∧ ∀ x, x ∈ s ↔ g.interferes a x = true) ∧
    g'.nodes = g.nodes.filter (· != a) ∧
    ∀ x y, g'.interferes x y = true ↔ g.interferes x y = true ∧ x ≠ a ∧ y ≠ a

theorem Built.answers (h : g.Built) : g.Answers where
  unchanged c e g' := eq_of_change_error
  addNode a := by
    obtain ⟨g', hg', -, hnodes, hadj⟩ := addNode_ok h.valid a
    refine ⟨g', change_addNode_eq_ok.mpr ⟨_, hg', rfl⟩, hnodes, fun x y => ?_⟩
    rw [Bool.eq_iff_iff, interferes_iff, interferes_iff, hadj]
  addEdge_fails a b := by
    simp only [change_addEdge_eq_error]
    constructor
    · rintro ⟨e, g', -, ⟨hab, -⟩ | ⟨-, ha, -⟩ | ⟨-, -, hb, -⟩⟩
      · exact .inl hab
      · exact .inr (.inl ha)
      · exact .inr (.inr hb)
    · intro h
      by_cases hab : a = b
      · exact ⟨_, g, rfl, .inl ⟨hab, rfl⟩⟩
      by_cases ha : a ∈ g.nodes
      · exact ⟨_, g, rfl, .inr (.inr ⟨hab, ha, by tauto, rfl⟩)⟩
      · exact ⟨_, g, rfl, .inr (.inl ⟨hab, ha, rfl⟩)⟩
  addEdge a b answer g' hok := by
    have hadd := (change_addEdge_eq_ok.mp hok).1
    obtain ⟨hab, ha, hb⟩ := ends_of_addEdge hadd
    obtain ⟨g₁, hg₁, -, hnodes, hadj⟩ := addEdge_ok h.valid hab ha hb
    obtain ⟨-, rfl⟩ := EStateM.Result.ok.inj (hg₁.symm.trans hadd)
    refine ⟨hnodes, fun x y => ?_⟩
    rw [interferes_iff, interferes_iff, hadj]
  removeNode_fails a := by simp [change_removeNode_eq_error]
  removeNode a answer g' hok := by
    obtain ⟨s, hs, rfl⟩ := change_removeNode_eq_ok.mp hok
    obtain ⟨t, g₁, hg₁, hget, -, hnodes, hadj⟩ := removeNode_ok h.valid (mem_of_removeNode hs)
    obtain ⟨rfl, rfl⟩ := EStateM.Result.ok.inj (hg₁.symm.trans hs)
    have hset := h.faithful.neighbors a t (neighbors_eq_ok.mpr hget)
    refine ⟨⟨t, rfl, hset⟩, hnodes, fun x y => ?_⟩
    rw [interferes_iff, interferes_iff, hadj]

/-- **A graph stays one under every history.** After any calls, some of which may have failed, the
edges go both ways and join different nodes, and the count is their number. The next call
fails if and only if it names a node that is not there or joins a node to itself, and the graph it
leaves then is the one it found; to remove a node leaves the other nodes and the edges between them. -/
theorem history_keeps_graph (history : List Call) :
    (empty.afterAll history).Faithful ∧ (empty.afterAll history).Answers := by
  have h := Built.empty.afterAll history
  exact ⟨h.faithful, h.answers⟩

end Chordal.Interference.Graph
