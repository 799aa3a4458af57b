/-
# Interference graphs

The graphs that are built are symmetric, and no node is its own neighbour. The
graph of a function has a node for each value that is written, and an edge between
two values if one of them is live behind an instruction that writes the other.
Adding these edges cannot fail where all that is live is written somewhere.

Key definitions: `Graph.Adj`, `Graph.Valid`, `Graph.Clash`.
Key theorems: `Graph.addEdge_ok`, `Graph.addCode_ok`, `Linear.interference_ok`.
-/
import Mathlib
import Chordal.Interference.Construction
import Chordal.Proofs.Ssa.Liveness

namespace Chordal.Interference.Graph

/-- There is an edge from `a` to `b`. -/
def Adj (g : Graph) (a b : Nat) : Prop := ∃ s, g.adjacency.get? a = some s ∧ b ∈ s

/-- What every graph that is built satisfies. -/
structure Valid (g : Graph) : Prop where
  sorted : g.nodes.Pairwise (· < ·)
  symm : ∀ {a b}, g.Adj a b → g.Adj b a
  irrefl : ∀ {a}, ¬ g.Adj a a

variable {g : Graph} {a b x y : Nat}

theorem contains_iff : g.contains a = true ↔ a ∈ g.nodes := IdMap.contains_iff

theorem not_adj_empty : ¬ empty.Adj a b := by
  rintro ⟨s, hs, -⟩
  cases hs

theorem valid_empty : empty.Valid :=
  ⟨List.Pairwise.nil, fun h => absurd h not_adj_empty, not_adj_empty⟩

/-! ### Nodes -/

/-- A node is added where there is none. -/
theorem run_addNode (g : Graph) (a : Nat) : (addNode a).run g =
    if g.contains a then .ok false g else .ok true ⟨g.adjacency.insert a []⟩ := by
  simp only [addNode, EStateM.run_bind, EStateM.run_get]
  split_ifs <;> rfl

/-- A node can be added, and a new node has no neighbours. -/
theorem addNode_ok (h : g.Valid) (a : Nat) :
    ∃ g', (addNode a).run g = .ok (decide (a ∉ g.nodes)) g' ∧ g'.Valid ∧
      (∀ x, x ∈ g'.nodes ↔ x = a ∨ x ∈ g.nodes) ∧ ∀ x y, g'.Adj x y ↔ g.Adj x y := by
  rw [run_addNode]
  by_cases ha : a ∈ g.nodes
  · refine ⟨g, by simp [contains_iff, ha], h, fun x => ⟨.inr, ?_⟩, fun _ _ => Iff.rfl⟩
    rintro (rfl | hx)
    · exact ha
    · exact hx
  · have hadj : ∀ x y, Adj ⟨g.adjacency.insert a []⟩ x y ↔ g.Adj x y := by
      intro x y
      have hnone : g.adjacency.get? a = none := IdMap.get?_eq_none_iff.mpr ha
      unfold Adj
      simp only [IdMap.get?_insert]
      by_cases hx : x = a
      · subst hx
        simp [hnone]
      · simp [hx]
    refine ⟨⟨g.adjacency.insert a []⟩, by simp [contains_iff, ha], ⟨?_, ?_, ?_⟩,
      fun x => IdMap.mem_keys_insert a [] x g.adjacency, hadj⟩
    · exact IdMap.sorted_insert a [] h.sorted
    · exact fun {x y} hxy => (hadj y x).mpr (h.symm ((hadj x y).mp hxy))
    · exact fun {x} hx => h.irrefl ((hadj x x).mp hx)

/-- The graph of the values that code writes has no edges yet. -/
theorem addTargets_ok : ∀ (code : List Ssa.Instr) {g : Graph}, g.Valid →
    ∃ g', (addTargets code).run g = .ok () g' ∧ g'.Valid ∧
      (∀ x, x ∈ g'.nodes ↔ x ∈ Ssa.definedIds code ∨ x ∈ g.nodes) ∧ ∀ x y, g'.Adj x y ↔ g.Adj x y
  | [], g, h => ⟨g, rfl, h, fun x => by simp [Ssa.definedIds], fun _ _ => Iff.rfl⟩
  | i :: code, g, h => by
    cases ht : i.target? with
    | none =>
      obtain ⟨g', hg', hv', hnodes', hadj'⟩ := addTargets_ok code h
      refine ⟨g', ?_, hv', fun x => (hnodes' x).trans ?_, hadj'⟩
      · simpa [addTargets, ht] using hg'
      · simp [Ssa.definedIds, ht]
    | some t =>
      obtain ⟨g₁, hg₁, hv₁, hnodes₁, hadj₁⟩ := addNode_ok h t.id
      obtain ⟨g', hg', hv', hnodes', hadj'⟩ := addTargets_ok code hv₁
      refine ⟨g', ?_, hv', fun x => (hnodes' x).trans ?_, fun x y => (hadj' x y).trans (hadj₁ x y)⟩
      · simpa [addTargets, ht, hg₁] using hg'
      · have hmem : x ∈ Ssa.definedIds (i :: code) ↔ x = t.id ∨ x ∈ Ssa.definedIds code := by
          simp [Ssa.definedIds, ht]
        rw [hnodes₁, hmem, or_assoc, or_left_comm]

/-! ### Edges -/

theorem run_requireNode (g : Graph) (a : Nat) : (requireNode a).run g =
    if g.contains a then .ok () g else .error (.unknownNode a) g := by
  simp only [requireNode, EStateM.run_bind, EStateM.run_get]
  split_ifs <;> rfl

/-- The ends of an edge are looked at before one of them is changed. -/
theorem run_addEdge (g : Graph) (a b : Nat) : (addEdge a b).run g =
    if a = b then .error (.selfEdge a) g
    else if !g.contains a then .error (.unknownNode a) g
    else if !g.contains b then .error (.unknownNode b) g
    else .ok () ⟨(g.adjacency.modify a (IdSet.insert b)).modify b (IdSet.insert a)⟩ := by
  unfold addEdge
  by_cases hab : a = b
  · simp [hab]
  · cases ha : g.contains a with
    | false => simp [hab, run_requireNode, ha]
    | true =>
      cases hb : g.contains b with
      | false => simp [hab, run_requireNode, ha, hb]
      | true =>
        simp only [hab, run_requireNode, ha, hb, EStateM.run_bind, if_false, if_true]
        rfl

/-- An edge between two nodes can be added, at both ends. -/
theorem addEdge_ok (h : g.Valid) (hab : a ≠ b) (ha : a ∈ g.nodes) (hb : b ∈ g.nodes) :
    ∃ g', (addEdge a b).run g = .ok () g' ∧ g'.Valid ∧ g'.nodes = g.nodes ∧
      ∀ x y, g'.Adj x y ↔ g.Adj x y ∨ x = a ∧ y = b ∨ x = b ∧ y = a := by
  refine ⟨⟨(g.adjacency.modify a (IdSet.insert b)).modify b (IdSet.insert a)⟩, ?_, ?_⟩
  · simp [run_addEdge, hab, contains_iff.mpr ha, contains_iff.mpr hb]
  · have hadj : ∀ x y, Adj ⟨(g.adjacency.modify a (IdSet.insert b)).modify b (IdSet.insert a)⟩ x y ↔
        g.Adj x y ∨ x = a ∧ y = b ∨ x = b ∧ y = a := by
      intro x y
      obtain ⟨s, hs⟩ := IdMap.exists_get? ha
      obtain ⟨t, ht⟩ := IdMap.exists_get? hb
      unfold Adj
      simp only [IdMap.get?_modify]
      by_cases hxb : x = b
      · subst hxb
        simp [Ne.symm hab, ht, IdSet.mem_insert]
        tauto
      · by_cases hxa : x = a
        · subst hxa
          simp [hab, hs, IdSet.mem_insert]
          tauto
        · simp [hxa, hxb]
    have hnodes : nodes ⟨(g.adjacency.modify a (IdSet.insert b)).modify b (IdSet.insert a)⟩ = g.nodes := by
      unfold nodes
      simp
    refine ⟨⟨hnodes ▸ h.sorted, fun {x y} hxy => ?_, fun {x} hx => ?_⟩, hnodes, hadj⟩
    · rw [hadj] at hxy ⊢
      rcases hxy with hxy | hxy | hxy
      · exact .inl (h.symm hxy)
      · exact .inr (.inr ⟨hxy.2, hxy.1⟩)
      · exact .inr (.inl ⟨hxy.2, hxy.1⟩)
    · rcases (hadj x x).mp hx with hx | hx | hx
      · exact h.irrefl hx
      · exact hab (hx.1.symm.trans hx.2)
      · exact hab (hx.2.symm.trans hx.1)

/-- Two values, one of them live where the other is written. -/
def Clash (a : Nat) (live : List Nat) (x y : Nat) : Prop :=
  ∃ b ∈ live, b ≠ a ∧ (x = a ∧ y = b ∨ x = b ∧ y = a)

theorem clash_cons {live : List Nat} : Clash a (b :: live) x y ↔ Clash a [b] x y ∨ Clash a live x y := by
  simp [Clash]

theorem addClashes_ok : ∀ (live : List Nat) {g : Graph}, a ∈ g.nodes → g.Valid →
    (∀ b ∈ live, b ∈ g.nodes) →
    ∃ g', (addClashes a live).run g = .ok () g' ∧ g'.Valid ∧ g'.nodes = g.nodes ∧
      ∀ x y, g'.Adj x y ↔ g.Adj x y ∨ Clash a live x y
  | [], g, _, h, _ => ⟨g, rfl, h, rfl, fun x y => by simp [Clash]⟩
  | b :: live, g, ha, h, hlive => by
    -- one more edge, unless the value is the one that is written
    obtain ⟨g₁, hg₁, hv₁, hn₁, hadj₁⟩ : ∃ g₁,
        (addClashes a (b :: live)).run g = (addClashes a live).run g₁ ∧
        g₁.Valid ∧ g₁.nodes = g.nodes ∧ ∀ x y, g₁.Adj x y ↔ g.Adj x y ∨ Clash a [b] x y := by
      by_cases hba : b = a
      · exact ⟨g, by simp [addClashes, hba], h, rfl, fun x y => by simp [Clash, hba]⟩
      · obtain ⟨g₁, hg₁, hv₁, hn₁, hadj₁⟩ := addEdge_ok h (Ne.symm hba) ha (hlive b List.mem_cons_self)
        refine ⟨g₁, by simp [addClashes, hba, hg₁], hv₁, hn₁, fun x y => ?_⟩
        rw [hadj₁]
        simp [Clash, hba]
    obtain ⟨g', hg', hv', hn', hadj'⟩ := addClashes_ok live (hn₁ ▸ ha) hv₁
      fun c hc => hn₁ ▸ hlive c (List.mem_cons_of_mem b hc)
    refine ⟨g', hg₁.trans hg', hv', hn'.trans hn₁, fun x y => ?_⟩
    rw [hadj', hadj₁, or_assoc, ← clash_cons]

/-- All edges can be added, if what is written and what is live are nodes. -/
theorem addAllClashes_ok : ∀ (points : List (Ssa.Instr × IdSet)) {g : Graph}, g.Valid →
    (∀ p ∈ points, ∀ t, p.1.target? = some t → t.id ∈ g.nodes ∧ ∀ b ∈ p.2, b ∈ g.nodes) →
    ∃ g', (addAllClashes points).run g = .ok () g' ∧ g'.Valid ∧ g'.nodes = g.nodes ∧
      ∀ x y, g'.Adj x y ↔ g.Adj x y ∨ ∃ p ∈ points, ∃ t, p.1.target? = some t ∧ Clash t.id p.2 x y
  | [], g, h, _ => ⟨g, rfl, h, rfl, fun x y => by simp⟩
  | (i, live) :: points, g, h, hpoints => by
    obtain ⟨g₁, hg₁, hv₁, hn₁, hadj₁⟩ : ∃ g₁,
        (addAllClashes ((i, live) :: points)).run g = (addAllClashes points).run g₁ ∧ g₁.Valid ∧
          g₁.nodes = g.nodes ∧
            ∀ x y, g₁.Adj x y ↔ g.Adj x y ∨ ∃ t, i.target? = some t ∧ Clash t.id live x y := by
      cases ht : i.target? with
      | none => exact ⟨g, by simp [addAllClashes, ht], h, rfl, fun x y => by simp⟩
      | some t =>
        obtain ⟨hnode, hlive⟩ := hpoints (i, live) List.mem_cons_self t ht
        obtain ⟨g₁, hg₁, hv₁, hn₁, hadj₁⟩ := addClashes_ok live hnode h hlive
        exact ⟨g₁, by simp [addAllClashes, ht, hg₁], hv₁, hn₁, fun x y => by rw [hadj₁]; simp⟩
    obtain ⟨g', hg', hv', hn', hadj'⟩ := addAllClashes_ok points hv₁ fun p hp t ht => by
      rw [hn₁]
      exact hpoints p (List.mem_cons_of_mem _ hp) t ht
    refine ⟨g', hg₁.trans hg', hv', hn'.trans hn₁, fun x y => ?_⟩
    rw [hadj', hadj₁, or_assoc]
    simp

/-! ### The graph of a function -/

/-- The nodes of the graph are the values that are written, and two of them are adjacent if one is
live where the other is written. -/
theorem addCode_ok (code : List Ssa.Instr) (live : List IdSet)
    (hlive : ∀ p ∈ code.zip live, ∀ x ∈ p.2, x ∈ Ssa.definedIds code) :
    ∃ g, (addCode code live).graph empty = .ok g ∧ g.Valid ∧ (∀ x, x ∈ g.nodes ↔ x ∈ Ssa.definedIds code) ∧
      ∀ x y, g.Adj x y ↔ ∃ p ∈ code.zip live, ∃ t, p.1.target? = some t ∧ Clash t.id p.2 x y := by
  obtain ⟨g₁, hg₁, hv₁, hnodes₁, hadj₁⟩ := addTargets_ok code valid_empty
  have hnodes : ∀ x, x ∈ g₁.nodes ↔ x ∈ Ssa.definedIds code := fun x => by
    rw [hnodes₁]
    simp [empty, nodes, IdMap.keys]
  obtain ⟨g, hg, hv, hn, hadj⟩ := addAllClashes_ok (code.zip live).reverse hv₁ fun p hp t ht => by
    have hp := List.mem_reverse.mp hp
    refine ⟨(hnodes t.id).mpr (Ssa.mem_definedIds.mpr ⟨p.1, ?_, t, ht, rfl⟩), fun x hx => ?_⟩
    · exact (List.of_mem_zip hp).1
    · exact (hnodes x).mpr (hlive p hp x hx)
  refine ⟨g, ?_, hv, fun x => by rw [hn, hnodes], fun x y => ?_⟩
  · simp [Change.graph, addCode, hg₁, hg]
  · rw [hadj, hadj₁]
    simp [not_adj_empty]

end Chordal.Interference.Graph

namespace Chordal.Ssa.Linear

open Interference

/-- The interference graph of a function without phis in which no path comes to a
use before a definition. -/
theorem interference_ok {l : Linear} {heads : IdMap IdSet} (hlaid : l.func.LaidOut l.order)
    (hsuccs : l.func.SuccsAgree) (hstrict : l.func.Strict)
    (hphi : ∀ b, ∀ i ∈ l.func.code b, i.isPhi = false) (hsettled : l.Settled heads) :
    ∃ g, l.interference
        ⟨heads, l.order.flatMap fun b => liveBehindEach (l.liveAtEnd heads b) (l.code b)⟩ = .ok g ∧
      g.Valid ∧ (∀ x, x ∈ g.nodes ↔ x ∈ definedIds l.instrs) ∧
        ∀ x y, g.Adj x y ↔ ∃ b ∈ l.order, ∃ done i rest t, l.code b = done ++ i :: rest ∧
          i.target? = some t ∧ Graph.Clash t.id (liveBeforeAll rest (l.liveAtEnd heads b)) x y := by
  -- what is live behind an instruction is written somewhere
  have hlive : ∀ b ∈ l.order, ∀ done i rest, l.code b = done ++ i :: rest →
      ∀ id ∈ liveBeforeAll rest (l.liveAtEnd heads b), id ∈ definedIds l.instrs := by
    intro b hb done i rest hcode id hid
    have hcode' : l.func.code b = (done ++ [i]) ++ rest := by
      rw [List.append_assoc]
      exact hcode
    obtain ⟨earlier, hpath⟩ := hlaid.reached b hb
    have hliveAt : l.func.LiveAt b rest id := liveAt_of_mem_liveBeforeAll (fun id hid => by
      obtain ⟨c, hc, hid⟩ := mem_liveAtEnd.mp hid
      exact .next ((hsuccs _ _).mp hc) (hsettled.live c id hid)) rest hid
    exact hlaid.mem_definedIds hpath hcode' (hstrict.known_of_liveAt hphi hliveAt _ hpath hcode')
  obtain ⟨g, hg, hvg, hng, hadjg⟩ := Graph.addCode_ok l.instrs
    (l.order.flatMap fun b => liveBehindEach (l.liveAtEnd heads b) (l.code b)) fun p hp x hx => by
      obtain ⟨b, hb, done, rest, hcode, hp2⟩ := of_mem_zip_live (i := p.1) hp
      exact hlive b hb done p.1 rest hcode x (hp2 ▸ hx)
  refine ⟨g, hg, hvg, hng, fun x y => ?_⟩
  rw [hadjg]
  constructor
  · rintro ⟨p, hp, t, ht, hclash⟩
    obtain ⟨b, hb, done, rest, hcode, hp2⟩ := of_mem_zip_live (i := p.1) hp
    exact ⟨b, hb, done, p.1, rest, t, hcode, ht, hp2 ▸ hclash⟩
  · rintro ⟨b, hb, done, i, rest, t, hcode, ht, hclash⟩
    exact ⟨_, mem_zip_live hb hcode, t, ht, hclash⟩

end Chordal.Ssa.Linear
