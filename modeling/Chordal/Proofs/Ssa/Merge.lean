/-
# Merging bindings

Where edges meet, a variable that all of them bind to one value keeps it, and a
variable that they bind to different values gets a phi with one entry for each
edge. So whichever edge control comes along, reading the phis gives every merged
variable the value that the edge bound it to.

Key definitions: `edgeEntries`.
Key theorems: `find?_edgeEntries`, `mergeBindings_facts`, `readPhis_eq_ok`.
-/
import Mathlib
import Chordal.Proofs.Ssa.Growth

namespace Chordal.Ssa

/-! ### Entries of a phi -/

/-- The entries that a phi for `symbol` gets: the value on each edge and the
block the edge comes from. There are none if an edge does not bind the symbol. -/
def edgeEntries (edges : List Edge) (symbol : Nat) : Option (List (Value × BlockId)) :=
  edges.mapM fun e => (e.bindings.get? symbol).map fun v => (v, e.source)

theorem edgeEntries_cons_eq_some {e : Edge} {edges : List Edge} {symbol : Nat}
    {entries : List (Value × BlockId)} (h : edgeEntries (e :: edges) symbol = some entries) :
    ∃ v rest, e.bindings.get? symbol = some v ∧ edgeEntries edges symbol = some rest ∧
      entries = (v, e.source) :: rest := by
  unfold edgeEntries at h
  rw [List.mapM_cons] at h
  cases hv : e.bindings.get? symbol with
  | none => simp [hv] at h
  | some v =>
    cases hr : edgeEntries edges symbol with
    | none =>
      unfold edgeEntries at hr
      simp [hv, hr] at h
    | some rest =>
      unfold edgeEntries at hr
      refine ⟨v, rest, rfl, rfl, ?_⟩
      simpa [hv, hr, eq_comm] using h

/-- Every edge binds the symbol, and has its entry. -/
theorem edgeEntries_bound : ∀ {edges : List Edge} {symbol : Nat} {entries : List (Value × BlockId)},
    edgeEntries edges symbol = some entries → ∀ e ∈ edges,
      ∃ v, e.bindings.get? symbol = some v ∧ (v, e.source) ∈ entries
  | [], _, _, _, e, he => by cases he
  | a :: edges, symbol, entries, h, e, he => by
    obtain ⟨v, rest, hv, hr, rfl⟩ := edgeEntries_cons_eq_some h
    rcases List.mem_cons.mp he with rfl | he
    · exact ⟨v, hv, List.mem_cons_self⟩
    · obtain ⟨w, hw, hmem⟩ := edgeEntries_bound hr e he
      exact ⟨w, hw, List.mem_cons_of_mem _ hmem⟩

/-- Every entry is that of an edge. -/
theorem edgeEntries_source : ∀ {edges : List Edge} {symbol : Nat} {entries : List (Value × BlockId)},
    edgeEntries edges symbol = some entries → entries.map Prod.snd = edges.map Edge.source
  | [], _, _, h => by
    obtain rfl : _ = [] := (Option.some.inj h).symm
    rfl
  | a :: edges, symbol, entries, h => by
    obtain ⟨v, rest, -, hr, rfl⟩ := edgeEntries_cons_eq_some h
    rw [List.map_cons, List.map_cons, edgeEntries_source hr]

/-- The entry that is found for the source of an edge is the edge's own, since no
two of them have the same source. -/
theorem find?_edgeEntries : ∀ {edges : List Edge} {symbol : Nat} {entries : List (Value × BlockId)},
    edgeEntries edges symbol = some entries → (edges.map Edge.source).Nodup → ∀ e ∈ edges,
      ∃ v, e.bindings.get? symbol = some v ∧
        entries.find? (fun p => some p.2 == some e.source) = some (v, e.source)
  | [], _, _, _, _, e, he => by cases he
  | a :: edges, symbol, entries, h, hn, e, he => by
    obtain ⟨v, rest, hv, hr, rfl⟩ := edgeEntries_cons_eq_some h
    rw [List.map_cons, List.nodup_cons] at hn
    rcases List.mem_cons.mp he with rfl | he
    · exact ⟨v, hv, by simp⟩
    · obtain ⟨w, hw, hf⟩ := find?_edgeEntries hr hn.2 e he
      refine ⟨w, hw, ?_⟩
      have hne : a.source ≠ e.source := fun heq => hn.1 (heq ▸ List.mem_map.mpr ⟨e, he, rfl⟩)
      rw [List.find?_cons_of_neg (by simpa using hne), hf]

/-! ### Merging -/

section Merging

variable {edges : List Edge}

theorem mergeBindings_cons (fresh symbol : Nat) (first : Value) (rest : Bindings) :
    mergeBindings edges fresh ((symbol, first) :: rest) =
      match edgeEntries edges symbol with
      | none => mergeBindings edges fresh rest
      | some entries =>
        if entries.all (fun e => e.1 == first) then
          ((mergeBindings edges fresh rest).1,
            (symbol, first) :: (mergeBindings edges fresh rest).2.1,
            (mergeBindings edges fresh rest).2.2)
        else
          (.phi ⟨fresh, first.ty⟩ entries :: (mergeBindings edges (fresh + 1) rest).1,
            (symbol, ⟨fresh, first.ty⟩) :: (mergeBindings edges (fresh + 1) rest).2.1,
            (mergeBindings edges (fresh + 1) rest).2.2) := by
  rw [mergeBindings]
  rfl

/-- A merged binding is one that all edges have, or a phi over the edges; and the
phis define the numbers that are taken, one after another. -/
theorem mergeBindings_facts (edges : List Edge) : ∀ (bindings : Bindings) (fresh : Nat),
    ∃ k, (mergeBindings edges fresh bindings).2.2 = fresh + k ∧
      ((mergeBindings edges fresh bindings).1.filterMap Instr.target?).map Value.id =
        List.range' fresh k ∧
      (∀ i ∈ (mergeBindings edges fresh bindings).1, ∃ t entries symbol,
        i = .phi t entries ∧ edgeEntries edges symbol = some entries) ∧
      ∀ j v, (mergeBindings edges fresh bindings).2.1.get? j = some v →
        (∀ e ∈ edges, e.bindings.get? j = some v) ∨
          ∃ entries, edgeEntries edges j = some entries ∧
            .phi v entries ∈ (mergeBindings edges fresh bindings).1
  | [], fresh => by
    refine ⟨0, rfl, rfl, by simp [mergeBindings], fun j v h => ?_⟩
    simp [mergeBindings] at h
  | (symbol, first) :: rest, fresh => by
    rw [mergeBindings_cons]
    cases hent : edgeEntries edges symbol with
    | none => exact mergeBindings_facts edges rest fresh
    | some entries =>
      simp only
      split_ifs with hall
      · -- all edges agree
        obtain ⟨k, hk, hids, hphis, hget⟩ := mergeBindings_facts edges rest fresh
        refine ⟨k, hk, hids, hphis, fun j v h => ?_⟩
        simp only [IdMap.get?_cons] at h
        split_ifs at h with hj
        · obtain rfl := Option.some.inj h
          subst hj
          left
          intro e he
          obtain ⟨w, hw, hmem⟩ := edgeEntries_bound hent e he
          have := List.all_eq_true.mp hall _ hmem
          simp only [beq_iff_eq] at this
          rw [hw, this]
        · exact hget j v h
      · -- a phi chooses by the edge
        obtain ⟨k, hk, hids, hphis, hget⟩ := mergeBindings_facts edges rest (fresh + 1)
        refine ⟨k + 1, by rw [hk]; omega, ?_, fun i hi => ?_, fun j v h => ?_⟩
        · simp only [List.filterMap_cons, Instr.target?, List.map_cons, hids]
          rfl
        · rcases List.mem_cons.mp hi with rfl | hi
          · exact ⟨_, entries, symbol, rfl, hent⟩
          · exact hphis i hi
        · simp only [IdMap.get?_cons] at h
          split_ifs at h with hj
          · obtain rfl := Option.some.inj h
            subst hj
            exact Or.inr ⟨entries, hent, List.mem_cons_self⟩
          · rcases hget j v h with h | ⟨es, hes, hmem⟩
            · exact Or.inl h
            · exact Or.inr ⟨es, hes, List.mem_cons_of_mem _ hmem⟩

end Merging

/-! ### Reading phis -/

/-- Phis that have an entry for the block control comes from, with a value that
is defined, are read, whatever entries they get later. -/
theorem readPhis_eq_ok {a : BlockId} (label : String) {store : Store} :
    ∀ {phis d : List Instr}, Widened phis d →
      (∀ i ∈ phis, ∃ t es p w, i = .phi t es ∧
        es.find? (fun e => some e.2 == some a) = some p ∧ store.get? p.1.id = some w) →
      ∃ l, readPhis (some a) label store d = .ok l ∧
        l.map (·.1) = phis.filterMap Instr.target? ∧
        ∀ t es, .phi t es ∈ phis → ∃ p w, es.find? (fun e => some e.2 == some a) = some p ∧
          store.get? p.1.id = some w ∧ (t, w) ∈ l
  | _, _, .nil, _ => ⟨[], rfl, rfl, by simp⟩
  | i :: phis, j :: d, .cons hw hs, h => by
    obtain ⟨l, hl, hmap, hread⟩ := readPhis_eq_ok label hs fun i hi => h i (List.mem_cons_of_mem _ hi)
    obtain ⟨t, es, p, w, rfl, hfind, hget⟩ := h i List.mem_cons_self
    -- further entries come behind the one that is found
    obtain ⟨es', rfl, hfind'⟩ : ∃ es', j = .phi t es' ∧
        es'.find? (fun e => some e.2 == some a) = some p := by
      cases hw with
      | same => exact ⟨es, rfl, hfind⟩
      | phi _ _ more => exact ⟨es ++ more, rfl, by rw [List.find?_append, hfind]; rfl⟩
    refine ⟨(t, w) :: l, ?_, ?_, ?_⟩
    · rw [readPhis, hfind']
      simp only [Store.read_eq_ok hget, hl]
      rfl
    · rw [List.map_cons, hmap]
      rfl
    · intro t' es' hmem
      rcases List.mem_cons.mp hmem with heq | hmem
      · cases heq
        exact ⟨p, w, hfind, hget, List.mem_cons_self⟩
      · obtain ⟨p', w', h₁, h₂, h₃⟩ := hread t' es' hmem
        exact ⟨p', w', h₁, h₂, List.mem_cons_of_mem _ h₃⟩

end Chordal.Ssa
