/-
# Values that are live together interfere

Edges are added only where a value is defined: between it and what is live behind its
definition. That is enough. Two values that are live at one place have both been
defined on the path that came there, and behind the last of these definitions the other
value was live already, since nothing on the rest of the path defines it. A value may
have several definitions; the argument is about one path.

Key definitions: `Func.Consistent`, `Linear.Overlaps`, `Analysed`, `Liveness.Crosses`, `Liveness.AtPoint`.
Key theorems: `Func.exists_last_definition`, `Func.analysed`, `Analysed.adj_of_live`,
`live_values_apart`.
-/
import Mathlib
import Chordal.Proofs.Allocation
import Chordal.Proofs.Interference.Operations
import Chordal.Proofs.Ssa.PathLiveness

namespace Chordal.Ssa

open Interference

namespace Func

/-- Control goes only to blocks that are there, and the lists of successors say where. The lists
of predecessors do not matter here. -/
structure Consistent (f : Func) : Prop where
  lt : ∀ {b l}, f.Path b l → b < f.blocks.size
  succs : f.SuccsAgree

variable {f : Func} {b : BlockId} {l : List BlockId} {x y : Nat}

/-- The block defines one of the values, and the other is live behind the definition. -/
def SplitsAt (f : Func) (b : BlockId) (x y : Nat) : Prop :=
  ∃ k, f.DefinesAt b k x ∧ f.LiveAt b ((f.code b).drop (k + 1)) y ∨
    f.DefinesAt b k y ∧ f.LiveAt b ((f.code b).drop (k + 1)) x

/-- Values that are live together in a block are live together at its head, if the block does not
define one of them before. -/
theorem splitsAt_or_head : ∀ (k : Nat), k ≤ (f.code b).length → f.LiveAt b ((f.code b).drop k) x →
    f.LiveAt b ((f.code b).drop k) y →
    f.SplitsAt b x y ∨ f.LiveAt b (f.code b) x ∧ f.LiveAt b (f.code b) y
  | 0, _, hx, hy => .inr ⟨hx, hy⟩
  | k + 1, hk, hx, hy => by
    by_cases hdx : f.DefinesAt b k x
    · exact .inl ⟨k, .inl ⟨hdx, hy⟩⟩
    · by_cases hdy : f.DefinesAt b k y
      · exact .inl ⟨k, .inr ⟨hdy, hx⟩⟩
      · exact splitsAt_or_head k (Nat.le_of_succ_le hk) (.before hk hdx hx) (.before hk hdy hy)

/-- Where two values are live, some block on the path has defined one of them while the other was
live. -/
theorem exists_last_definition (hs : f.Strict) (hphi : ∀ b, ∀ i ∈ f.code b, i.isPhi = false)
    (hpath : f.Path b l) : ∀ {k : Nat}, k ≤ (f.code b).length → f.LiveAt b ((f.code b).drop k) x →
    f.LiveAt b ((f.code b).drop k) y → ∃ c ∈ b :: l, f.SplitsAt c x y := by
  induction hpath with
  | start =>
    intro k hk hx hy
    rcases splitsAt_or_head k hk hx hy with hsplit | ⟨hx, -⟩
    · exact ⟨f.start, List.mem_cons_self, hsplit⟩
    · -- before the first instruction no value is known
      rcases hs.known_of_liveAt hphi hx [] .start rfl with hid | ⟨a, ha, -⟩
      · cases hid
      · cases ha
  | @step a b l _ hb ih =>
    intro k hk hx hy
    rcases splitsAt_or_head k hk hx hy with hsplit | ⟨hx, hy⟩
    · exact ⟨b, List.mem_cons_self, hsplit⟩
    · have hend : (f.code a).drop (f.code a).length = [] := List.drop_length
      obtain ⟨c, hc, hsplit⟩ := ih le_rfl (hend ▸ .next hb hx) (hend ▸ .next hb hy)
      exact ⟨c, List.mem_cons_of_mem b hc, hsplit⟩

end Func

/-! ### The graph by paths -/

/-- Some instruction on the line defines `x`, and `y` is live after it. -/
def Linear.Overlaps (l : Linear) (x y : Nat) : Prop :=
  ∃ b ∈ l.order, ∃ k, l.func.DefinesAt b k x ∧ l.func.LiveAfter (b, k) y

theorem Func.SplitsAt.overlaps {l : Linear} {b : BlockId} {x y : Nat} (h : l.func.SplitsAt b x y)
    (hb : b ∈ l.order) : l.Overlaps x y ∨ l.Overlaps y x := by
  obtain ⟨k, ⟨hdef, hlive⟩ | ⟨hdef, hlive⟩⟩ := h
  · exact .inl ⟨b, hb, k, hdef, (liveAfter_iff hdef.lt).mpr hlive⟩
  · exact .inr ⟨b, hb, k, hdef, (liveAfter_iff hdef.lt).mpr hlive⟩

theorem clash_iff {a x y : Nat} {live : List Nat} :
    Graph.Clash a live x y ↔ x ≠ y ∧ (a = x ∧ y ∈ live ∨ a = y ∧ x ∈ live) := by
  unfold Graph.Clash
  constructor
  · rintro ⟨b, hb, hne, ⟨rfl, rfl⟩ | ⟨rfl, rfl⟩⟩
    · exact ⟨hne.symm, .inl ⟨rfl, hb⟩⟩
    · exact ⟨hne, .inr ⟨rfl, hb⟩⟩
  · rintro ⟨hne, ⟨rfl, hy⟩ | ⟨rfl, hx⟩⟩
    · exact ⟨y, hy, hne.symm, .inl ⟨rfl, rfl⟩⟩
    · exact ⟨x, hx, hne, .inr ⟨rfl, rfl⟩⟩

/-- What the analyses of a function end with: the live values, and a graph of the values that are
defined, with an edge between two if one is defined while the other is live. -/
structure Analysed (f : Func) (l : Linear) (live : Liveness) (g : Graph) : Prop where
  linear : f.linear = .ok l
  func : l.func = f
  laid : f.LaidOut l.order
  liveness : l.liveness = .ok live
  exact : live.Exact l
  interference : l.interference live = .ok g
  valid : g.Valid
  mem_nodes : ∀ {x}, x ∈ g.nodes ↔ x ∈ definedIds l.instrs
  adj_iff : ∀ {x y}, g.Adj x y ↔ x ≠ y ∧ (l.Overlaps x y ∨ l.Overlaps y x)

/-- The analyses of a function without phis succeed, if no path comes to a use before a
definition. -/
theorem Func.analysed {f : Func} (hphi : f.hasPhis = false) (hf : f.Consistent) (hstrict : f.Strict) :
    ∃ l live g, Analysed f l live g := by
  have hnone := hasPhis_eq_false.mp hphi
  obtain ⟨order, horder, hlaid⟩ := exists_layout fun _ _ => hf.lt
  obtain ⟨-, heads, -, -, hlive, hsettled⟩ := Linear.liveness_ok (l := ⟨f, order⟩) hnone hf.succs
  obtain ⟨g, hg, hv, hnodes, hadj⟩ := Linear.interference_ok (l := ⟨f, order⟩) hlaid hf.succs hstrict hnone hsettled
  refine ⟨⟨f, order⟩, _, g, linear_eq horder, rfl, hlaid, hlive,
    hsettled.exact hlaid hf.succs, hg, hv, fun {x} => hnodes x, fun {x y} => (hadj x y).trans ⟨?_, ?_⟩⟩
  · rintro ⟨b, hb, done, i, rest, t, hcode, ht, hclash⟩
    obtain ⟨hne, hlive⟩ := clash_iff.mp hclash
    rw [hsettled.mem_iff hf.succs hlaid hb, hsettled.mem_iff hf.succs hlaid hb] at hlive
    have hcode : f.code b = done ++ i :: rest := hcode
    have hdef : f.DefinesAt b done.length t.id := definesAt_iff.mpr ⟨i, t, by simp [hcode], ht, rfl⟩
    have hdrop : (f.code b).drop (done.length + 1) = rest := by simp [hcode]
    refine ⟨hne, SplitsAt.overlaps (l := ⟨f, order⟩) ⟨done.length, ?_⟩ hb⟩
    rw [hdrop]
    rcases hlive with ⟨rfl, hlive⟩ | ⟨rfl, hlive⟩
    · exact .inl ⟨hdef, hlive⟩
    · exact .inr ⟨hdef, hlive⟩
  · rintro ⟨hne, hover⟩
    -- an overlap is a place on the line
    have hplace : ∀ {x y}, Linear.Overlaps ⟨f, order⟩ x y → ∃ b ∈ order, ∃ done i rest t,
        f.code b = done ++ i :: rest ∧ i.target? = some t ∧ t.id = x ∧ f.LiveAt b rest y := by
      rintro x y ⟨b, hb, k, hdef, hlive⟩
      obtain ⟨i, t, hi, ht, hid⟩ := definesAt_iff.mp hdef
      obtain ⟨hk, rfl⟩ := List.getElem?_eq_some_iff.mp hi
      refine ⟨b, hb, (f.code b).take k, (f.code b)[k], (f.code b).drop (k + 1), t, ?_, ht, hid,
        (liveAfter_iff hk).mp hlive⟩
      rw [List.getElem_cons_drop, List.take_append_drop]
    rcases hover with hover | hover
    · obtain ⟨b, hb, done, i, rest, t, hcode, ht, hid, hlive⟩ := hplace hover
      exact ⟨b, hb, done, i, rest, t, hcode, ht, clash_iff.mpr
        ⟨hne, .inl ⟨hid, (hsettled.mem_iff hf.succs hlaid hb).mpr hlive⟩⟩⟩
    · obtain ⟨b, hb, done, i, rest, t, hcode, ht, hid, hlive⟩ := hplace hover
      exact ⟨b, hb, done, i, rest, t, hcode, ht, clash_iff.mpr
        ⟨hne, .inr ⟨hid, (hsettled.mem_iff hf.succs hlaid hb).mpr hlive⟩⟩⟩

namespace Analysed

variable {f : Func} {l : Linear} {live : Liveness} {g : Graph} {x y : Nat}

theorem allocateLinear_eq (h : Analysed f l live g) {file file' : RegFile} {a : Allocation}
    (hok : file.allocate g = .ok (a, file')) : file.allocateLinear l = .ok (a, file') :=
  bind_eq_ok.mpr ⟨live, h.liveness, bind_eq_ok.mpr ⟨g, h.interference, hok⟩⟩

/-- Two values that are live at one place of a block have an edge. -/
theorem adj_of_live (h : Analysed f l live g) (hphi : f.hasPhis = false) (hstrict : f.Strict) {b : BlockId}
    (hb : b ∈ l.order) {k : Nat} (hk : k ≤ (f.code b).length) (hx : f.LiveAt b ((f.code b).drop k) x)
    (hy : f.LiveAt b ((f.code b).drop k) y) (hne : x ≠ y) : g.Adj x y := by
  obtain ⟨earlier, hpath⟩ := h.laid.reached b hb
  obtain ⟨c, hc, hsplit⟩ :=
    Func.exists_last_definition hstrict (Func.hasPhis_eq_false.mp hphi) hpath hk hx hy
  obtain ⟨hb, hearlier⟩ := h.laid.mem_of_path hpath
  have hc : c ∈ l.order := by
    rcases List.mem_cons.mp hc with rfl | hc
    · exact hb
    · exact hearlier c hc
  have hsplit : l.func.SplitsAt c x y := by rwa [h.func]
  exact h.adj_iff.mpr ⟨hne, hsplit.overlaps hc⟩

end Analysed

/-! ### The graph by the sets of the analysis -/

namespace Liveness

/-- Some instruction on the line defines `x`, and `y` is in the set behind it. -/
def Crosses (l : Linear) (live : Liveness) (x y : Nat) : Prop :=
  ∃ p ∈ l.points, p.instr.target?.map Value.id = some x ∧ ∃ s, live.after[p.position]? = some s ∧ y ∈ s

/-- The set is that of a place on the line: behind an instruction, or at the head of a block. -/
def AtPoint (l : Linear) (live : Liveness) (s : IdSet) : Prop :=
  (∃ p ∈ l.points, live.after[p.position]? = some s) ∨ ∃ b ∈ l.order, live.heads.get? b = some s

end Liveness

namespace Liveness.Exact

variable {l : Linear} {live : Liveness} {x y : Nat}

/-- The sets show the overlaps. -/
theorem crosses_iff (h : live.Exact l) : live.Crosses l x y ↔ l.Overlaps x y := by
  constructor
  · rintro ⟨p, hp, hx, s, hs, hy⟩
    obtain ⟨hb, hinstr⟩ := Linear.of_mem_points hp
    obtain ⟨t, ht, hmem⟩ := h.after p hp
    obtain rfl := Option.some.inj (hs.symm.trans ht)
    refine ⟨p.block, hb, p.index, ?_, (hmem y).mp hy⟩
    unfold Func.DefinesAt
    rwa [hinstr]
  · rintro ⟨b, hb, k, hdef, hlive⟩
    obtain ⟨i, v, hi, hv, hid⟩ := Func.definesAt_iff.mp hdef
    obtain ⟨p, hp, rfl, rfl, rfl⟩ := Linear.exists_mem_pointsFrom hi 0 hb
    obtain ⟨s, hs, hmem⟩ := h.after p hp
    exact ⟨p, hp, by rw [hv, Option.map_some, hid], s, hs, (hmem y).mpr hlive⟩

/-- The set of a place holds what is live in the rest of the block. -/
theorem exists_place (h : live.Exact l) {s : IdSet} (hs : live.AtPoint l s) :
    ∃ b ∈ l.order, ∃ k ≤ (l.func.code b).length, ∀ id, id ∈ s ↔ l.func.LiveAt b ((l.func.code b).drop k) id := by
  rcases hs with ⟨p, hp, hs⟩ | ⟨b, hb, hs⟩
  · obtain ⟨hb, hinstr⟩ := Linear.of_mem_points hp
    obtain ⟨t, ht, hmem⟩ := h.after p hp
    obtain rfl := Option.some.inj (hs.symm.trans ht)
    have hk := (List.getElem?_eq_some_iff.mp hinstr).1
    exact ⟨p.block, hb, p.index + 1, hk, fun id => (hmem id).trans (Func.liveAfter_iff hk)⟩
  · obtain ⟨t, ht, hmem⟩ := h.head b hb
    obtain rfl := Option.some.inj (hs.symm.trans ht)
    exact ⟨b, hb, 0, Nat.zero_le _, fun id => (hmem id).trans Func.liveFrom_iff⟩

end Liveness.Exact

/-- The values of one set of the analysis are adjacent to each other. -/
theorem Analysed.adj_of_atPoint {f : Func} {l : Linear} {live : Liveness} {g : Graph} (h : Analysed f l live g)
    (hphi : f.hasPhis = false) (hstrict : f.Strict) {s : IdSet} (hs : live.AtPoint l s) {x y : Nat} (hx : x ∈ s)
    (hy : y ∈ s) (hne : x ≠ y) : g.Adj x y := by
  obtain ⟨b, hb, k, hk, hmem⟩ := h.exact.exists_place hs
  rw [h.func] at hk hmem
  exact h.adj_of_live hphi hstrict hb hk ((hmem x).mp hx) ((hmem y).mp hy) hne

/-- **Values that are live together have different places.** In a function without phis, in which no
path comes to a use before a definition, an edge joins two values if and only if they differ and
one is live behind a definition of the other. Any two values that are live at one place are
joined, so they get different registers or slots, with any number of registers. -/
theorem live_values_apart {f : Func} (hphi : f.hasPhis = false) (hf : f.Consistent) (hstrict : f.Strict) :
    ∃ l live g, f.linear = .ok l ∧ l.func = f ∧ l.liveness = .ok live ∧ live.Exact l ∧
      l.interference live = .ok g ∧
      (∀ x y, g.interferes x y = true ↔ x ≠ y ∧ (live.Crosses l x y ∨ live.Crosses l y x)) ∧
      (∀ s, live.AtPoint l s → ∀ x ∈ s, ∀ y ∈ s, x ≠ y → g.interferes x y = true) ∧
      ∀ limit, ∃ a file, (RegFile.ofLimit limit).allocateLinear l = .ok (a, file) ∧
        ∀ s, live.AtPoint l s → ∀ x ∈ s, ∀ y ∈ s, x ≠ y →
          ∃ p q, a.placement.locations.get? x = some p ∧ a.placement.locations.get? y = some q ∧ p ≠ q := by
  obtain ⟨l, live, g, h⟩ := Func.analysed hphi hf hstrict
  refine ⟨l, live, g, h.linear, h.func, h.liveness, h.exact, h.interference, fun x y => ?_,
    fun s hs x hx y hy hne => Graph.interferes_iff.mpr (h.adj_of_atPoint hphi hstrict hs hx hy hne), fun limit => ?_⟩
  · rw [Graph.interferes_iff, h.adj_iff, h.exact.crosses_iff, h.exact.crosses_iff]
  · obtain ⟨hnd, hpool⟩ := RegFile.ofLimit_pool limit
    obtain ⟨a, file, hok, -, -, hplaced, hapart⟩ := RegFile.allocate_ok h.valid hnd hpool
    refine ⟨a, file, h.allocateLinear_eq hok, fun s hs x hx y hy hne => ?_⟩
    have hadj := h.adj_of_atPoint hphi hstrict hs hx hy hne
    obtain ⟨p, hp⟩ := hplaced x hadj.mem_left
    obtain ⟨q, hq⟩ := hplaced y (h.valid.mem_right hadj)
    refine ⟨p, q, hp, hq, ?_⟩
    rintro rfl
    exact hapart hadj hp hq

theorem countdown_consistent : countdown.Consistent := ⟨countdown_ended.lt, countdown_linked.succsAgree⟩

theorem countdown_strict : countdown.Strict := .of_first countdown_noPhis (by decide) (by decide)

/-- The counter, which has two definitions, and the step are live at the head of the loop. With one
register they do not share a place. -/
theorem countdown_apart : countdown.hasPhis = false ∧ countdown.Consistent ∧ countdown.Strict ∧
    ∃ l live g, countdown.linear = .ok l ∧ l.liveness = .ok live ∧ l.interference live = .ok g ∧
      live.AtPoint l [0, 1] ∧ g.interferes 0 1 = true ∧
      ∃ a file p q, (RegFile.ofLimit (some 1)).allocateLinear l = .ok (a, file) ∧
        a.placement.locations.get? 0 = some p ∧ a.placement.locations.get? 1 = some q ∧ p ≠ q := by
  obtain ⟨l, live, g, hl, -, hlive, -, hg, -, hadj, hplaces⟩ :=
    live_values_apart countdown_noPhis countdown_consistent countdown_strict
  have hrun : (do
      let l ← countdown.linear
      let live ← l.liveness
      return (l.order, live.heads.get? 1)) = .ok ([0, 1, 2], some [0, 1]) := by decide +kernel
  simp only [hl, hlive, bind, Except.bind] at hrun
  obtain ⟨horder, hhead⟩ : l.order = [0, 1, 2] ∧ live.heads.get? 1 = some [0, 1] := by
    simpa using Except.ok.inj hrun
  have hpoint : live.AtPoint l [0, 1] := .inr ⟨1, by simp [horder], hhead⟩
  obtain ⟨a, file, hok, hapart⟩ := hplaces (some 1)
  obtain ⟨p, q, hp, hq, hne⟩ := hapart [0, 1] hpoint 0 (by decide) 1 (by decide) (by decide)
  exact ⟨countdown_noPhis, countdown_consistent, countdown_strict, l, live, g, hl, hlive, hg, hpoint,
    hadj [0, 1] hpoint 0 (by decide) 1 (by decide) (by decide), a, file, p, q, hok, hp, hq, hne⟩

end Chordal.Ssa
