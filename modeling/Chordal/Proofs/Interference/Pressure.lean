/-
# Pressure

In a function in which every value has one definition, which dominates its uses, the
values that are live where a value is defined have been defined before it, not only on
every path but also on the line: a block is laid out behind the blocks of some path to
it. So in the order of the definitions the earlier neighbours of a value are live
behind its definition. They have edges among themselves, and the graph is chordal. The
last value of a clique has all the others live behind its definition, so that no clique
is larger than the widest place behind a definition, and each of these places is a
clique. The number of colours is the number of values there.

Key definitions: `Func.SingleDefinitions`, `Linear.place`, `Liveness.around`, `Linear.widest`.
Key theorems: `Analysed.place_lt`, `Analysed.isChordal`, `Analysed.card_le_widest`,
`Analysed.widest_le`, `colors_match_pressure`.
-/
import Mathlib
import Chordal.Proofs.Interference.LiveRanges
import Chordal.Proofs.Interference.OptimalColoring
import Chordal.Proofs.Ssa.StrictForm

namespace Chordal

namespace Ssa

open Interference

/-! ### Functions with single definitions -/

namespace Func

/-- Every value has one definition, and it dominates every use of the value. -/
structure SingleDefinitions (f : Func) : Prop where
  unique : ∀ {d j d' j' id}, f.DefinesAt d j id → f.DefinesAt d' j' id → d = d' ∧ j = j'
  dominated : ∀ {b k i}, (f.code b)[k]? = some i → ∀ v ∈ i.operands,
    ∃ d j, f.DefinesAt d j v.id ∧ f.Dominates d j b k

variable {f : Func}

theorem SingleDefinitions.strict (h : f.SingleDefinitions) (hphi : f.hasPhis = false) : f.Strict where
  use {b l} hpath done i rest hcode _ v hv := by
    have hi : (f.code b)[done.length]? = some i := by simp [hcode]
    obtain ⟨d, j, hdef, hdom⟩ := h.dominated hi v hv
    have hknown := hdom.known hdef hpath
    rwa [hcode, List.take_left] at hknown
  phi {a b l} _ _ target entries h := by cases hasPhis_eq_false.mp hphi b _ h

/-- Built functions without phis are among these. -/
theorem WellFormed.singleDefinitions (h : f.WellFormed) (hphi : f.hasPhis = false) :
    f.Consistent ∧ f.SingleDefinitions :=
  ⟨⟨Ended.lt h.ended, h.linked.succsAgree⟩, h.unique,
    fun hi => h.dominated hi (hasPhis_eq_false.mp hphi _ _ (List.mem_of_getElem? hi))⟩

theorem mem_definedIds_take {b : BlockId} {k id : Nat} :
    id ∈ definedIds ((f.code b).take k) ↔ ∃ j < k, f.DefinesAt b j id := by
  constructor
  · intro hid
    obtain ⟨i, hi, v, hv, rfl⟩ := mem_definedIds.mp hid
    obtain ⟨j, hj⟩ := List.mem_iff_getElem?.mp hi
    rw [List.getElem?_take] at hj
    split_ifs at hj with hlt
    exact ⟨j, hlt, definesAt_iff.mpr ⟨i, v, hj, hv, rfl⟩⟩
  · rintro ⟨j, hlt, hdef⟩
    exact hdef.mem_take hlt

end Func

/-! ### The order of the definitions -/

/-- The place of a value among the values that the instructions on the line define. -/
def Linear.place (l : Linear) (x : Nat) : Nat := (definedIds l.instrs).idxOf x

/-- What the instructions on the line have defined before the place `k` of a block. -/
theorem Linear.definedIds_instrs {l : Linear} {before behind : List BlockId} {b : BlockId} (k : Nat)
    (horder : l.order = before ++ b :: behind) :
    definedIds l.instrs = definedIds (before.flatMap l.func.code ++ (l.func.code b).take k) ++
      definedIds ((l.func.code b).drop k ++ behind.flatMap l.func.code) := by
  have hinstrs : l.instrs = l.order.flatMap l.func.code := rfl
  rw [hinstrs, horder, ← definedIds_append, List.flatMap_append, List.flatMap_cons, List.append_assoc,
    ← List.append_assoc (List.take k _), List.take_append_drop]

namespace Analysed

variable {f : Func} {l : Linear} {live : Liveness} {g : Graph} {x y z : Nat}

theorem exists_definition (h : Analysed f l live g) (hx : x ∈ g.nodes) :
    ∃ b ∈ l.order, ∃ k, f.DefinesAt b k x := by
  obtain rfl := h.func
  obtain ⟨b, hb, hid⟩ := mem_definedIds_flatMap.mp (h.mem_nodes.mp hx)
  exact ⟨b, hb, Func.exists_definesAt.mp hid⟩

theorem place_inj (h : Analysed f l live g) (hx : x ∈ g.nodes) (heq : l.place x = l.place y) : x = y :=
  (List.idxOf_inj (h.mem_nodes.mp hx)).mp heq

section

variable (h : Analysed f l live g) (hphi : f.hasPhis = false) (hs : f.SingleDefinitions)

include h hphi hs

/-- A value that is live where another is defined has the earlier place. -/
theorem place_lt (hover : l.Overlaps y x) (hne : x ≠ y) : l.place x < l.place y := by
  obtain rfl := h.func
  obtain ⟨b, hb, k, hdef, hlive⟩ := hover
  obtain ⟨before, behind, horder⟩ := List.append_of_mem hb
  have hlayout : l.func.layout = .ok l.order := by
    obtain ⟨order, horder, hl⟩ := bind_eq_ok.mp h.linear
    rw [← Except.ok.inj hl]
    exact horder
  obtain ⟨earlier, hpath, hbefore⟩ := Func.layout_reached hlayout horder
  have hknown := (hs.strict hphi).known_of_liveAt (Func.hasPhis_eq_false.mp hphi)
    ((Func.liveAfter_iff hdef.lt).mp hlive) _ hpath (List.take_append_drop (k + 1) _).symm
  unfold Linear.place
  rw [Linear.definedIds_instrs k horder]
  apply idxOf_lt_of_append
  · -- the blocks of the path are laid out before the block
    rw [definedIds_append, List.mem_append, mem_definedIds_flatMap, Func.mem_definedIds_take]
    rcases hknown with hid | ⟨a, ha, hid⟩
    · obtain ⟨j, hj, hdefx⟩ := Func.mem_definedIds_take.mp hid
      have hjk : j ≠ k := by
        rintro rfl
        exact hne (Option.some.inj (hdefx.symm.trans hdef))
      exact .inr ⟨j, by omega, hdefx⟩
    · exact .inl ⟨a, hbefore a ha, hid⟩
  · rw [definedIds_append, List.mem_append, mem_definedIds_flatMap, Func.mem_definedIds_take]
    rintro (⟨a, ha, hid⟩ | ⟨j, hj, hdefy⟩)
    · obtain ⟨j, hdefy⟩ := Func.exists_definesAt.mp hid
      obtain ⟨rfl, -⟩ := hs.unique hdefy hdef
      have hnd := h.laid.nodup
      rw [horder] at hnd
      exact List.disjoint_of_nodup_append hnd ha List.mem_cons_self
    · exact hj.ne (hs.unique hdefy hdef).2

/-- An earlier neighbour is live behind the definition. -/
theorem liveAfter_of_place_lt (hadj : g.Adj x y) (hlt : l.place x < l.place y) {b : BlockId}
    {k : Nat} (hdef : f.DefinesAt b k y) : f.LiveAfter (b, k) x := by
  obtain rfl := h.func
  obtain ⟨hne, hover | ⟨b', -, k', hdef', hlive⟩⟩ := h.adj_iff.mp hadj
  · exact absurd (h.place_lt hphi hs hover hne.symm) hlt.not_gt
  · obtain ⟨rfl, rfl⟩ := hs.unique hdef hdef'
    exact hlive

/-- Two values that are live behind a definition have an edge. -/
theorem adj_of_liveAfter {b : BlockId} (hb : b ∈ l.order) {k : Nat} (hdef : f.DefinesAt b k z)
    (hx : f.LiveAfter (b, k) x) (hy : f.LiveAfter (b, k) y) (hne : x ≠ y) : g.Adj x y :=
  h.adj_of_live hphi (hs.strict hphi) hb hdef.lt ((Func.liveAfter_iff hdef.lt).mp hx)
    ((Func.liveAfter_iff hdef.lt).mp hy) hne

/-- The order of the definitions shows that the graph is chordal. -/
theorem isChordal : g.IsChordal := by
  have hinj : ∀ {a b}, a ∈ g.nodes → b ∈ g.nodes → l.place a = l.place b → a = b := fun ha _ heq =>
    h.place_inj ha heq
  apply Graph.isChordal_of_clique h.valid hinj
  intro a b c hac hbc ha hb hne
  obtain ⟨d, hd, k, hdef⟩ := h.exists_definition (h.valid.mem_right hac)
  -- both are live behind the one definition of the last
  have hlive := h.liveAfter_of_place_lt hphi hs hac ha hdef
  have hlive' := h.liveAfter_of_place_lt hphi hs hbc hb hdef
  exact h.adj_of_liveAfter hphi hs hd hdef hlive hlive' hne

end

end Analysed

/-! ### The widest place -/

/-- What is live behind an instruction together with the value that it defines, if it defines one. -/
def Liveness.around (live : Liveness) (p : Point) : Option IdSet :=
  p.instr.target?.map fun t => IdSet.insert t.id ((live.after[p.position]?).getD [])

/-- The largest number of values that are live behind a definition or defined there. -/
def Linear.widest (l : Linear) (live : Liveness) : Nat :=
  ((l.points.filterMap live.around).map List.length).foldl max 0

namespace Liveness.Exact

variable {l : Linear} {live : Liveness} {s : IdSet}

theorem of_around (h : live.Exact l) {p : Point} (hp : p ∈ l.points) (hs : live.around p = some s) :
    s.Nodup ∧ ∃ t, l.func.DefinesAt p.block p.index t ∧
      ∀ id, id ∈ s ↔ id = t ∨ l.func.LiveAfter (p.block, p.index) id := by
  obtain ⟨t, ht, rfl⟩ := Option.map_eq_some_iff.mp hs
  obtain ⟨after, hafter, hmem⟩ := h.after p hp
  rw [hafter, Option.getD_some]
  refine ⟨(IdSet.sorted_insert t.id (h.sorted after (List.mem_of_getElem? hafter))).nodup, t.id, ?_, fun id => ?_⟩
  · exact Func.definesAt_iff.mpr ⟨p.instr, t, (Linear.of_mem_points hp).2, ht, rfl⟩
  · rw [IdSet.mem_insert, hmem]

theorem exists_around (h : live.Exact l) {b : BlockId} (hb : b ∈ l.order) {k t : Nat}
    (hdef : l.func.DefinesAt b k t) : ∃ s ∈ l.points.filterMap live.around,
      ∀ id, id ∈ s ↔ id = t ∨ l.func.LiveAfter (b, k) id := by
  obtain ⟨i, v, hi, hv, rfl⟩ := Func.definesAt_iff.mp hdef
  obtain ⟨p, hp, rfl, rfl, rfl⟩ := Linear.exists_mem_pointsFrom hi 0 hb
  have hs : live.around p = some (IdSet.insert v.id ((live.after[p.position]?).getD [])) := by
    rw [around, hv, Option.map_some]
  obtain ⟨-, t, hdef', hmem⟩ := h.of_around hp hs
  obtain rfl : v.id = t := Option.some.inj (hdef.symm.trans hdef')
  exact ⟨_, List.mem_filterMap.mpr ⟨p, hp, hs⟩, hmem⟩

end Liveness.Exact

namespace Analysed

variable {f : Func} {l : Linear} {live : Liveness} {g : Graph}

section

variable (h : Analysed f l live g) (hphi : f.hasPhis = false) (hs : f.SingleDefinitions)

include h hphi hs

/-- The last value of a clique has the others live behind its definition. -/
theorem card_le_widest {clique : Finset Nat} (hnodes : ∀ a ∈ clique, a ∈ g.nodes)
    (hclique : g.simple.IsClique clique) : clique.card ≤ l.widest live := by
  rcases clique.eq_empty_or_nonempty with rfl | hnonempty
  · exact Nat.zero_le _
  · obtain rfl := h.func
    obtain ⟨c, hc, hlast⟩ := clique.exists_max_image l.place hnonempty
    obtain ⟨b, hb, k, hdef⟩ := h.exists_definition (hnodes c hc)
    obtain ⟨s, hs', hmem⟩ := h.exact.exists_around hb hdef
    have hsub : clique ⊆ s.toFinset := by
      intro a ha
      rw [List.mem_toFinset, hmem]
      by_cases hac : a = c
      · exact .inl hac
      · have hadj := h.valid.simple_adj.mp (hclique ha hc hac)
        have hlt : l.place a < l.place c :=
          lt_of_le_of_ne (hlast a ha) fun heq => hac (h.place_inj (hnodes a ha) heq)
        exact .inr (h.liveAfter_of_place_lt hphi hs hadj hlt hdef)
    calc clique.card ≤ s.toFinset.card := Finset.card_le_card hsub
      _ ≤ s.length := s.toFinset_card_le
      _ ≤ l.widest live := le_foldl_max_of_mem (List.mem_map_of_mem hs')

/-- The values around a definition are a clique. -/
theorem isClique_around {p : Point} (hp : p ∈ l.points) {s : IdSet} (hs' : live.around p = some s) :
    (∀ a ∈ s.toFinset, a ∈ g.nodes) ∧ g.simple.IsClique s.toFinset := by
  obtain rfl := h.func
  obtain ⟨hb, -⟩ := Linear.of_mem_points hp
  obtain ⟨-, t, hdef, hmem⟩ := h.exact.of_around hp hs'
  have hadj : ∀ {a}, l.func.LiveAfter (p.block, p.index) a → a ≠ t → g.Adj t a := fun ha hne =>
    h.adj_iff.mpr ⟨hne.symm, .inl ⟨p.block, hb, p.index, hdef, ha⟩⟩
  constructor
  · intro a ha
    rw [List.mem_toFinset, hmem] at ha
    by_cases hat : a = t
    · subst hat
      exact h.mem_nodes.mpr (mem_definedIds_flatMap.mpr ⟨p.block, hb, hdef.mem⟩)
    · exact h.valid.mem_right (hadj (ha.resolve_left hat) hat)
  · intro a ha c hc hne
    rw [Finset.mem_coe, List.mem_toFinset, hmem] at ha hc
    rw [h.valid.simple_adj]
    by_cases hat : a = t
    · subst hat
      exact hadj (hc.resolve_left hne.symm) hne.symm
    · by_cases hct : c = t
      · subst hct
        exact h.valid.symm (hadj (ha.resolve_left hat) hat)
      · exact h.adj_of_liveAfter hphi hs hb hdef (ha.resolve_left hat) (hc.resolve_left hct) hne

/-- A colouring has a colour for each value around a definition. -/
theorem widest_le {colors : IdMap Nat} (hnd : colors.keys.Nodup)
    (hkeys : ∀ a, a ∈ colors.keys ↔ a ∈ g.nodes) (hproper : g.Proper colors) :
    l.widest live ≤ colors.values.toFinset.card := by
  unfold Linear.widest
  rw [foldl_max_le_iff]
  refine ⟨Nat.zero_le _, fun n hn => ?_⟩
  obtain ⟨s, hs', rfl⟩ := List.mem_map.mp hn
  obtain ⟨p, hp, hs'⟩ := List.mem_filterMap.mp hs'
  obtain ⟨hnodup, -⟩ := h.exact.of_around hp hs'
  obtain ⟨hnodes, hclique⟩ := h.isClique_around hphi hs hp hs'
  calc s.length = s.toFinset.card := (List.toFinset_card_of_nodup hnodup).symm
    _ ≤ colors.values.toFinset.card :=
      hproper.card_clique_le h.valid hnd (fun a ha => (hkeys a).mpr (hnodes a ha)) hclique

end

end Analysed

/-- **The pressure decides the number of colours.** In a function without phis in which every value
has one definition, which dominates its uses, as in every function that is built and has no
phis, the graph is chordal. With any number of registers there are as many colours as values are
live at most behind a definition, with the value it defines, and the slots are those that the
registers leave. -/
theorem colors_match_pressure {f : Func} (hphi : f.hasPhis = false)
    (hf : f.Consistent ∧ f.SingleDefinitions ∨ ∃ t, build t = .ok f) :
    ∃ l live g, f.linear = .ok l ∧ l.func = f ∧ l.liveness = .ok live ∧ live.Exact l ∧
      l.interference live = .ok g ∧ g.IsChordal ∧
      ∀ limit, ∃ a file, (RegFile.ofLimit limit).allocateLinear l = .ok (a, file) ∧
        a.colorCount = l.widest live ∧
        a.placement.stackSlots = l.widest live - (RegFile.ofLimit limit).pool.length ∧
        ∀ n, (∃ id, a.placement.locations.get? id = some (.slot n)) ↔ n < a.placement.stackSlots := by
  obtain ⟨hcons, hs⟩ : f.Consistent ∧ f.SingleDefinitions := by
    rcases hf with hf | ⟨t, ht⟩
    · exact hf
    · exact (wellFormed_of_build ht).singleDefinitions hphi
  obtain ⟨l, live, g, h⟩ := Func.analysed hphi hcons (hs.strict hphi)
  have hchordal := h.isChordal hphi hs
  refine ⟨l, live, g, h.linear, h.func, h.liveness, h.exact, h.interference, hchordal, fun limit => ?_⟩
  obtain ⟨order, hok, -⟩ := Graph.cardinalityOrder_ok h.valid
  obtain ⟨colors, hcolors, hsorted, hproper, hkeys⟩ := Graph.colorInOrder_ok h.valid hok
  have hnd := hsorted.nodup
  have hrange := h.valid.colors_eq_range hok hcolors hnd hkeys
  obtain ⟨a, file, hallocate, -, hcount, hslots, hplace⟩ :=
    (RegFile.ofLimit limit).allocate_eq_ok hok hcolors
  rw [← hcount] at hrange
  have hwidest : a.colorCount = l.widest live := by
    apply le_antisymm
    · obtain ⟨clique, hnodes, hclique⟩ := hchordal.exists_clique h.valid hok hcolors hnd hkeys hproper hrange
      exact hclique.card_eq ▸ h.card_le_widest hphi hs hnodes hclique.isClique
    · calc l.widest live ≤ colors.values.toFinset.card := h.widest_le hphi hs hnd hkeys hproper
        _ = a.colorCount := by rw [hrange, Finset.card_range]
  refine ⟨a, file, h.allocateLinear_eq hallocate, hwidest, hwidest ▸ hslots, fun n => ?_⟩
  simp only [hplace, Option.map_eq_some_iff, RegFile.placeOf_eq_slot, exists_eq_right]
  rw [← IdMap.mem_values hnd, ← List.mem_toFinset, hrange, Finset.mem_range, hslots]
  omega

/-- A loop that keeps two values and takes their difference in each round. -/
def differences : Typed.Func where
  name := "main"
  returns := .int
  isEntry := true
  body :=
    let a : Typed.Symbol := ⟨0, "a", .int⟩
    let b : Typed.Symbol := ⟨1, "b", .int⟩
    let c : Typed.Symbol := ⟨2, "c", .int⟩
    [.declare a (some (.int 3)), .declare b (some (.int 1)),
      .while_ (.binary .lt (.var b) (.var a))
        [.declare c (some (.binary .sub (.var a) (.var b))),
          .ifElse (.binary .eq (.var c) (.var b)) [.break_] none] none,
      .return_ (.binary .add (.var a) (.var b))]

/-- Three values are live at once, and with two registers one of them gets a slot. -/
theorem differences_places : ∃ f, build differences = .ok f ∧ f.hasPhis = false ∧
    f.Consistent ∧ f.SingleDefinitions ∧
    ∃ l live g a file, f.linear = .ok l ∧ l.liveness = .ok live ∧ l.interference live = .ok g ∧ g.IsChordal ∧
      (RegFile.ofLimit (some 2)).allocateLinear l = .ok (a, file) ∧ a.colorCount = 3 ∧
      a.placement.stackSlots = 1 ∧ ∃ id, a.placement.locations.get? id = some (.slot 0) := by
  have hrun : (do
      let f ← build differences
      let l ← f.linear
      let live ← l.liveness
      return (f.hasPhis, l.widest live)) = .ok (false, 3) := by decide +kernel
  obtain ⟨f, hbuild, hrun⟩ := bind_eq_ok.mp hrun
  obtain ⟨l, hl, hrun⟩ := bind_eq_ok.mp hrun
  obtain ⟨live, hlive, hrun⟩ := bind_eq_ok.mp hrun
  obtain ⟨hphi, hthree⟩ : f.hasPhis = false ∧ l.widest live = 3 := by simpa using Except.ok.inj hrun
  obtain ⟨l', live', g, hl', -, hlive', -, hg, hchordal, hallocate⟩ :=
    colors_match_pressure hphi (.inr ⟨differences, hbuild⟩)
  obtain rfl := Except.ok.inj (hl.symm.trans hl')
  obtain rfl := Except.ok.inj (hlive.symm.trans hlive')
  obtain ⟨a, file, hok, hcount, hslots, hused⟩ := hallocate (some 2)
  have hone : a.placement.stackSlots = 1 := by
    rw [hslots, hthree]
    rfl
  obtain ⟨hcons, hs⟩ := (wellFormed_of_build hbuild).singleDefinitions hphi
  exact ⟨f, hbuild, hphi, hcons, hs, l, live, g, a, file, hl, hlive, hg, hchordal, hok, hcount.trans hthree, hone,
    (hused 0).mpr (by omega)⟩

end Ssa
end Chordal
