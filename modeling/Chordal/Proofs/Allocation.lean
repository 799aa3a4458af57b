/-
# Places

A colour stands for one place and no two colours for the same, so neighbours get
different places: registers of the pool, or slots below the number of slots. A
function without phis, in which no path comes to a use before a definition, gets a
place for every value it writes, and a value that is live where another is written
has its own place.

Key definitions: `RegFile.placeOf`, `Placement.Fits`, `Placement.Separates`.
Key theorems: `RegFile.placeOf_injective`, `RegFile.allocate_ok`, `RegFile.allocateLinear_ok`.
-/
import Mathlib
import Chordal.Allocation
import Chordal.Proofs.Interference.Coloring

namespace Chordal

theorem RegSet.contains_insert (s : RegSet) (r q : Reg) :
    (s.insert r).contains q = true ↔ q = r ∨ s.contains q = true := by
  unfold insert
  split_ifs with h
  · refine ⟨Or.inr, fun hq => hq.elim (fun he => ?_) id⟩
    rwa [he]
  · simp [contains]

namespace RegFile

variable {file : RegFile}

/-- The place that a colour stands for. -/
def placeOf (pool : List Reg) (color : Nat) : Location :=
  match pool[color]? with
  | some r => .reg r
  | none => .slot (color - pool.length)

theorem pool_assign (file : RegFile) (color : Nat) : (file.assign color).2.pool = file.pool := by
  unfold assign
  cases file.pool[color]? <;> rfl

/-- Every value gets the place of its colour. -/
theorem placeAll_eq : ∀ (colors : IdMap Nat) (file : RegFile),
    (file.placeAll colors).1 = colors.map (fun p => (p.1, placeOf file.pool p.2)) ∧
      (file.placeAll colors).2.pool = file.pool
  | [], file => ⟨rfl, rfl⟩
  | (v, c) :: colors, file => by
    obtain ⟨hplaces, hpool⟩ := placeAll_eq colors (file.assign c).2
    rw [pool_assign] at hplaces hpool
    have hplace : (match (file.assign c).1 with
        | some r => Location.reg r
        | none => Location.slot (c - file.pool.length)) = placeOf file.pool c := by
      unfold assign placeOf
      cases file.pool[c]? <;> rfl
    exact ⟨congrArg₂ List.cons (congrArg (Prod.mk v) hplace) hplaces, hpool⟩

/-- The registers of the colours are taken. -/
theorem contains_placeAll : ∀ (colors : IdMap Nat) (file : RegFile) (r : Reg),
    (file.placeAll colors).2.used.contains r = true ↔
      file.used.contains r = true ∨ ∃ x ∈ colors, file.pool[x.2]? = some r
  | [], file, r => by simp [placeAll]
  | (v, color) :: colors, file, r => by
    have ih := contains_placeAll colors (file.assign color).2 r
    rw [pool_assign] at ih
    have hassign : (file.assign color).2.used.contains r = true ↔
        file.used.contains r = true ∨ file.pool[color]? = some r := by
      unfold assign
      cases hcolor : file.pool[color]? with
      | none => simp
      | some q =>
        rw [RegSet.contains_insert, Option.some_inj]
        exact or_comm.trans (or_congr_right eq_comm)
    rw [hassign] at ih
    rw [placeAll]
    dsimp only
    rw [ih, or_assoc]
    simp

theorem placeOf_injective {pool : List Reg} (hnd : pool.Nodup) {c d : Nat}
    (h : placeOf pool c = placeOf pool d) : c = d := by
  unfold placeOf at h
  cases hc : pool[c]? with
  | some r =>
    cases hd : pool[d]? with
    | some q =>
      rw [hc, hd] at h
      obtain rfl := Location.reg.inj h
      exact (List.getElem?_inj (List.getElem?_eq_some_iff.mp hc).1 hnd).mp (hc.trans hd.symm)
    | none =>
      rw [hc, hd] at h
      cases h
  | none =>
    cases hd : pool[d]? with
    | some q =>
      rw [hc, hd] at h
      cases h
    | none =>
      rw [hc, hd] at h
      have hcle := List.getElem?_eq_none_iff.mp hc
      have hdle := List.getElem?_eq_none_iff.mp hd
      have := Location.slot.inj h
      omega

theorem placeOf_eq_reg {pool : List Reg} {c : Nat} {r : Reg} : placeOf pool c = .reg r ↔ pool[c]? = some r := by
  unfold placeOf
  cases pool[c]? <;> simp

/-- The slots stand for the colours that are left when the registers are taken. -/
theorem placeOf_eq_slot {pool : List Reg} {c n : Nat} : placeOf pool c = .slot n ↔ c = pool.length + n := by
  unfold placeOf
  cases hc : pool[c]? with
  | some r =>
    have hlt := (List.getElem?_eq_some_iff.mp hc).1
    simp only [reduceCtorEq, false_iff]
    omega
  | none =>
    have hle := List.getElem?_eq_none_iff.mp hc
    simp only [Location.slot.injEq]
    omega

end RegFile

theorem IdMap.get?_map_values {α β : Type} (f : α → β) (k : Nat) : ∀ m : IdMap α,
    IdMap.get? (m.map fun p => (p.1, f p.2)) k = (m.get? k).map f
  | [] => rfl
  | p :: m => by
    rw [List.map_cons, IdMap.get?_cons, IdMap.get?_cons, IdMap.get?_map_values f k m]
    split_ifs <;> rfl

/-- Places that the machine has: registers of the pool, and slots of the frame. -/
structure Placement.Fits (p : Placement) : Prop where
  reg : ∀ {id r}, p.locations.get? id = some (.reg r) → r ∈ Reg.pool
  slot : ∀ {id n}, p.locations.get? id = some (.slot n) → n < p.stackSlots

/-- Places for a function: every value it writes has one, and what is live where a
value is written has another. -/
structure Placement.Separates (p : Placement) (l : Ssa.Linear) (heads : IdMap IdSet) : Prop where
  placed : ∀ id ∈ Ssa.definedIds l.instrs, ∃ loc, p.locations.get? id = some loc
  apart : ∀ b ∈ l.order, ∀ {done i rest t}, l.code b = done ++ i :: rest → i.target? = some t →
    ∀ id ∈ Ssa.liveBeforeAll rest (l.liveAtEnd heads b), id ≠ t.id →
      ∀ {loc}, p.locations.get? t.id = some loc → p.locations.get? id ≠ some loc

namespace RegFile

/-- The colours of a graph decide the places of its nodes and the number of slots. -/
theorem allocate_eq_ok (file : RegFile) {g : Interference.Graph} {order : List Nat} {colors : IdMap Nat}
    (horder : g.cardinalityOrder = .ok order) (hcolors : g.colorInOrder order = .ok colors) :
    ∃ a file', file.allocate g = .ok (a, file') ∧ file'.pool = file.pool ∧
      a.colorCount = (colors.values.map (· + 1)).foldl max 0 ∧
      a.placement.stackSlots = a.colorCount - file.pool.length ∧
      ∀ id, a.placement.locations.get? id = (colors.get? id).map (placeOf file.pool) := by
  obtain ⟨hplaces, hpool⟩ := placeAll_eq colors file.reset
  have hok : file.allocate g = .ok
      (⟨colors, order, (colors.values.map (· + 1)).foldl max 0,
        ⟨(file.reset.placeAll colors).1, (colors.values.map (· + 1)).foldl max 0 -
          (file.reset.placeAll colors).2.pool.length, (file.reset.placeAll colors).2.used⟩⟩,
        (file.reset.placeAll colors).2) := by
    unfold allocate
    simp only [horder, hcolors, bind, Except.bind]
    rfl
  refine ⟨_, _, hok, hpool, rfl, congrArg (_ - List.length ·) hpool, fun id => ?_⟩
  rw [hplaces]
  exact IdMap.get?_map_values (placeOf file.pool) id colors

/-- The nodes of a graph get places, neighbours different ones. -/
theorem allocate_ok {file : RegFile} {g : Interference.Graph} (hg : g.Valid) (hnd : file.pool.Nodup)
    (hpool : ∀ r ∈ file.pool, r ∈ Reg.pool) :
    ∃ a file', file.allocate g = .ok (a, file') ∧ file'.pool = file.pool ∧ a.placement.Fits ∧
      (∀ id ∈ g.nodes, ∃ loc, a.placement.locations.get? id = some loc) ∧
      ∀ {x y loc}, g.Adj x y → a.placement.locations.get? x = some loc →
        a.placement.locations.get? y ≠ some loc := by
  obtain ⟨order, horder, -⟩ := Interference.Graph.cardinalityOrder_ok hg
  obtain ⟨colors, hcolors, -, hproper, hkeys⟩ := Interference.Graph.colorInOrder_ok hg horder
  obtain ⟨a, file', hok, hpool', hcount, hslots, hget⟩ := file.allocate_eq_ok horder hcolors
  refine ⟨a, file', hok, hpool', ⟨?_, ?_⟩, ?_, ?_⟩
  · intro id r h
    obtain ⟨c, -, hplace⟩ := Option.map_eq_some_iff.mp ((hget id).symm.trans h)
    exact hpool r (List.mem_of_getElem? (placeOf_eq_reg.mp hplace))
  · intro id n h
    obtain ⟨c, hcolor, hplace⟩ := Option.map_eq_some_iff.mp ((hget id).symm.trans h)
    have hc := placeOf_eq_slot.mp hplace
    have hlt : c + 1 ≤ (colors.values.map (· + 1)).foldl max 0 := le_foldl_max_of_mem
      (List.mem_map.mpr ⟨c, List.mem_map.mpr ⟨(id, c), IdMap.mem_of_get? hcolor, rfl⟩, rfl⟩)
    omega
  · intro id hid
    obtain ⟨c, hc⟩ := IdMap.exists_get? ((hkeys id).mpr hid)
    exact ⟨placeOf file.pool c, by rw [hget, hc]; rfl⟩
  · intro x y loc hxy hx hy
    obtain ⟨c, hc, hplace⟩ := Option.map_eq_some_iff.mp ((hget x).symm.trans hx)
    obtain ⟨d, hd, hplace'⟩ := Option.map_eq_some_iff.mp ((hget y).symm.trans hy)
    obtain rfl := placeOf_injective hnd (hplace.trans hplace'.symm)
    exact hproper hxy hc hd

theorem ofLimit_pool (limit : Option Nat) : (ofLimit limit).pool.Nodup ∧ ∀ r ∈ (ofLimit limit).pool, r ∈ Reg.pool := by
  cases limit with
  | none => exact ⟨by decide, fun r hr => hr⟩
  | some n =>
    have hsub : (Reg.pool.take n).Sublist Reg.pool := List.take_sublist n Reg.pool
    exact ⟨(show Reg.pool.Nodup by decide).sublist hsub, fun r hr => hsub.subset hr⟩

/-- A function without phis, in which no path comes to a use before a definition,
gets places for its values. -/
theorem allocateLinear_ok {file : RegFile} {l : Ssa.Linear} (hnd : file.pool.Nodup)
    (hpool : ∀ r ∈ file.pool, r ∈ Reg.pool) (hlaid : l.func.LaidOut l.order) (hlinked : l.func.Linked)
    (hstrict : l.func.Strict) (hphi : ∀ b, ∀ i ∈ l.func.code b, i.isPhi = false) :
    ∃ live g a file', l.liveness = .ok live ∧ l.interference live = .ok g ∧
      file.allocate g = .ok (a, file') ∧ file'.pool = file.pool ∧ l.Settled live.heads ∧
      a.placement.Fits ∧ a.placement.Separates l live.heads := by
  obtain ⟨-, heads, -, -, hlive, hsettled⟩ := Ssa.Linear.liveness_ok hphi hlinked.succsAgree
  obtain ⟨g, hg, hv, hnodes, hadj⟩ := Ssa.Linear.interference_ok hlaid hlinked.succsAgree hstrict hphi hsettled
  obtain ⟨a, file', hok, hpool', hfits, hplaced, happart⟩ := allocate_ok hv hnd hpool
  refine ⟨_, g, a, file', hlive, hg, hok, hpool', hsettled, hfits, ?_, ?_⟩
  · exact fun id hid => hplaced id ((hnodes id).mpr hid)
  · intro b hb done i rest t hcode ht id hid hne loc
    exact happart ((hadj t.id id).mpr ⟨b, hb, done, i, rest, t, hcode, ht, id, hid, hne, .inl ⟨rfl, rfl⟩⟩)

end RegFile
end Chordal
