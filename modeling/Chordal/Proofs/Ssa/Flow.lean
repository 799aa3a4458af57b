/-
# Paths and well-formed flow graphs

A path begins at the start and follows terminators. A definition dominates a
place if every path to the place has passed it, so in a graph in which every use
is dominated by its definition no path comes to a use before a definition.

A run follows a path, and what the path has defined is defined in the store. So
a run of such a graph never reads a value before it is defined: it can only
return or fail in a division.

Key definitions: `Func.Path`, `Func.Dominates`, `Func.Regular`, `Func.WellFormed`,
`Func.Strict`, `Func.OnPath`.
Key theorems: `Func.WellFormed.strict`, `Func.Ended.of_blocks`, `Func.OnPath.operand`,
`Func.OnPath.write`.
-/
import Mathlib
import Chordal.Proofs.Ssa.Blocks

namespace Chordal.Ssa

/-- The numbers of the values that code defines. -/
def definedIds (code : List Instr) : List Nat := code.filterMap fun i => i.target?.map Value.id

theorem mem_definedIds {code : List Instr} {id : Nat} :
    id ∈ definedIds code ↔ ∃ i ∈ code, ∃ v, i.target? = some v ∧ v.id = id := by
  unfold definedIds
  simp only [List.mem_filterMap, Option.map_eq_some_iff]

theorem definedIds_append (c d : List Instr) : definedIds (c ++ d) = definedIds c ++ definedIds d :=
  List.filterMap_append

theorem mem_definedIds_flatMap {g : BlockId → List Instr} {bs : List BlockId} {id : Nat} :
    id ∈ definedIds (bs.flatMap g) ↔ ∃ b ∈ bs, id ∈ definedIds (g b) := by
  simp only [mem_definedIds, List.mem_flatMap]
  constructor
  · rintro ⟨i, ⟨b, hb, hi⟩, hv⟩
    exact ⟨b, hb, i, hi, hv⟩
  · rintro ⟨b, hb, i, hi, hv⟩
    exact ⟨i, ⟨b, hb, hi⟩, hv⟩

namespace Func

/-! ### Paths -/

/-- A path from the start comes to a block; `earlier` are the blocks it has left,
the latest first. -/
inductive Path (f : Func) : (b : BlockId) → (earlier : List BlockId) → Prop
  | start : Path f f.start []
  | step {a b : BlockId} {l : List BlockId} : Path f a l → b ∈ f.targets a → Path f b (a :: l)

/-- The instruction at place `j` of the block `d` defines the value. -/
def DefinesAt (f : Func) (d : BlockId) (j : Nat) (id : Nat) : Prop :=
  ((f.code d)[j]?.bind Instr.target?).map Value.id = some id

instance (f : Func) (d : BlockId) (j id : Nat) : Decidable (f.DefinesAt d j id) :=
  inferInstanceAs (Decidable (_ = _))

/-- Every path to the place `k` of the block `b` has passed the place `j` of the
block `d`. -/
def Dominates (f : Func) (d : BlockId) (j : Nat) (b : BlockId) (k : Nat) : Prop :=
  ∀ l, f.Path b l → d ∈ l ∨ d = b ∧ j < k

/-- A path that has left the blocks in `l`, and then run `done`, has defined the
value. -/
def Known (f : Func) (l : List BlockId) (done : List Instr) (id : Nat) : Prop :=
  id ∈ definedIds done ∨ ∃ a ∈ l, id ∈ definedIds (f.code a)

theorem Known.append {f : Func} {l : List BlockId} {done : List Instr} {id : Nat} (more : List Instr)
    (h : f.Known l done id) : f.Known l (done ++ more) id := by
  rcases h with h | h
  · exact .inl (by rw [definedIds_append]; exact List.mem_append_left _ h)
  · exact .inr h

/-! ### Graphs -/

/-- The lists of edges agree with each other and with the terminators. -/
structure Linked (f : Func) : Prop where
  mem_succs : ∀ {a b}, b ∈ f.succs a ↔ b ∈ f.targets a
  mem_preds : ∀ {a b}, a ∈ f.preds b ↔ b ∈ f.succs a

/-- The lists of successors agree with the terminators. -/
def SuccsAgree (f : Func) : Prop := ∀ a b, b ∈ f.succs a ↔ b ∈ f.targets a

theorem Linked.succsAgree {f : Func} (h : f.Linked) : f.SuccsAgree := fun _ _ => h.mem_succs

/-- Every block on a path ends in its only terminator. -/
def Ended (f : Func) : Prop :=
  ∀ {b l}, f.Path b l → ∃ front last, f.code b = front ++ [last] ∧ last.isTerminator = true ∧
    ∀ i ∈ front, i.isTerminator = false

/-- On every path a definition of a value comes before a use. What a phi reads,
it reads at the end of the block that control comes from. -/
structure Strict (f : Func) : Prop where
  use : ∀ {b l}, f.Path b l → ∀ {done i rest}, f.code b = done ++ i :: rest → i.isPhi = false →
    ∀ v ∈ i.operands, f.Known l done v.id
  phi : ∀ {a b l}, f.Path a l → b ∈ f.targets a → ∀ {target entries}, .phi target entries ∈ f.code b →
    ∀ v, (v, a) ∈ entries → f.Known l (f.code a) v.id

/-- A flow graph that makes sense: its blocks bear their numbers, its edges are
there, its phis stand at the heads of blocks and have an entry for each edge, and
its values have numbers below the count. -/
structure Regular (f : Func) : Prop where
  indexed : f.Indexed
  start_lt : f.start < f.blocks.size
  target_lt : ∀ {a b}, b ∈ f.targets a → b < f.blocks.size
  nodup_preds : ∀ b, (f.preds b).Nodup
  nodup_succs : ∀ b, (f.succs b).Nodup
  linked : f.Linked
  ended : f.Ended
  phis_first : ∀ b, ∀ i ∈ (f.code b).dropWhile Instr.isPhi, i.isPhi = false
  entries : ∀ {b target entries}, .phi target entries ∈ f.code b →
    (entries.map (·.2)).Perm (f.preds b)
  preds_start : f.preds f.start = []
  phis_start : ∀ i ∈ f.code f.start, i.isPhi = false
  target_id_lt : ∀ b, ∀ i ∈ f.code b, ∀ v, i.target? = some v → v.id < f.valueCount
  operand_id_lt : ∀ b, ∀ i ∈ f.code b, ∀ v ∈ i.operands, v.id < f.valueCount

/-- A flow graph in which every value has one definition, which dominates its
uses; that of what a phi reads dominates the end of the block it is read from. -/
structure WellFormed (f : Func) : Prop extends Regular f where
  unique : ∀ {d j d' j' id}, f.DefinesAt d j id → f.DefinesAt d' j' id → d = d' ∧ j = j'
  dominated : ∀ {b k i}, (f.code b)[k]? = some i → i.isPhi = false → ∀ v ∈ i.operands,
    ∃ d j, f.DefinesAt d j v.id ∧ f.Dominates d j b k
  phi_dominated : ∀ {b target entries}, .phi target entries ∈ f.code b → ∀ e ∈ entries,
    ∃ d j, f.DefinesAt d j e.1.id ∧ f.Dominates d j e.2 (f.code e.2).length

variable {f : Func}

theorem definesAt_iff {d j id} :
    f.DefinesAt d j id ↔ ∃ i v, (f.code d)[j]? = some i ∧ i.target? = some v ∧ v.id = id := by
  unfold DefinesAt
  simp only [Option.map_eq_some_iff, Option.bind_eq_some_iff]
  constructor
  · rintro ⟨v, ⟨i, hi, hv⟩, hid⟩
    exact ⟨i, v, hi, hv, hid⟩
  · rintro ⟨i, v, hi, hv, hid⟩
    exact ⟨v, ⟨i, hi, hv⟩, hid⟩

theorem DefinesAt.lt {d j id} (h : f.DefinesAt d j id) : j < (f.code d).length := by
  obtain ⟨i, v, hi, -⟩ := definesAt_iff.mp h
  exact (List.getElem?_eq_some_iff.mp hi).1

theorem DefinesAt.mem {d j id} (h : f.DefinesAt d j id) : id ∈ definedIds (f.code d) := by
  obtain ⟨i, v, hi, hv, hid⟩ := definesAt_iff.mp h
  exact mem_definedIds.mpr ⟨i, List.mem_of_getElem? hi, v, hv, hid⟩

theorem DefinesAt.mem_take {d j id k} (h : f.DefinesAt d j id) (hlt : j < k) :
    id ∈ definedIds ((f.code d).take k) := by
  obtain ⟨i, v, hi, hv, hid⟩ := definesAt_iff.mp h
  have htake : ((f.code d).take k)[j]? = some i := by rw [List.getElem?_take, if_pos hlt, hi]
  exact mem_definedIds.mpr ⟨i, List.mem_of_getElem? htake, v, hv, hid⟩

/-- What dominates a place is known on every path to it. -/
theorem Dominates.known {d j b k id l} (h : f.Dominates d j b k) (hdef : f.DefinesAt d j id)
    (hl : f.Path b l) : f.Known l ((f.code b).take k) id := by
  rcases h l hl with hd | ⟨rfl, hlt⟩
  · exact .inr ⟨d, hd, hdef.mem⟩
  · exact .inl (hdef.mem_take hlt)

theorem WellFormed.strict (h : f.WellFormed) : f.Strict where
  use := by
    intro b l hl done i rest hcode hphi v hv
    have hk : (f.code b)[done.length]? = some i := by
      rw [hcode, List.getElem?_append_right le_rfl, Nat.sub_self]
      rfl
    obtain ⟨d, j, hdef, hdom⟩ := h.dominated hk hphi v hv
    have hknown := hdom.known hdef hl
    rwa [hcode, List.take_left] at hknown
  phi := by
    intro a b l hl _ target entries hphi v hv
    obtain ⟨d, j, hdef, hdom⟩ := h.phi_dominated hphi (v, a) hv
    have hknown := hdom.known hdef hl
    rwa [List.take_length] at hknown

/-- No two instructions of a block define the same value. -/
theorem WellFormed.nodup_definedIds (h : f.WellFormed) (b : BlockId) : (definedIds (f.code b)).Nodup := by
  unfold definedIds
  rw [List.nodup_iff_pairwise_ne, List.pairwise_filterMap]
  rw [List.pairwise_iff_getElem]
  intro i j hi hj hlt x hx y hy hxy
  rw [Option.map_eq_some_iff] at hx hy
  obtain ⟨v, hv, rfl⟩ := hx
  obtain ⟨w, hw, rfl⟩ := hy
  have hi : f.DefinesAt b i v.id := definesAt_iff.mpr ⟨_, v, List.getElem?_eq_getElem hi, hv, rfl⟩
  have hj : f.DefinesAt b j v.id := definesAt_iff.mpr ⟨_, w, List.getElem?_eq_getElem hj, hw, hxy.symm⟩
  exact absurd (h.unique hi hj).2 (Nat.ne_of_lt hlt)

/-- The phis at the head of a block. -/
abbrev phis (f : Func) (b : BlockId) : List Instr := (f.code b).takeWhile Instr.isPhi

/-- What follows the phis at the head of a block. -/
abbrev body (f : Func) (b : BlockId) : List Instr := (f.code b).dropWhile Instr.isPhi

theorem phis_append_body (f : Func) (b : BlockId) : f.phis b ++ f.body b = f.code b :=
  List.takeWhile_append_dropWhile

theorem phis_of_noPhis {b : BlockId} (h : ∀ i ∈ f.code b, i.isPhi = false) : f.phis b = [] :=
  List.takeWhile_eq_nil_iff.mpr fun hlt => Bool.not_eq_true _ ▸ h _ (List.get_mem _ ⟨0, hlt⟩)

theorem body_of_noPhis {b : BlockId} (h : ∀ i ∈ f.code b, i.isPhi = false) : f.body b = f.code b := by
  have happend := f.phis_append_body b
  rwa [phis_of_noPhis h, List.nil_append] at happend

theorem hasPhis_eq_false : f.hasPhis = false ↔ ∀ b, ∀ i ∈ f.code b, i.isPhi = false := by
  unfold hasPhis
  rw [Array.any_eq_false]
  constructor
  · intro h b i hi
    have hb := lt_of_mem_code hi
    obtain ⟨blk, hblk, hcode⟩ := exists_block hb
    have hget : f.blocks[b] = blk := Option.some.inj ((Array.getElem?_eq_getElem hb).symm.trans hblk)
    have hnone := h b hb
    rw [hget, ← hcode, List.any_eq_true] at hnone
    rw [← Bool.not_eq_true]
    exact fun hphi => hnone ⟨i, hi, hphi⟩
  · intro h b hb
    obtain ⟨blk, hblk, hcode⟩ := exists_block hb
    have hget : f.blocks[b] = blk := Option.some.inj ((Array.getElem?_eq_getElem hb).symm.trans hblk)
    rw [hget, ← hcode, List.any_eq_true]
    rintro ⟨i, hi, hphi⟩
    rw [h b i hi] at hphi
    cases hphi

/-! ### Graphs that are checked block by block -/

theorem Linked.of_blocks (h : ∀ a < f.blocks.size, f.succs a = f.targets a ∧
    (∀ b ∈ f.preds a, a ∈ f.succs b) ∧ ∀ b ∈ f.succs a, a ∈ f.preds b) : f.Linked where
  mem_succs {a b} := by
    by_cases ha : a < f.blocks.size
    · rw [(h a ha).1]
    · exact iff_of_false (fun hb => ha (lt_of_mem_succs hb)) fun hb => ha (lt_of_mem_targets hb)
  mem_preds := ⟨fun ha => (h _ (lt_of_mem_preds ha)).2.1 _ ha, fun hb => (h _ (lt_of_mem_succs hb)).2.2 _ hb⟩

theorem Ended.of_blocks (hstart : f.start < f.blocks.size)
    (h : ∀ b < f.blocks.size, (∀ c ∈ f.targets b, c < f.blocks.size) ∧
      (∃ last ∈ (f.code b).getLast?, last.isTerminator = true) ∧
      ∀ i ∈ (f.code b).dropLast, i.isTerminator = false) : f.Ended := by
  intro b l hl
  have hlt : b < f.blocks.size := by
    cases hl with
    | start => exact hstart
    | step _ hb => exact (h _ (lt_of_mem_targets hb)).1 b hb
  obtain ⟨-, ⟨last, hlast, hterm⟩, hfront⟩ := h b hlt
  exact ⟨_, last, (List.dropLast_append_getLast? last hlast).symm, hterm, hfront⟩

theorem Path.eq_start_or_mem {b : BlockId} {l : List BlockId} (h : f.Path b l) : b = f.start ∨ f.start ∈ l := by
  induction h with
  | start => exact .inl rfl
  | step _ _ ih => exact .inr (List.mem_cons.mpr (ih.imp_left Eq.symm))

/-- Without phis it is enough that the first block defines all that the others use. -/
theorem Strict.of_first (hphi : f.hasPhis = false) (hfirst : ∀ i ∈ f.code f.start, i.operands = [])
    (h : ∀ b < f.blocks.size, ∀ i ∈ f.code b, ∀ v ∈ i.operands, v.id ∈ definedIds (f.code f.start)) : f.Strict where
  use {b l} hl done i rest hcode _ v hv := by
    have hi : i ∈ f.code b := hcode ▸ List.mem_append_right _ List.mem_cons_self
    rcases hl.eq_start_or_mem with rfl | hmem
    · rw [hfirst i hi] at hv
      cases hv
    · exact .inr ⟨f.start, hmem, h b (lt_of_mem_code hi) i hi v hv⟩
  phi _ _ _ _ h := by cases hasPhis_eq_false.mp hphi _ _ h

/-! ### Runs on paths -/

/-- A run is in a block that a path has come to, and has run `done` there. What
the path has defined is defined. -/
structure OnPath (f : Func) (l : List BlockId) (done : List Instr) (x : State) : Prop where
  path : f.Path x.block l
  code : f.code x.block = done ++ x.code
  body : ∀ i ∈ x.code, i.isPhi = false
  defined : ∀ id, f.Known l done id → ∃ w, x.store.get? id = some w

variable {l : List BlockId} {done rest : List Instr} {i : Instr} {b : BlockId} {store : Store}

section

variable (h : f.OnPath l done ⟨b, i :: rest, store⟩)

include h

/-- A run does not read a value before it is defined. -/
theorem OnPath.operand (hs : f.Strict) :
    ∀ v ∈ i.operands, ∃ w, store.get? v.id = some w := fun v hv =>
  h.defined v.id (hs.use h.path h.code (h.body i List.mem_cons_self) v hv)

/-- An instruction that writes its target leads on. -/
theorem OnPath.write {t : Value} (ht : i.target? = some t) (w : Word) :
    f.OnPath l (done ++ [i]) ⟨b, rest, store.write t w⟩ where
  path := h.path
  code := by simpa using h.code
  body j hj := h.body j (List.mem_cons_of_mem i hj)
  defined id hid := by
    rw [Store.get?_write]
    split_ifs with he
    · exact ⟨w, rfl⟩
    · refine h.defined id ?_
      rcases hid with hid | hid
      · rw [definedIds_append, List.mem_append] at hid
        rcases hid with hid | hid
        · exact .inl hid
        · obtain ⟨j, hj, v, hv, rfl⟩ := mem_definedIds.mp hid
          obtain rfl := List.mem_singleton.mp hj
          rw [ht] at hv
          exact absurd (congrArg Value.id (Option.some.inj hv).symm) he
      · exact .inr hid

/-- The instruction that is run last in a block is its terminator. -/
theorem OnPath.isTerminator_iff (he : f.Ended) : i.isTerminator = true ↔ rest = [] := by
  obtain ⟨front, last, hcode, hlast, hfront⟩ := he h.path
  have hall := h.code
  simp only at hall hcode
  rw [hall] at hcode
  constructor
  · intro hi
    by_contra hne
    obtain ⟨r, j, rfl⟩ := List.eq_nil_or_concat' rest |>.resolve_left hne
    have hcat : done ++ i :: (r ++ [j]) = (done ++ i :: r) ++ [j] := by simp
    rw [hcat] at hcode
    have hf := (List.append_inj' hcode rfl).1
    have := hfront i (by rw [← hf]; simp)
    rw [hi] at this
    cases this
  · rintro rfl
    have hl := (List.append_inj' hcode rfl).2
    rw [(List.cons.inj hl).1]
    exact hlast

end

theorem definedIds_concat_terminator (done : List Instr) {i : Instr} (hi : i.isTerminator = true) :
    definedIds (done ++ [i]) = definedIds done := by
  rw [definedIds_append]
  cases i with
  | jump | branch | ret => exact List.append_nil _
  | _ => cases hi

/-- At the end of a block all that it defines is defined. -/
theorem OnPath.defined_end (h : f.OnPath l done ⟨b, [i], store⟩) (hi : i.isTerminator = true) {id : Nat}
    (hid : f.Known l (f.code b) id) : ∃ w, store.get? id = some w := by
  refine h.defined id ?_
  have hcode : f.code b = done ++ [i] := h.code
  unfold Known at hid ⊢
  rwa [hcode, definedIds_concat_terminator done hi] at hid

/-- A run leaves a block and comes to the next, where the phis are written. -/
theorem OnPath.enter {c : BlockId} {store' : Store} (h : f.OnPath l done ⟨b, [i], store⟩)
    (hi : i.isTerminator = true) (hc : c ∈ f.targets b) (hfirst : ∀ j ∈ f.body c, j.isPhi = false)
    (hkeep : ∀ id, (∃ w, store.get? id = some w) → ∃ w, store'.get? id = some w)
    (hphis : ∀ id ∈ definedIds (f.phis c), ∃ w, store'.get? id = some w) :
    f.OnPath (b :: l) (f.phis c) ⟨c, f.body c, store'⟩ where
  path := .step h.path hc
  code := (f.phis_append_body c).symm
  body := hfirst
  defined id hid := by
    rcases hid with hid | ⟨a, ha, hid⟩
    · exact hphis id hid
    · refine hkeep id (h.defined_end hi ?_)
      rcases List.mem_cons.mp ha with rfl | ha
      · exact .inl hid
      · exact .inr ⟨a, ha, hid⟩

/-- Going to a block without phis changes nothing. -/
theorem enter_of_noPhis {g : Func} {c : BlockId} (hc : c < g.blocks.size)
    (hcode : ∀ j ∈ g.code c, j.isPhi = false) (origin : Option BlockId) (store : Store) :
    g.enter origin c store = .ok ⟨c, g.code c, store⟩ := by
  obtain ⟨blk, hblk, hblkcode⟩ := exists_block hc
  have hphis : blk.phis = [] := by
    rw [← phis_of_noPhis hcode, phis, hblkcode]
    rfl
  have hbody : blk.body = g.code c := by
    rw [← body_of_noPhis hcode, body, hblkcode]
    rfl
  unfold enter
  simp only [hblk, hphis, hbody]
  rfl

end Func

/-- What an instruction inside a block does depends only on what its operands
hold: it writes its target and goes on, or it is a division that fails. -/
theorem step_inside {i : Instr} {store : Store} (hterm : i.isTerminator = false)
    (hphi : i.isPhi = false) (hdef : ∀ v ∈ i.operands, ∃ w, store.get? v.id = some w) :
    ∃ t, i.target? = some t ∧
      ((∃ w, ∀ (g : Func) b rest (store' : Store),
          (∀ v ∈ i.operands, store'.get? v.id = store.get? v.id) →
            g.step b store' rest i = .ok (.state ⟨b, rest, store'.write t w⟩)) ∨
        ∃ fault, ∀ (g : Func) b rest (store' : Store),
          (∀ v ∈ i.operands, store'.get? v.id = store.get? v.id) →
            g.step b store' rest i = .error (.division fault)) := by
  cases i with
  | const t c => exact ⟨t, rfl, .inl ⟨c, fun _ _ _ _ _ => rfl⟩⟩
  | bool t c => exact ⟨t, rfl, .inl ⟨Word.ofBool c, fun _ _ _ _ _ => rfl⟩⟩
  | move t v =>
    obtain ⟨w, hw⟩ := hdef v (by simp [Instr.operands])
    refine ⟨t, rfl, .inl ⟨w, fun g b rest store' hst => ?_⟩⟩
    have hv := Store.read_eq_ok ((hst v (by simp [Instr.operands])).trans hw)
    simp only [Func.step, hv]
    rfl
  | unary t op v =>
    obtain ⟨w, hw⟩ := hdef v (by simp [Instr.operands])
    refine ⟨t, rfl, .inl ⟨op.apply w, fun g b rest store' hst => ?_⟩⟩
    have hv := Store.read_eq_ok ((hst v (by simp [Instr.operands])).trans hw)
    simp only [Func.step, hv]
    rfl
  | binary t op v u =>
    obtain ⟨w, hw⟩ := hdef v (by simp [Instr.operands])
    obtain ⟨z, hz⟩ := hdef u (by simp [Instr.operands])
    refine ⟨t, rfl, ?_⟩
    cases hop : op.apply w z with
    | ok c =>
      refine .inl ⟨c, fun g b rest store' hst => ?_⟩
      have hv := Store.read_eq_ok ((hst v (by simp [Instr.operands])).trans hw)
      have hu := Store.read_eq_ok ((hst u (by simp [Instr.operands])).trans hz)
      simp only [Func.step, hv, hu, bind, Except.bind, hop]
      rfl
    | error fault =>
      refine .inr ⟨fault, fun g b rest store' hst => ?_⟩
      have hv := Store.read_eq_ok ((hst v (by simp [Instr.operands])).trans hw)
      have hu := Store.read_eq_ok ((hst u (by simp [Instr.operands])).trans hz)
      simp only [Func.step, hv, hu, bind, Except.bind, hop]
  | phi => cases hphi
  | jump | branch | ret => cases hterm

end Chordal.Ssa
