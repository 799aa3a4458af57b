/-
# Live values are those that some path reads

Control goes from an instruction to the next one of its block, and from the last one
to the heads of the blocks that it names. A value is live at a place if a path from
there comes to an instruction that reads it and none before defines it. The sets of
the analysis hold these values and no others: what is in a head is live there, and
since the heads that the analysis ends with follow from each other, they have all
that a path reads, by induction along the path.

Key definitions: `Func.Leads`, `Func.LiveFrom`, `Func.LiveAfter`, `Liveness.Exact`.
Key theorems: `Func.liveFrom_iff`, `Func.liveAfter_iff`, `Linear.Settled.mem_iff`,
`Linear.Settled.exact`, `liveness_is_path_liveness`.
-/
import Mathlib
import Chordal.Proofs.Ssa.Liveness

namespace Chordal.Ssa

namespace Func

/-! ### Paths of instructions -/

/-- Where an instruction stands: its block, and its index there. -/
abbrev Place := BlockId × Nat

/-- Control may go from the first place to the second. -/
inductive Leads (f : Func) : Place → Place → Prop
  | inside {b : BlockId} {k : Nat} : k + 1 < (f.code b).length → Leads f (b, k) (b, k + 1)
  | edge {b c : BlockId} {k : Nat} : k + 1 = (f.code b).length → c ∈ f.targets b → Leads f (b, k) (c, 0)

/-- The instruction at the place reads the value. -/
def ReadsAt (f : Func) (p : Place) (id : Nat) : Prop :=
  ∃ i, (f.code p.1)[p.2]? = some i ∧ ∃ v ∈ i.operands, v.id = id

/-- Some path of instructions that begins at the place comes to one that reads the
value, and none before that one defines it. -/
def LiveFrom (f : Func) (p : Place) (id : Nat) : Prop :=
  ∃ q, Relation.ReflTransGen (fun a b => f.Leads a b ∧ ¬ f.DefinesAt a.1 a.2 id) p q ∧ f.ReadsAt q id

/-- The same for paths that begin immediately after the place. -/
def LiveAfter (f : Func) (p : Place) (id : Nat) : Prop := ∃ q, f.Leads p q ∧ f.LiveFrom q id

variable {f : Func} {b : BlockId} {k id : Nat}

theorem LiveFrom.of_read {p : Place} (h : f.ReadsAt p id) : f.LiveFrom p id := ⟨p, .refl, h⟩

theorem LiveFrom.past {p : Place} (h : f.LiveAfter p id) (hdef : ¬ f.DefinesAt p.1 p.2 id) : f.LiveFrom p id := by
  obtain ⟨q, hlead, r, hpath, hread⟩ := h
  exact ⟨r, .head ⟨hlead, hdef⟩ hpath, hread⟩

/-- A block without code sends control nowhere. -/
theorem targets_of_code_nil (h : f.code b = []) : f.targets b = [] := by
  rw [targets_eq, h]
  rfl

/-- What is live in the rest of a block is live from its next instruction on, or from
the head of a block that comes next. -/
theorem LiveAt.liveFrom {rest : List Instr} (h : f.LiveAt b rest id) :
    ∀ done, f.code b = done ++ rest →
      rest ≠ [] ∧ f.LiveFrom (b, done.length) id ∨ rest = [] ∧ ∃ c ∈ f.targets b, f.LiveFrom (c, 0) id := by
  induction h with
  | @read b i rest v hv =>
    intro done hcode
    exact .inl ⟨List.cons_ne_nil _ _, .of_read ⟨i, by simp [hcode], v, hv, rfl⟩⟩
  | @past b i rest id hne _ ih =>
    intro done hcode
    have hdef : ¬ f.DefinesAt b done.length id := by
      rintro hdef
      obtain ⟨j, v, hj, hv, hid⟩ := definesAt_iff.mp hdef
      obtain rfl : i = j := by simpa [hcode] using hj
      exact hne v hv hid
    refine .inl ⟨List.cons_ne_nil _ _, .past ?_ hdef⟩
    have hlen : (f.code b).length = done.length + 1 + rest.length := by
      rw [hcode, List.length_append, List.length_cons]
      omega
    rcases ih (done ++ [i]) (by simp [hcode]) with ⟨hrest, hlive⟩ | ⟨rfl, c, hc, hlive⟩
    · rw [List.length_append, List.length_singleton] at hlive
      have hpos := List.length_pos_iff.mpr hrest
      exact ⟨_, .inside (by omega), hlive⟩
    · exact ⟨_, .edge (by simp [hlen]) hc, hlive⟩
  | @next b c id hc _ ih =>
    intro done _
    rcases ih [] rfl with ⟨-, hlive⟩ | ⟨hnil, d, hd, -⟩
    · exact .inr ⟨rfl, c, hc, hlive⟩
    · rw [targets_of_code_nil hnil] at hd
      cases hd

/-- What is live behind an instruction that does not define it is live before it. -/
theorem LiveAt.before (hk : k < (f.code b).length) (hdef : ¬ f.DefinesAt b k id)
    (h : f.LiveAt b ((f.code b).drop (k + 1)) id) : f.LiveAt b ((f.code b).drop k) id := by
  rw [List.drop_eq_getElem_cons hk]
  refine .past (fun t ht hid => hdef ?_) h
  exact definesAt_iff.mpr ⟨_, t, List.getElem?_eq_getElem hk, ht, hid⟩

theorem liveAt_of_liveFrom {p : Place} (h : f.LiveFrom p id) : f.LiveAt p.1 ((f.code p.1).drop p.2) id := by
  obtain ⟨q, hpath, hread⟩ := h
  induction hpath using Relation.ReflTransGen.head_induction_on with
  | refl =>
    obtain ⟨i, hi, v, hv, rfl⟩ := hread
    obtain ⟨hlt, rfl⟩ := List.getElem?_eq_some_iff.mp hi
    rw [List.drop_eq_getElem_cons hlt]
    exact .read hv
  | head hstep _ ih =>
    obtain ⟨hlead, hdef⟩ := hstep
    cases hlead with
    | inside hk => exact .before (Nat.lt_of_succ_lt hk) hdef ih
    | edge hk hc =>
      refine .before (Nat.lt_of_succ_le hk.le) hdef ?_
      rw [hk, List.drop_length]
      exact .next hc ih

/-- Live from the head of a block on, by its code. -/
theorem liveFrom_iff : f.LiveFrom (b, 0) id ↔ f.LiveAt b (f.code b) id := by
  refine ⟨fun h => by simpa using liveAt_of_liveFrom h, fun h => ?_⟩
  rcases h.liveFrom [] rfl with ⟨-, hlive⟩ | ⟨hnil, d, hd, -⟩
  · exact hlive
  · rw [targets_of_code_nil hnil] at hd
    cases hd

/-- Live after an instruction, by the code behind it. -/
theorem liveAfter_iff (hk : k < (f.code b).length) :
    f.LiveAfter (b, k) id ↔ f.LiveAt b ((f.code b).drop (k + 1)) id := by
  constructor
  · rintro ⟨q, hlead, hlive⟩
    have hlive := liveAt_of_liveFrom hlive
    cases hlead with
    | inside _ => exact hlive
    | edge hend hc =>
      rw [hend, List.drop_length]
      exact .next hc hlive
  · intro h
    have hlen : ((f.code b).take (k + 1)).length = k + 1 := List.length_take_of_le hk
    rcases h.liveFrom _ (List.take_append_drop (k + 1) (f.code b)).symm with ⟨hrest, hlive⟩ | ⟨hnil, c, hc, hlive⟩
    · rw [hlen] at hlive
      exact ⟨_, .inside (Nat.lt_of_not_le (mt List.drop_eq_nil_iff.mpr hrest)), hlive⟩
    · exact ⟨_, .edge (Nat.le_antisymm hk (List.drop_eq_nil_iff.mp hnil)) hc, hlive⟩

end Func

namespace Linear

variable {l : Linear} {heads : IdMap IdSet} {b : BlockId} {id : Nat}

/-! ### The sets of the analysis -/

/-- Settled heads have all that is live there. -/
theorem Settled.mem_of_liveAt (h : l.Settled heads) (hsuccs : l.func.SuccsAgree)
    (hlaid : l.func.LaidOut l.order) {rest : List Instr} (hlive : l.func.LiveAt b rest id) :
    b ∈ l.order → id ∈ liveBeforeAll rest (l.liveAtEnd heads b) := by
  induction hlive with
  | read hv =>
    intro _
    rw [liveBeforeAll_cons, mem_liveBefore]
    exact .inr ⟨_, hv, rfl⟩
  | past hne _ ih =>
    intro hb
    rw [liveBeforeAll_cons, mem_liveBefore]
    exact .inl ⟨ih hb, hne⟩
  | @next b c id hc _ ih =>
    intro hb
    have hc' := hlaid.closed b hb c hc
    refine mem_liveAtEnd.mpr ⟨c, (hsuccs b c).mpr hc, ?_⟩
    rw [h.headOf_eq hc']
    exact ih hc'

theorem Settled.mem_iff (h : l.Settled heads) (hsuccs : l.func.SuccsAgree) (hlaid : l.func.LaidOut l.order)
    (hb : b ∈ l.order) {rest : List Instr} :
    id ∈ liveBeforeAll rest (l.liveAtEnd heads b) ↔ l.func.LiveAt b rest id := by
  refine ⟨fun hid => liveAt_of_mem_liveBeforeAll (fun id hid => ?_) rest hid,
    fun hlive => h.mem_of_liveAt hsuccs hlaid hlive hb⟩
  obtain ⟨c, hc, hid⟩ := mem_liveAtEnd.mp hid
  exact .next ((hsuccs b c).mp hc) (h.live c id hid)

theorem getElem?_liveBehindEach (after : IdSet) : ∀ (code : List Instr) {k : Nat}, k < code.length →
    (liveBehindEach after code)[k]? = some (liveBeforeAll (code.drop (k + 1)) after)
  | i :: code, 0, _ => by
    rw [liveBehindEach_cons]
    rfl
  | i :: code, k + 1, hk => by
    rw [liveBehindEach_cons, List.getElem?_cons_succ, getElem?_liveBehindEach after code (Nat.lt_of_succ_lt_succ hk)]
    rfl

theorem sorted_of_mem_liveBehindEach {after s : IdSet} {code : List Instr} (hafter : after.Pairwise (· < ·))
    (hs : s ∈ liveBehindEach after code) : s.Pairwise (· < ·) := by
  obtain ⟨k, hk⟩ := List.mem_iff_getElem?.mp hs
  have hlt : k < code.length := length_liveBehindEach after code ▸ (List.getElem?_eq_some_iff.mp hk).1
  rw [getElem?_liveBehindEach after code hlt] at hk
  exact Option.some.inj hk ▸ sorted_liveBeforeAll hafter _

end Linear

/-- The sets of an analysis are those of the live values: one for the place behind each
instruction on the line, and one for the head of each block. No set holds a value twice. -/
structure Liveness.Exact (l : Linear) (live : Liveness) : Prop where
  length : live.after.length = l.points.length
  sorted : ∀ s ∈ live.after, s.Pairwise (· < ·)
  after : ∀ p ∈ l.points, ∃ s, live.after[p.position]? = some s ∧
    ∀ id, id ∈ s ↔ l.func.LiveAfter (p.block, p.index) id
  head : ∀ b ∈ l.order, ∃ s, live.heads.get? b = some s ∧ ∀ id, id ∈ s ↔ l.func.LiveFrom (b, 0) id

/-- Settled heads and what follows from them are the live values. -/
theorem Linear.Settled.exact {l : Linear} {heads : IdMap IdSet} (hsettled : l.Settled heads)
    (hlaid : l.func.LaidOut l.order) (hsuccs : l.func.SuccsAgree) :
    Liveness.Exact l ⟨heads, l.order.flatMap fun b => liveBehindEach (l.liveAtEnd heads b) (l.code b)⟩ := by
  have hlen : ∀ b, (liveBehindEach (l.liveAtEnd heads b) (l.code b)).length = (l.code b).length := fun b =>
    length_liveBehindEach _ _
  refine ⟨(length_pointsFrom hlen l.order 0).symm, fun s hs => ?_, fun p hp => ?_, fun b hb => ?_⟩
  · obtain ⟨b, -, hs⟩ := List.mem_flatMap.mp hs
    exact sorted_of_mem_liveBehindEach (sorted_foldl_union _ _ List.Pairwise.nil) hs
  · obtain ⟨hb, hinstr, n, hn, hget⟩ := getElem?_of_mem_pointsFrom hlen hp
    have hk := (List.getElem?_eq_some_iff.mp hinstr).1
    refine ⟨liveBeforeAll ((l.code p.block).drop (p.index + 1)) (l.liveAtEnd heads p.block), ?_, fun id => ?_⟩
    · rw [hn, Nat.zero_add, hget, getElem?_liveBehindEach _ _ hk]
    · rw [hsettled.mem_iff hsuccs hlaid hb]
      exact (Func.liveAfter_iff hk).symm
  · refine ⟨_, hsettled.head b hb, fun id => ?_⟩
    rw [transfer, hsettled.mem_iff hsuccs hlaid hb]
    exact Func.liveFrom_iff.symm

/-- **Liveness is liveness on paths.** In a function without phis, whose lists of successors agree
with the terminators and whose blocks end in them, a round of the analysis comes that changes no
head, and a value is in one of its sets if and only if some path of instructions from there reads it
before it is defined. -/
theorem liveness_is_path_liveness {f : Func} (hphi : f.hasPhis = false) (hsuccs : f.SuccsAgree) (hended : f.Ended) :
    ∃ l summaries live, f.linear = .ok l ∧ l.func = f ∧ l.summaries = .ok summaries ∧
      (l.sweepAll summaries l.roundBound l.unswept).changed = false ∧ l.liveness = .ok live ∧
      live.Exact l := by
  obtain ⟨order, horder, hlaid⟩ := Func.layout_laidOut hended
  obtain ⟨summaries, heads, hsummaries, hrest, hlive, hsettled⟩ :=
    Linear.liveness_ok (l := ⟨f, order⟩) (Func.hasPhis_eq_false.mp hphi) hsuccs
  exact ⟨⟨f, order⟩, summaries, _, Func.linear_eq horder, rfl, hsummaries, hrest, hlive,
    hsettled.exact hlaid hsuccs⟩

/-- Counts down from three. The loop reads the counter and defines it again. -/
def countdown : Func where
  name := "main"
  returns := .int
  isEntry := true
  start := 0
  blocks := #[
    ⟨0, "entry", [.const ⟨0, .int⟩ 3, .const ⟨1, .int⟩ 1, .jump 1], [], [1]⟩,
    ⟨1, "loop", [.binary ⟨0, .int⟩ .sub ⟨0, .int⟩ ⟨1, .int⟩, .branch ⟨0, .int⟩ 1 2], [0, 1], [1, 2]⟩,
    ⟨2, "exit", [.ret ⟨1, .int⟩], [1], []⟩]
  valueCount := 2

theorem countdown_noPhis : countdown.hasPhis = false := by decide +kernel

theorem countdown_linked : countdown.Linked := .of_blocks (by decide)

theorem countdown_ended : countdown.Ended := Func.Ended.of_blocks (by decide) (by decide)

/-- The counter is live behind the loop's branch, since the loop may be run again, but not at the
head of the exit. -/
theorem countdown_live : countdown.hasPhis = false ∧ countdown.SuccsAgree ∧ countdown.Ended ∧
    ∃ l live, countdown.linear = .ok l ∧ l.liveness = .ok live ∧ live.after[4]? = some [0, 1] ∧
      countdown.LiveAfter (1, 1) 0 ∧ live.heads.get? 2 = some [1] ∧ ¬ countdown.LiveFrom (2, 0) 0 := by
  obtain ⟨l, _, live, hl, hfunc, -, -, hlive, hexact⟩ :=
    liveness_is_path_liveness countdown_noPhis countdown_linked.succsAgree countdown_ended
  have hrun : (do
      let l ← countdown.linear
      let live ← l.liveness
      return (l.order, l.points[4]?, live.after[4]?, live.heads.get? 2)) =
        .ok ([0, 1, 2], some ⟨4, 1, 1, .branch ⟨0, .int⟩ 1 2⟩, some [0, 1], some [1]) := by decide +kernel
  simp only [hl, hlive, bind, Except.bind] at hrun
  obtain ⟨horder, hpoint, hafter, hhead⟩ : l.order = [0, 1, 2] ∧
      l.points[4]? = some ⟨4, 1, 1, .branch ⟨0, .int⟩ 1 2⟩ ∧ live.after[4]? = some [0, 1] ∧
        live.heads.get? 2 = some [1] := by simpa using Except.ok.inj hrun
  obtain ⟨s, hs, hmem⟩ := hexact.after _ (List.mem_of_getElem? hpoint)
  obtain ⟨t, ht, hmem'⟩ := hexact.head 2 (by simp [horder])
  obtain rfl := Option.some.inj (hs.symm.trans hafter)
  obtain rfl := Option.some.inj (ht.symm.trans hhead)
  rw [hfunc] at hmem hmem'
  exact ⟨countdown_noPhis, countdown_linked.succsAgree, countdown_ended, l, live, hl, hlive, hafter,
    (hmem 0).mp (by decide), hhead, fun h => absurd ((hmem' 0).mpr h) (by decide)⟩

end Chordal.Ssa
