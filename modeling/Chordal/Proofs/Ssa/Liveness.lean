/-
# Liveness

The summary of a block takes what is live at its end to what is live at its head, as
its instructions do one by one. The heads that the analysis ends with are settled:
each is what follows from the heads of the blocks that may come next, and the ends
of the last round are those that follow from them, since it changed none. They get
there in time: a round that changes a head makes it larger, and only values that
are read are in it.

What is in a head is live there: some path reads it before it is written. So in a
graph in which no path comes to a use before a definition, what is live anywhere
on the line is written somewhere on the line.

Key definitions: `liveBeforeAll`, `Func.LiveAt`, `Linear.Rising`, `Linear.Swept`, `Linear.Settled`.
Key theorems: `Linear.summarize_ok`, `Linear.sweepAll_rests`, `Linear.liveness_ok`.
-/
import Mathlib
import Chordal.Proofs.Finite
import Chordal.Proofs.Ssa.Line
import Chordal.Ssa.Liveness

namespace Chordal.Ssa

/-! ### Members of live sets -/

/-- What is live before the first of some instructions. -/
def liveBeforeAll (code : List Instr) (after : IdSet) : IdSet := code.foldr liveBefore after

variable {after : IdSet} {id : Nat}

theorem mem_liveBefore {i : Instr} :
    id ∈ liveBefore i after ↔
      (id ∈ after ∧ ∀ t, i.target? = some t → t.id ≠ id) ∨ ∃ v ∈ i.operands, v.id = id := by
  unfold liveBefore
  rw [IdSet.mem_union, List.mem_map]
  refine or_congr ?_ Iff.rfl
  cases i.target? with
  | none => simp
  | some t => simp [IdSet.mem_erase, eq_comm]

theorem sorted_liveBefore (i : Instr) (h : after.Pairwise (· < ·)) :
    (liveBefore i after).Pairwise (· < ·) := by
  unfold liveBefore
  refine IdSet.sorted_union _ ?_
  cases i.target? with
  | none => exact h
  | some t => exact IdSet.sorted_erase t.id h

theorem sorted_liveBeforeAll (h : after.Pairwise (· < ·)) : ∀ code : List Instr,
    (liveBeforeAll code after).Pairwise (· < ·)
  | [] => h
  | i :: code => sorted_liveBefore i (sorted_liveBeforeAll h code)

theorem liveBeforeAll_cons (i : Instr) (code : List Instr) (after : IdSet) :
    liveBeforeAll (i :: code) after = liveBefore i (liveBeforeAll code after) := rfl

/-- More is live before code if more is live behind it. -/
theorem liveBeforeAll_mono {after' : IdSet} (h : ∀ id ∈ after, id ∈ after') :
    ∀ code : List Instr, id ∈ liveBeforeAll code after → id ∈ liveBeforeAll code after'
  | [], hid => h id hid
  | i :: code, hid => by
    rw [liveBeforeAll_cons, mem_liveBefore] at hid ⊢
    rcases hid with ⟨hid, hne⟩ | hid
    · exact .inl ⟨liveBeforeAll_mono h code hid, hne⟩
    · exact .inr hid

/-- What is live before code is read in it or live behind it. -/
theorem mem_or_read_of_mem_liveBeforeAll : ∀ code : List Instr,
    id ∈ liveBeforeAll code after → id ∈ after ∨ ∃ i ∈ code, ∃ v ∈ i.operands, v.id = id
  | [], hid => .inl hid
  | i :: code, hid => by
    rw [liveBeforeAll_cons, mem_liveBefore] at hid
    rcases hid with ⟨hid, -⟩ | hid
    · rcases mem_or_read_of_mem_liveBeforeAll code hid with h | ⟨j, hj, hv⟩
      · exact .inl h
      · exact .inr ⟨j, List.mem_cons_of_mem i hj, hv⟩
    · exact .inr ⟨i, List.mem_cons_self, hid⟩

/-- A value that some path reads before it is written, from here in a block. -/
inductive Func.LiveAt (f : Func) : BlockId → List Instr → Nat → Prop
  | read {b : BlockId} {i : Instr} {rest : List Instr} {v : Value} :
    v ∈ i.operands → LiveAt f b (i :: rest) v.id
  | past {b : BlockId} {i : Instr} {rest : List Instr} {id : Nat} :
    (∀ t, i.target? = some t → t.id ≠ id) → LiveAt f b rest id → LiveAt f b (i :: rest) id
  | next {b c : BlockId} {id : Nat} : c ∈ f.targets b → LiveAt f c (f.code c) id → LiveAt f b [] id

theorem liveAt_of_mem_liveBeforeAll {f : Func} {b : BlockId} (h : ∀ id ∈ after, f.LiveAt b [] id) :
    ∀ code : List Instr, id ∈ liveBeforeAll code after →
    f.LiveAt b code id
  | [], hid => h id hid
  | i :: code, hid => by
    rw [liveBeforeAll_cons, mem_liveBefore] at hid
    rcases hid with ⟨hid, hne⟩ | ⟨v, hv, rfl⟩
    · exact .past hne (liveAt_of_mem_liveBeforeAll h code hid)
    · exact .read hv

/-! ### Summaries -/

namespace Summary

variable {s : Summary} {i : Instr} {after : IdSet} {id : Nat}

theorem mem_before : id ∈ s.before after ↔ id ∈ s.uses ∨ id ∉ s.defs ∧ id ∈ after := by
  simp [before, IdSet.mem_union, and_comm]

/-- One more instruction at the end of the code is passed first on the way back. -/
theorem mem_before_add : id ∈ (s.add i).before after ↔ id ∈ s.before (liveBefore i after) := by
  have huses : id ∈ (s.add i).uses ↔ id ∈ s.uses ∨ id ∉ s.defs ∧ ∃ v ∈ i.operands, v.id = id := by
    simp [add, IdSet.mem_union, and_comm]
  have hdefs : id ∈ (s.add i).defs ↔ id ∈ s.defs ∨ ∃ t, i.target? = some t ∧ t.id = id := by
    unfold add
    cases i.target? <;> simp [IdSet.mem_insert, eq_comm, or_comm]
  rw [mem_before, mem_before, huses, hdefs, mem_liveBefore]
  by_cases hs : id ∈ s.defs
  · simp [hs]
  · simp only [hs, false_or, not_exists, not_and, not_false_eq_true, true_and, or_assoc]
    rw [or_comm (a := ∃ v ∈ i.operands, v.id = id), and_comm (b := id ∈ after)]

end Summary

/-- A summary knows what the instructions do one by one, also where a value is read and then
written in the same block. -/
theorem Linear.summarize_ok {l : Linear} {b : BlockId} : ∀ {code : List Instr} (s : Summary),
    (∀ i ∈ code, i.isPhi = false) → s.uses.Pairwise (· < ·) →
    ∃ s', l.summarize b code s = .ok s' ∧ s'.uses.Pairwise (· < ·) ∧
      ∀ atEnd id, id ∈ s'.before atEnd ↔ id ∈ s.before (liveBeforeAll code atEnd)
  | [], s, _, hsorted => ⟨s, rfl, hsorted, fun _ _ => Iff.rfl⟩
  | i :: code, s, hphi, hsorted => by
    obtain ⟨s', hok, hsorted', hmem⟩ := Linear.summarize_ok (l := l) (b := b) (s.add i)
      (fun j hj => hphi j (List.mem_cons_of_mem i hj)) (IdSet.sorted_union _ hsorted)
    refine ⟨s', ?_, hsorted', fun atEnd id => (hmem atEnd id).trans Summary.mem_before_add⟩
    have hi := hphi i List.mem_cons_self
    cases i with
    | phi target entries => cases hi
    | _ => exact hok

namespace Linear

variable {l : Linear} {heads heads' : IdMap IdSet} {b : BlockId} {id : Nat}

/-- What is live at the head of a block. -/
abbrev headOf (heads : IdMap IdSet) (b : BlockId) : IdSet := (heads.get? b).getD []

/-- The head of a block, from the heads of the blocks that may come next. -/
abbrev transfer (l : Linear) (heads : IdMap IdSet) (b : BlockId) : IdSet :=
  liveBeforeAll (l.code b) (l.liveAtEnd heads b)

theorem mem_foldl_union (id : Nat) (sets : BlockId → IdSet) : ∀ (succs : List BlockId) (s : IdSet),
    id ∈ succs.foldl (fun live c => IdSet.union live (sets c)) s ↔ id ∈ s ∨ ∃ c ∈ succs, id ∈ sets c
  | [], s => by simp
  | c :: succs, s => by
    rw [List.foldl_cons, mem_foldl_union id sets succs, IdSet.mem_union]
    simp only [List.mem_cons, exists_eq_or_imp]
    tauto

theorem sorted_foldl_union (sets : BlockId → IdSet) : ∀ (succs : List BlockId) {s : IdSet},
    s.Pairwise (· < ·) → (succs.foldl (fun live c => IdSet.union live (sets c)) s).Pairwise (· < ·)
  | [], _, h => h
  | _ :: succs, _, h => sorted_foldl_union sets succs (IdSet.sorted_union _ h)

theorem mem_liveAtEnd : id ∈ l.liveAtEnd heads b ↔ ∃ c ∈ l.func.succs b, id ∈ headOf heads c :=
  (mem_foldl_union id (headOf heads) (l.func.succs b) []).trans (by simp)

theorem sorted_transfer (l : Linear) (heads : IdMap IdSet) (b : BlockId) :
    (l.transfer heads b).Pairwise (· < ·) :=
  sorted_liveBeforeAll (sorted_foldl_union _ _ List.Pairwise.nil) _

/-- Larger heads make the head of a block larger. -/
theorem transfer_mono (h : ∀ c, ∀ id ∈ headOf heads c, id ∈ headOf heads' c) :
    id ∈ l.transfer heads b → id ∈ l.transfer heads' b := by
  refine liveBeforeAll_mono (fun id hid => ?_) _
  obtain ⟨c, hc, hid⟩ := mem_liveAtEnd.mp hid
  exact mem_liveAtEnd.mpr ⟨c, hc, h c id hid⟩

/-! ### Rounds -/

/-- The numbers of the values that are read on the line. -/
def readIds (l : Linear) : List Nat := l.instrs.flatMap fun i => i.operands.map Value.id

/-- The heads on the way: in order, not larger than what follows from them, and
with nothing in them that is not live or not read. -/
structure Rising (l : Linear) (heads : IdMap IdSet) : Prop where
  sorted : heads.keys.Pairwise (· < ·)
  keys : ∀ b, b ∈ heads.keys ↔ b ∈ l.order
  sorted_head : ∀ b, (headOf heads b).Pairwise (· < ·)
  le_transfer : ∀ b, ∀ id ∈ headOf heads b, id ∈ l.transfer heads b
  live : ∀ b, ∀ id ∈ headOf heads b, l.func.LiveAt b (l.code b) id
  read : ∀ b, ∀ id ∈ headOf heads b, id ∈ l.readIds

theorem headOf_insert (b : BlockId) (s : IdSet) (c : BlockId) :
    headOf (heads.insert b s) c = if c = b then s else headOf heads c := by
  unfold headOf
  rw [IdMap.get?_insert]
  split_ifs <;> rfl

theorem headOf_insert_le (h : l.Rising heads) (b : BlockId) :
    ∀ c, ∀ id ∈ headOf heads c, id ∈ headOf (heads.insert b (l.transfer heads b)) c := by
  intro c id hid
  rw [headOf_insert]
  split_ifs with hc
  · exact hc ▸ h.le_transfer c id hid
  · exact hid

/-- Bringing a head up to date makes it larger, if it changes it. -/
theorem Rising.insert (h : l.Rising heads) (hl : l.func.SuccsAgree) (hb : b ∈ l.order) :
    l.Rising (heads.insert b (l.transfer heads b)) := by
  have hle := headOf_insert_le h b
  have hlive : ∀ id ∈ l.transfer heads b, l.func.LiveAt b (l.code b) id := fun id hid =>
    liveAt_of_mem_liveBeforeAll (fun id hid => by
      obtain ⟨c, hc, hid⟩ := mem_liveAtEnd.mp hid
      exact .next ((hl _ _).mp hc) (h.live c id hid)) _ hid
  have hread : ∀ id ∈ l.transfer heads b, id ∈ l.readIds := fun id hid => by
    rcases mem_or_read_of_mem_liveBeforeAll _ hid with hid | ⟨i, hi, v, hv, rfl⟩
    · obtain ⟨c, hc, hid⟩ := mem_liveAtEnd.mp hid
      exact h.read c id hid
    · exact List.mem_flatMap.mpr ⟨i, List.mem_flatMap.mpr ⟨b, hb, hi⟩, List.mem_map.mpr ⟨v, hv, rfl⟩⟩
  refine ⟨IdMap.sorted_insert _ _ h.sorted, fun c => ?_, fun c => ?_, fun c id hid => ?_,
    fun c id hid => ?_, fun c id hid => ?_⟩
  · rw [IdMap.mem_keys_insert, h.keys]
    constructor
    · rintro (rfl | hc)
      · exact hb
      · exact hc
    · exact .inr
  · rw [headOf_insert]
    split_ifs
    · exact sorted_transfer l heads b
    · exact h.sorted_head c
  · refine transfer_mono hle ?_
    rw [headOf_insert] at hid
    split_ifs at hid with hc
    · exact hc ▸ hid
    · exact h.le_transfer c id hid
  · rw [headOf_insert] at hid
    split_ifs at hid with hc
    · exact hc ▸ hlive id hid
    · exact h.live c id hid
  · rw [headOf_insert] at hid
    split_ifs at hid
    · exact hread id hid
    · exact h.read c id hid

theorem foldl_insert_nil : ∀ (bs : List BlockId) (heads : IdMap IdSet), heads.keys.Pairwise (· < ·) →
    (∀ b, headOf heads b = []) →
    (bs.foldl (fun m b => m.insert b []) heads).keys.Pairwise (· < ·) ∧
      (∀ b, b ∈ (bs.foldl (fun m b => m.insert b []) heads).keys ↔ b ∈ bs ∨ b ∈ heads.keys) ∧
        ∀ b, headOf (bs.foldl (fun m b => m.insert b []) heads) b = []
  | [], heads, h, hnil => ⟨h, fun b => by simp, hnil⟩
  | c :: bs, heads, h, hnil => by
    obtain ⟨h₁, h₂, h₃⟩ := foldl_insert_nil bs (heads.insert c []) (IdMap.sorted_insert c [] h) fun b => by
      rw [headOf_insert]
      split_ifs
      · rfl
      · exact hnil b
    refine ⟨h₁, fun b => (h₂ b).trans ?_, h₃⟩
    rw [IdMap.mem_keys_insert, List.mem_cons]
    tauto

/-- The heads before the first round are empty. -/
theorem headOf_emptySets (l : Linear) (b : BlockId) : headOf l.emptySets b = [] :=
  (foldl_insert_nil l.order [] List.Pairwise.nil fun _ => rfl).2.2 b

theorem rising_emptySets (l : Linear) : l.Rising l.emptySets := by
  obtain ⟨h₁, h₂, h₃⟩ := foldl_insert_nil l.order [] List.Pairwise.nil fun _ => rfl
  have hnone : ∀ b id, id ∉ headOf l.emptySets b := fun b id hid => by
    rw [l.headOf_emptySets b] at hid
    cases hid
  refine ⟨h₁, fun b => (h₂ b).trans ?_, fun b => ?_, fun b id hid => absurd hid (hnone b id),
    fun b id hid => absurd hid (hnone b id), fun b id hid => absurd hid (hnone b id)⟩
  · simp [IdMap.keys]
  · rw [l.headOf_emptySets b]
    exact List.Pairwise.nil

/-! ### The last round -/

/-- How much is in the heads. -/
def weight (l : Linear) (heads : IdMap IdSet) : Nat :=
  (l.order.map fun b => (headOf heads b).length).sum

theorem Rising.weight_le (h : l.Rising heads) : l.weight heads ≤ l.order.length * l.readIds.length := by
  unfold weight
  rw [← smul_eq_mul, ← List.length_map (f := fun b => (headOf heads b).length)]
  refine List.sum_le_card_nsmul _ _ fun n hn => ?_
  obtain ⟨b, -, rfl⟩ := List.mem_map.mp hn
  exact ((h.sorted_head b).nodup.subperm (h.read b)).length_le

/-- A head that changes makes the heads larger. -/
theorem Rising.weight_lt (h : l.Rising heads) (hl : l.func.SuccsAgree) (hb : b ∈ l.order)
    (hne : heads.get? b ≠ some (l.transfer heads b)) :
    l.weight heads < l.weight (heads.insert b (l.transfer heads b)) := by
  have hle := headOf_insert_le h b
  have hsame : headOf (heads.insert b (l.transfer heads b)) b = l.transfer heads b := by
    rw [headOf_insert, if_pos rfl]
  have hdiff : headOf heads b ≠ l.transfer heads b := fun heq => by
    obtain ⟨s, hs⟩ := IdMap.exists_get? ((h.keys b).mpr hb)
    rw [headOf, hs] at heq
    exact hne (hs.trans (congrArg some heq))
  unfold weight
  refine List.sum_lt_sum _ _ (fun c _ => ?_) ⟨b, hb, ?_⟩
  · exact ((h.sorted_head c).nodup.subperm (hle c)).length_le
  · refine IdSet.length_lt_of_subset (h.sorted_head b) ((h.insert hl hb).sorted_head b) (hle b) ?_
    rwa [hsame]

/-! ### Rounds with summaries -/

/-- The summaries take what is live at the end of a block to what is live at its head. -/
def Summarized (l : Linear) (summaries : IdMap Summary) : Prop :=
  ∀ b ∈ l.order, ∃ s, summaries.get? b = some s ∧
    ∀ {atEnd : IdSet}, atEnd.Pairwise (· < ·) → s.before atEnd = liveBeforeAll (l.code b) atEnd

/-- What comes of treating some blocks: the heads rise, by what has changed, and if nothing has, the
blocks were up to date and their ends are those that follow from the heads. -/
structure Swept (l : Linear) (bs : List BlockId) (s s' : Sweep) : Prop where
  rising : l.Rising s'.heads
  weight : l.weight s.heads ≤ l.weight s'.heads
  changed : s'.changed = true → s.changed = true ∨ l.weight s.heads < l.weight s'.heads
  still : s'.changed = false → s.changed = false ∧ s'.heads = s.heads
  head : s'.changed = false → ∀ b ∈ bs, s.heads.get? b = some (l.transfer s.heads b)
  atEnd : s'.changed = false → ∀ b ∈ bs, s'.ends.get? b = some (l.liveAtEnd s.heads b)

variable {summaries : IdMap Summary} {i : Instr}

theorem sweepBlock_swept (hsum : l.Summarized summaries) (hl : l.func.SuccsAgree) {s : Sweep}
    (h : l.Rising s.heads) (hb : b ∈ l.order) : l.Swept [b] s (l.sweepBlock summaries s b) := by
  obtain ⟨summary, hget, hbefore⟩ := hsum b hb
  have hhead : summary.before (l.liveAtEnd s.heads b) = l.transfer s.heads b :=
    hbefore (sorted_foldl_union _ _ List.Pairwise.nil)
  unfold sweepBlock
  simp only [hget, hhead]
  split_ifs with hsame
  · refine ⟨h, le_rfl, .inl, fun hs => ⟨hs, rfl⟩, fun _ => ?_, fun _ => ?_⟩
    · simpa using hsame
    · simp [IdMap.get?_insert]
  · have hlt := h.weight_lt hl hb hsame
    exact ⟨h.insert hl hb, hlt.le, fun _ => .inr hlt, (Bool.noConfusion ·),
      (Bool.noConfusion ·), (Bool.noConfusion ·)⟩

theorem Swept.cons {bs : List BlockId} {s s₁ s' : Sweep} (h : l.Swept [b] s s₁) (h' : l.Swept bs s₁ s')
    (hends : b ∉ bs → s'.ends.get? b = s₁.ends.get? b) : l.Swept (b :: bs) s s' := by
  have hstill : s'.changed = false → s₁.changed = false ∧ s₁.heads = s.heads := fun hs =>
    ⟨(h'.still hs).1, (h.still (h'.still hs).1).2⟩
  refine ⟨h'.rising, h.weight.trans h'.weight, fun hs => ?_, fun hs => ?_, fun hs c hc => ?_,
    fun hs c hc => ?_⟩
  · rcases h'.changed hs with hs | hlt
    · exact (h.changed hs).imp_right fun hlt => hlt.trans_le h'.weight
    · exact .inr (h.weight.trans_lt hlt)
  · exact ⟨(h.still (hstill hs).1).1, (h'.still hs).2.trans (hstill hs).2⟩
  · obtain ⟨hs₁, heq⟩ := hstill hs
    rcases List.mem_cons.mp hc with rfl | hc
    · exact h.head hs₁ c List.mem_cons_self
    · exact heq ▸ h'.head hs c hc
  · obtain ⟨hs₁, heq⟩ := hstill hs
    by_cases hcbs : c ∈ bs
    · exact heq ▸ h'.atEnd hs c hcbs
    · obtain rfl : c = b := (List.mem_cons.mp hc).resolve_right hcbs
      exact (hends hcbs).trans (h.atEnd hs₁ c List.mem_cons_self)

theorem ends_foldl_sweepBlock : ∀ (bs : List BlockId) (s : Sweep), b ∉ bs →
    (bs.foldl (l.sweepBlock summaries) s).ends.get? b = s.ends.get? b
  | [], _, _ => rfl
  | c :: bs, s, hb => by
    obtain ⟨hne, hb⟩ := not_or.mp (mt List.mem_cons.mpr hb)
    rw [List.foldl_cons, ends_foldl_sweepBlock bs _ hb]
    unfold sweepBlock
    cases summaries.get? c with
    | none => rfl
    | some summary =>
      dsimp only
      rw [IdMap.get?_insert, if_neg hne]
      split_ifs <;> rfl

/-- A round that changes no head finds every block up to date. -/
theorem foldl_swept (hsum : l.Summarized summaries) (hl : l.func.SuccsAgree) :
    ∀ (bs : List BlockId) {s : Sweep}, (∀ b ∈ bs, b ∈ l.order) → l.Rising s.heads →
    l.Swept bs s (bs.foldl (l.sweepBlock summaries) s)
  | [], s, _, h => ⟨h, le_rfl, .inl, (⟨·, rfl⟩), fun _ _ => (absurd · List.not_mem_nil),
    fun _ _ => (absurd · List.not_mem_nil)⟩
  | b :: bs, s, hbs, h => by
    have hb := sweepBlock_swept hsum hl h (hbs b List.mem_cons_self)
    exact hb.cons (foldl_swept hsum hl bs (fun c hc => hbs c (List.mem_cons_of_mem b hc)) hb.rising)
      (ends_foldl_sweepBlock bs _)

/-- Heads and ends that follow from each other. -/
structure Rested (l : Linear) (s : Sweep) : Prop where
  changed : s.changed = false
  rising : l.Rising s.heads
  head : ∀ b ∈ l.order, s.heads.get? b = some (l.transfer s.heads b)
  atEnd : ∀ b ∈ l.order, s.ends.get? b = some (l.liveAtEnd s.heads b)

theorem length_readIds (l : Linear) : l.readIds.length = (l.instrs.flatMap Instr.operands).length := by
  unfold readIds
  rw [List.length_flatMap, List.length_flatMap]
  simp only [List.length_map]

/-- What grows in every round that changes it, up to a bound, comes to rest. -/
theorem sweepAll_rests (hsum : l.Summarized summaries) (hl : l.func.SuccsAgree) :
    ∀ (rounds : Nat) {s : Sweep}, l.Rising s.heads → s.changed = true →
    l.order.length * l.readIds.length < rounds + l.weight s.heads →
    l.Rested (l.sweepAll summaries rounds s)
  | 0, s, h, _, hlt => absurd h.weight_le (by omega)
  | rounds + 1, s, h, hs, hlt => by
    rw [sweepAll, if_pos hs]
    have hround : l.Swept l.order.reverse { s with changed := false } (l.sweep summaries s) :=
      foldl_swept hsum hl l.order.reverse (fun b hb => List.mem_reverse.mp hb) h
    cases hnext : (l.sweep summaries s).changed with
    | true =>
      have hmore : l.weight s.heads < _ := (hround.changed hnext).resolve_left Bool.false_ne_true
      exact sweepAll_rests hsum hl rounds hround.rising hnext (by omega)
    | false =>
      have hrest : l.sweepAll summaries rounds (l.sweep summaries s) = l.sweep summaries s := by
        cases rounds with
        | zero => rfl
        | succ rounds => rw [sweepAll, if_neg (by simp [hnext])]
      have heq := (hround.still hnext).2
      rw [hrest]
      refine ⟨hnext, hround.rising, fun b hb => ?_, fun b hb => ?_⟩
      · exact heq ▸ hround.head hnext b (List.mem_reverse.mpr hb)
      · exact heq ▸ hround.atEnd hnext b (List.mem_reverse.mpr hb)

/-! ### The analysis -/

theorem foldlM_summarize {P : BlockId → Summary → Prop}
    (h : ∀ b, ∃ s, l.summarize b (l.code b) .empty = .ok s ∧ P b s) : ∀ (bs : List BlockId) (m : IdMap Summary),
    ∃ m', bs.foldlM (fun m b => return m.insert b (← l.summarize b (l.code b) .empty)) m =
        (.ok m' : Except Failure _) ∧
      (∀ b ∉ bs, m'.get? b = m.get? b) ∧ ∀ b ∈ bs, ∃ s, m'.get? b = some s ∧ P b s
  | [], m => ⟨m, rfl, fun _ _ => rfl, fun b hb => by cases hb⟩
  | c :: bs, m => by
    obtain ⟨s, hs, hP⟩ := h c
    obtain ⟨m', hm', hout, hin⟩ := foldlM_summarize h bs (m.insert c s)
    refine ⟨m', ?_, fun b hb => ?_, fun b hb => ?_⟩
    · rw [List.foldlM_cons, hs]
      exact hm'
    · obtain ⟨hne, hb⟩ := not_or.mp (mt List.mem_cons.mpr hb)
      rw [hout b hb, IdMap.get?_insert, if_neg hne]
    · by_cases hbs : b ∈ bs
      · exact hin b hbs
      · obtain rfl : b = c := (List.mem_cons.mp hb).resolve_right hbs
        exact ⟨s, by rw [hout b hbs, IdMap.get?_insert, if_pos rfl], hP⟩

/-- Every block of a function without phis is summarized. -/
theorem summaries_ok (hphi : ∀ b, ∀ i ∈ l.func.code b, i.isPhi = false) :
    ∃ summaries, l.summaries = .ok summaries ∧ l.Summarized summaries := by
  have hsummary : ∀ b, ∃ s, l.summarize b (l.code b) .empty = .ok s ∧
      ∀ {atEnd : IdSet}, atEnd.Pairwise (· < ·) → s.before atEnd = liveBeforeAll (l.code b) atEnd := by
    intro b
    obtain ⟨s, hok, hsorted, hmem⟩ :=
      summarize_ok (l := l) (b := b) .empty (hphi b) List.Pairwise.nil
    refine ⟨s, hok, fun {atEnd} hend => IdSet.eq_of_mem_iff (IdSet.sorted_union _ hsorted)
      (sorted_liveBeforeAll hend _) fun id => ?_⟩
    rw [hmem, Summary.mem_before]
    simp only [Summary.empty, List.not_mem_nil, false_or, not_false_eq_true, true_and]
    exact Iff.rfl
  obtain ⟨summaries, hok, -, hin⟩ := foldlM_summarize hsummary l.order []
  exact ⟨summaries, hok, hin⟩

/-- Heads that follow from each other, with nothing in them that is not live. -/
structure Settled (l : Linear) (heads : IdMap IdSet) : Prop where
  head : ∀ b ∈ l.order, heads.get? b = some (l.transfer heads b)
  live : ∀ b, ∀ id ∈ headOf heads b, l.func.LiveAt b (l.code b) id

theorem Settled.headOf_eq (h : l.Settled heads) (hb : b ∈ l.order) : headOf heads b = l.transfer heads b := by
  rw [headOf, h.head b hb, Option.getD_some]

/-- The analysis of a function without phis comes to rest, and the sets behind the instructions
are those that follow from the heads. -/
theorem liveness_ok (hphi : ∀ b, ∀ i ∈ l.func.code b, i.isPhi = false) (hl : l.func.SuccsAgree) :
    ∃ summaries heads, l.summaries = .ok summaries ∧
      (l.sweepAll summaries l.roundBound l.unswept).changed = false ∧
      l.liveness = .ok ⟨heads, l.order.flatMap fun b => liveBehindEach (l.liveAtEnd heads b) (l.code b)⟩ ∧
      l.Settled heads := by
  obtain ⟨summaries, hsum, hsummarized⟩ := summaries_ok hphi
  have hzero : l.weight l.emptySets = 0 := by
    unfold weight
    simp only [headOf_emptySets]
    simp
  have hrest : l.Rested (l.sweepAll summaries l.roundBound l.unswept) := by
    refine sweepAll_rests hsummarized hl l.roundBound (s := l.unswept) l.rising_emptySets rfl ?_
    change _ < _ + l.weight l.emptySets
    rw [hzero, length_readIds, roundBound]
    omega
  refine ⟨summaries, _, hsum, hrest.changed, ?_, ⟨hrest.head, hrest.rising.live⟩⟩
  have hends : ∀ b ∈ l.order, ((l.sweepAll summaries l.roundBound l.unswept).ends.get? b).getD [] =
      l.liveAtEnd (l.sweepAll summaries l.roundBound l.unswept).heads b := fun b hb => by
    rw [hrest.atEnd b hb]
    rfl
  unfold liveness
  rw [hsum]
  refine congrArg (fun after => Except.ok (Liveness.mk _ after)) (List.flatMap_congr fun b hb => ?_)
  rw [hends b hb]

theorem liveThrough_fst (after : IdSet) : ∀ code : List Instr,
    (liveThrough after code).1 = liveBeforeAll code after
  | [] => rfl
  | i :: code => congrArg (liveBefore i) (liveThrough_fst after code)

theorem liveBehindEach_cons (after : IdSet) (i : Instr) (code : List Instr) :
    liveBehindEach after (i :: code) = liveBeforeAll code after :: liveBehindEach after code := by
  rw [← liveThrough_fst]
  rfl

theorem length_liveBehindEach (after : IdSet) : ∀ code : List Instr,
    (liveBehindEach after code).length = code.length
  | [] => rfl
  | _ :: code => congrArg (· + 1) (length_liveBehindEach after code)

theorem mem_zip_liveBehindEach {after : IdSet} {rest : List Instr} : ∀ done : List Instr,
    (i, liveBeforeAll rest after) ∈ (done ++ i :: rest).zip (liveBehindEach after (done ++ i :: rest))
  | [] => by
    rw [List.nil_append, liveBehindEach_cons]
    exact List.mem_cons_self
  | _ :: done => List.mem_cons_of_mem _ (mem_zip_liveBehindEach done)

/-- Every instruction on the line stands with what is live behind it. -/
theorem mem_zip_live {done : List Instr} {rest : List Instr} (hb : b ∈ l.order)
    (hcode : l.code b = done ++ i :: rest) :
    (i, liveBeforeAll rest (l.liveAtEnd heads b)) ∈
      l.instrs.zip (l.order.flatMap fun b => liveBehindEach (l.liveAtEnd heads b) (l.code b)) := by
  refine mem_zip_flatMap (fun b => length_liveBehindEach _ _) (a := b) ?_ hb
  rw [hcode]
  exact mem_zip_liveBehindEach done

theorem of_mem_zip_liveBehindEach {after live : IdSet} : ∀ {code : List Instr},
    (i, live) ∈ code.zip (liveBehindEach after code) →
    ∃ done rest, code = done ++ i :: rest ∧ live = liveBeforeAll rest after
  | [], h => by cases h
  | j :: code, h => by
    rw [liveBehindEach_cons] at h
    rcases List.mem_cons.mp h with h | h
    · obtain ⟨rfl, rfl⟩ := Prod.mk.inj h
      exact ⟨[], code, rfl, rfl⟩
    · obtain ⟨done, rest, rfl, rfl⟩ := of_mem_zip_liveBehindEach h
      exact ⟨j :: done, rest, rfl, rfl⟩

/-- What stands with an instruction on the line is what is live behind it. -/
theorem of_mem_zip_live {live : IdSet}
    (h : (i, live) ∈ l.instrs.zip
      (l.order.flatMap fun b => liveBehindEach (l.liveAtEnd heads b) (l.code b))) :
    ∃ b ∈ l.order, ∃ done rest, l.code b = done ++ i :: rest ∧
      live = liveBeforeAll rest (l.liveAtEnd heads b) := by
  obtain ⟨b, hb, hp⟩ := of_mem_zip_flatMap (fun b => length_liveBehindEach _ _) h
  obtain ⟨done, rest, hcode, hlive⟩ := of_mem_zip_liveBehindEach hp
  exact ⟨b, hb, done, rest, hcode, hlive⟩

end Linear

namespace Func

variable {f : Func}

/-- Where a value is live, every path has written it. -/
theorem Strict.known_of_liveAt (hs : f.Strict) (hphi : ∀ b, ∀ i ∈ f.code b, i.isPhi = false)
    {b : BlockId} {rest : List Instr} {id : Nat} (h : f.LiveAt b rest id) :
    ∀ (done : List Instr) {l : List BlockId}, f.Path b l → f.code b = done ++ rest → f.Known l done id := by
  induction h with
  | read hv =>
    intro done l hl hcode
    exact hs.use hl hcode (hphi _ _ (by rw [hcode]; simp)) _ hv
  | @past b i rest id hne _ ih =>
    intro done l hl hcode
    rcases ih (done ++ [i]) hl (by rw [hcode]; simp) with hid | hid
    · rw [definedIds_append, List.mem_append] at hid
      rcases hid with hid | hid
      · exact .inl hid
      · obtain ⟨j, hj, t, ht, htid⟩ := Ssa.mem_definedIds.mp hid
        obtain rfl := List.mem_singleton.mp hj
        exact absurd htid (hne t ht)
    · exact .inr hid
  | @next b c id hc _ ih =>
    intro done l hl hcode
    rcases ih [] (.step hl hc) rfl with hid | ⟨a, ha, hid⟩
    · cases hid
    · rcases List.mem_cons.mp ha with rfl | ha
      · rw [hcode, List.append_nil] at hid
        exact .inl hid
      · exact .inr ⟨a, ha, hid⟩

/-- What a path has defined is defined by an instruction on the line. -/
theorem LaidOut.mem_definedIds {l : Linear} (h : l.func.LaidOut l.order) {b : BlockId}
    {earlier : List BlockId} (hpath : l.func.Path b earlier) {done rest : List Instr}
    (hcode : l.func.code b = done ++ rest) {id : Nat} (hid : l.func.Known earlier done id) :
    id ∈ definedIds l.instrs := by
  obtain ⟨hb, hearlier⟩ := h.mem_of_path hpath
  rcases hid with hid | ⟨a, ha, hid⟩
  · refine mem_definedIds_flatMap.mpr ⟨b, hb, ?_⟩
    show id ∈ definedIds (l.func.code b)
    rw [hcode, definedIds_append]
    exact List.mem_append_left _ hid
  · exact mem_definedIds_flatMap.mpr ⟨a, hearlier a ha, hid⟩

end Func
end Chordal.Ssa
