/-
# Parallel copies in sequence

The ordered copies have the effect of the parallel copy: every target ends up
with what its source held at the beginning, and no other value in use changes.
A round either makes a copy that no other copy waits for, or saves a target so
that its copy can go next. So the copies that are pending and those that are
blocked, counted together, become fewer in every round.

Key definitions: `Copies.run`, `Copies.Performs`, `Copies.Realizes`, `Copies.Sequenced`.
Key theorems: `Copies.sequenced_sequenceFresh`, `Copies.realizes_sequenceFresh`,
`Copies.sequence_eq_sequenceFresh`.
-/
import Mathlib
import Chordal.Proofs.Ssa.Steps
import Chordal.Ssa.Copies

namespace Chordal.Ssa
namespace Copies

/-- Makes copies one after another; each reads a value that is defined. -/
def run : List Copy → Store → Option Store
  | [], store => some store
  | c :: rest, store => (store.get? c.source.id).bind fun w => run rest (store.write c.target w)

/-- Copies that have the effect of a parallel copy, and change nothing else below `bound`. -/
def Performs (bound : Nat) (copies moves : List Copy) : Prop :=
  ∀ store : Store, (∀ c ∈ copies, ∃ w, store.get? c.source.id = some w) →
    ∃ store', run moves store = some store' ∧
      (∀ c ∈ copies, store'.get? c.target.id = store.get? c.source.id) ∧
      ∀ id, id < bound → (∀ c ∈ copies, c.target.id ≠ id) → store'.get? id = store.get? id

/-- Copies that read only what is known or what a copy before them wrote. -/
def Reads (known : Nat → Prop) : List Copy → Prop
  | [] => True
  | c :: rest => known c.source.id ∧ Reads (fun id => known id ∨ id = c.target.id) rest

/-- Copies that take the place of a parallel copy: they have its effect, they need
no more than its sources, and they write all its targets. -/
structure Realizes (bound : Nat) (copies moves : List Copy) : Prop where
  performs : Performs bound copies moves
  reads : ∀ known : Nat → Prop, (∀ c ∈ copies, known c.source.id) → Reads known moves
  writes : ∀ c ∈ copies, ∃ m ∈ moves, m.target.id = c.target.id

variable {copies moves pending : List Copy} {c : Copy} {saved : Value} {fresh : Nat}

theorem Performs.mono {bound bound' : Nat} (h : Performs bound' copies moves) (hle : bound ≤ bound') :
    Performs bound copies moves := by
  intro store hdef
  obtain ⟨store', hrun, hto, hkeep⟩ := h store hdef
  exact ⟨store', hrun, hto, fun id hid => hkeep id (hid.trans_le hle)⟩

theorem Realizes.mono {bound bound' : Nat} (h : Realizes bound' copies moves) (hle : bound ≤ bound') :
    Realizes bound copies moves := ⟨h.performs.mono hle, h.reads, h.writes⟩

theorem realizes_nil (bound : Nat) : Realizes bound [] [] :=
  ⟨fun store _ => ⟨store, rfl, by simp, fun _ _ _ => rfl⟩, fun _ _ => trivial, by simp⟩

/-! ### Copies that wait -/

/-- The copies that have to wait for another. -/
def blocked (pending : List Copy) : List Copy := pending.filter fun c => !isReady pending c

theorem isReady_iff :
    isReady pending c = true ↔ ∀ d ∈ pending, d.source.id = c.target.id → d = c := by
  unfold isReady
  rw [Bool.not_eq_true', List.any_eq_false]
  simp only [Bool.and_eq_true, beq_iff_eq, bne_iff_ne, ne_eq, not_and, not_not]

/-- A copy that is made blocks no other any more. -/
theorem length_blocked_erase (pending : List Copy) (c : Copy) :
    (blocked (pending.erase c)).length ≤ (blocked pending).length := by
  have hsub : (blocked (pending.erase c)).Sublist
      ((pending.erase c).filter fun d => !isReady pending d) := by
    unfold blocked
    refine List.monotone_filter_right _ fun d hd => ?_
    rw [Bool.not_eq_true', Bool.eq_false_iff] at hd ⊢
    exact fun hr => hd (isReady_iff.mpr fun e he => isReady_iff.mp hr e (List.mem_of_mem_erase he))
  exact (hsub.trans ((List.erase_sublist (a := c) (l := pending)).filter _)).length_le

/-! ### Saved targets -/

theorem map_target_redirect (saved temporary : Value) (pending : List Copy) :
    (redirect saved temporary pending).map Copy.target = pending.map Copy.target := by
  unfold redirect
  rw [List.map_map]
  refine List.map_congr_left fun d _ => ?_
  simp only [Function.comp_apply]
  split_ifs <;> rfl

theorem mem_redirect {temporary : Value} {d : Copy} :
    d ∈ redirect saved temporary pending ↔
      (∃ c ∈ pending, c.source.id = saved.id ∧ d = ⟨c.target, temporary⟩) ∨
        d ∈ pending ∧ d.source.id ≠ saved.id := by
  unfold redirect
  rw [List.mem_map]
  constructor
  · rintro ⟨c, hc, rfl⟩
    by_cases h : c.source.id = saved.id
    · rw [if_pos h]
      exact .inl ⟨c, hc, h, rfl⟩
    · rw [if_neg h]
      exact .inr ⟨hc, h⟩
  · rintro (⟨c, hc, h, rfl⟩ | ⟨hd, h⟩)
    · exact ⟨c, hc, by rw [if_pos h]⟩
    · exact ⟨d, hd, by rw [if_neg h]⟩

/-- After a target is saved its copy does not have to wait. -/
theorem length_blocked_redirect {first : Copy} {others : List Copy} (temporary : Value)
    (hwait : ∀ c ∈ first :: others, isReady (first :: others) c = false)
    (htmp : temporary.id ≠ first.target.id) :
    (blocked (redirect first.target temporary (first :: others))).length <
      (blocked (first :: others)).length := by
  have hall : blocked (first :: others) = first :: others := by
    unfold blocked
    rw [List.filter_eq_self]
    intro c hc
    rw [hwait c hc]
    rfl
  have hlen : (first :: others).length =
      (redirect first.target temporary (first :: others)).length := by
    unfold redirect
    rw [List.length_map]
  rw [hall, hlen]
  unfold blocked
  rw [List.length_filter_lt_length_iff_exists]
  refine ⟨_, List.mem_map_of_mem List.mem_cons_self, ?_⟩
  rw [Bool.not_eq_true', Bool.not_eq_false, isReady_iff]
  intro d hd hread
  -- nothing reads the saved target any more
  have htarget : ((if first.source.id = first.target.id then { first with source := temporary }
      else first : Copy)).target = first.target := by split_ifs <;> rfl
  rw [htarget] at hread
  rcases mem_redirect.mp hd with ⟨c, _, _, rfl⟩ | ⟨_, hne⟩
  · exact absurd hread htmp
  · exact absurd hread hne

/-! ### Rounds -/

/-- What a round finds: targets that differ, and numbers in use below `fresh`. -/
structure Pending (fresh : Nat) (copies : List Copy) : Prop where
  nodup : (copies.map fun c => c.target.id).Nodup
  target_lt : ∀ c ∈ copies, c.target.id < fresh
  source_lt : ∀ c ∈ copies, c.source.id < fresh

theorem Pending.mono {fresh' : Nat} (h : Pending fresh copies) (hle : fresh ≤ fresh') :
    Pending fresh' copies :=
  ⟨h.nodup, fun c hc => (h.target_lt c hc).trans_le hle, fun c hc => (h.source_lt c hc).trans_le hle⟩

theorem Pending.eq_of_target (h : Pending fresh copies) {d : Copy} (hc : c ∈ copies)
    (hd : d ∈ copies) (he : c.target.id = d.target.id) : c = d :=
  List.inj_on_of_nodup_map h.nodup hc hd he

theorem Pending.erase (h : Pending fresh copies) (c : Copy) :
    Pending fresh (copies.erase c) where
  nodup := h.nodup.sublist ((List.erase_sublist (a := c) (l := copies)).map _)
  target_lt d hd := h.target_lt d (List.mem_of_mem_erase hd)
  source_lt d hd := h.source_lt d (List.mem_of_mem_erase hd)

theorem Pending.redirect (h : Pending fresh copies) (ty : Ty) :
    Pending (fresh + 1) (redirect saved ⟨fresh, ty⟩ copies) where
  nodup := by
    have hmap := congrArg (List.map Value.id) (map_target_redirect saved ⟨fresh, ty⟩ copies)
    rw [List.map_map, List.map_map] at hmap
    exact hmap ▸ h.nodup
  target_lt d hd := by
    rcases mem_redirect.mp hd with ⟨c, hc, _, rfl⟩ | ⟨hd, _⟩
    · exact Nat.lt_succ_of_lt (h.target_lt c hc)
    · exact Nat.lt_succ_of_lt (h.target_lt d hd)
  source_lt d hd := by
    rcases mem_redirect.mp hd with ⟨c, hc, _, rfl⟩ | ⟨hd, _⟩
    · exact Nat.lt_succ_self fresh
    · exact Nat.lt_succ_of_lt (h.source_lt d hd)

/-- A copy that no other reads the target of may go first. -/
theorem Performs.ready (hp : Pending fresh copies) (hc : c ∈ copies)
    (hready : isReady copies c = true) (h : Performs fresh (copies.erase c) moves) :
    Performs fresh copies (c :: moves) := by
  intro store hdef
  obtain ⟨w, hw⟩ := hdef c hc
  have hnd : copies.Nodup := hp.nodup.of_map _
  have hread : ∀ d ∈ copies.erase c, (store.write c.target w).get? d.source.id =
      store.get? d.source.id := by
    intro d hd
    rw [Store.get?_write, if_neg]
    intro he
    have hdc := isReady_iff.mp hready d (List.mem_of_mem_erase hd) he
    exact hnd.not_mem_erase (hdc ▸ hd)
  obtain ⟨store', hrun, hto, hkeep⟩ := h (store.write c.target w) fun d hd => by
    rw [hread d hd]
    exact hdef d (List.mem_of_mem_erase hd)
  refine ⟨store', by rw [run, hw, Option.bind_some, hrun], fun d hd => ?_, fun id hid hout => ?_⟩
  · by_cases hdc : d = c
    · subst hdc
      rw [hkeep _ (hp.target_lt d hd), Store.get?_write, if_pos rfl, hw]
      intro e he heq
      have hed := hp.eq_of_target (List.mem_of_mem_erase he) hd heq
      exact hnd.not_mem_erase (hed ▸ he)
    · have hd' : d ∈ copies.erase c := (List.mem_erase_of_ne hdc).mpr hd
      rw [hto d hd', hread d hd']
  · rw [hkeep id hid fun d hd => hout d (List.mem_of_mem_erase hd), Store.get?_write,
      if_neg (hout c hc).symm]

/-- A value that is read may be saved in a fresh one first. -/
theorem Performs.save (ty : Ty) (hp : Pending fresh copies)
    (hread : ∃ c ∈ copies, c.source.id = saved.id)
    (h : Performs (fresh + 1) (redirect saved ⟨fresh, ty⟩ copies) moves) :
    Performs fresh copies (⟨⟨fresh, ty⟩, saved⟩ :: moves) := by
  intro store hdef
  obtain ⟨reader, hreader, hid⟩ := hread
  obtain ⟨w, hw⟩ := hdef reader hreader
  rw [hid] at hw
  have hold : ∀ id, id < fresh → (store.write ⟨fresh, ty⟩ w).get? id = store.get? id :=
    Store.keeps_write store _ w le_rfl
  have hnew : (store.write ⟨fresh, ty⟩ w).get? fresh = some w := by
    rw [Store.get?_write, if_pos rfl]
  obtain ⟨store', hrun, hto, hkeep⟩ := h (store.write ⟨fresh, ty⟩ w) fun d hd => by
    rcases mem_redirect.mp hd with ⟨c, hc, _, rfl⟩ | ⟨hd, _⟩
    · exact ⟨w, hnew⟩
    · rw [hold _ (hp.source_lt d hd)]
      exact hdef d hd
  refine ⟨store', by rw [run, hw, Option.bind_some, hrun], fun c hc => ?_, fun id hlt hout => ?_⟩
  · by_cases hs : c.source.id = saved.id
    · have hc' := hto ⟨c.target, ⟨fresh, ty⟩⟩ (mem_redirect.mpr (.inl ⟨c, hc, hs, rfl⟩))
      rw [hc', hnew, hs, hw]
    · rw [hto c (mem_redirect.mpr (.inr ⟨hc, hs⟩)), hold _ (hp.source_lt c hc)]
  · rw [hkeep id (Nat.lt_succ_of_lt hlt) ?_, hold id hlt]
    intro d hd
    rcases mem_redirect.mp hd with ⟨c, hc, _, rfl⟩ | ⟨hd, _⟩
    · exact hout c hc
    · exact hout d hd

theorem Realizes.ready (hp : Pending fresh copies) (hc : c ∈ copies)
    (hready : isReady copies c = true) (h : Realizes fresh (copies.erase c) moves) :
    Realizes fresh copies (c :: moves) where
  performs := h.performs.ready hp hc hready
  reads known hk :=
    ⟨hk c hc, h.reads _ fun d hd => .inl (hk d (List.mem_of_mem_erase hd))⟩
  writes d hd := by
    by_cases hdc : d = c
    · exact ⟨c, List.mem_cons_self, congrArg (·.target.id) hdc.symm⟩
    · obtain ⟨m, hm, he⟩ := h.writes d ((List.mem_erase_of_ne hdc).mpr hd)
      exact ⟨m, List.mem_cons_of_mem _ hm, he⟩

theorem Realizes.save (ty : Ty) (hp : Pending fresh copies)
    (hread : ∃ c ∈ copies, c.source.id = saved.id)
    (h : Realizes (fresh + 1) (redirect saved ⟨fresh, ty⟩ copies) moves) :
    Realizes fresh copies (⟨⟨fresh, ty⟩, saved⟩ :: moves) where
  performs := h.performs.save ty hp hread
  reads known hk := by
    obtain ⟨reader, hreader, hid⟩ := hread
    refine ⟨hid ▸ hk reader hreader, h.reads _ fun d hd => ?_⟩
    rcases mem_redirect.mp hd with ⟨c, _, _, rfl⟩ | ⟨hd, _⟩
    · exact .inr rfl
    · exact .inl (hk d hd)
  writes c hc := by
    have hmem : ∃ d ∈ redirect saved ⟨fresh, ty⟩ copies, d.target = c.target := by
      by_cases hs : c.source.id = saved.id
      · exact ⟨_, mem_redirect.mpr (.inl ⟨c, hc, hs, rfl⟩), rfl⟩
      · exact ⟨c, mem_redirect.mpr (.inr ⟨hc, hs⟩), rfl⟩
    obtain ⟨d, hd, hdc⟩ := hmem
    obtain ⟨m, hm, he⟩ := h.writes d hd
    exact ⟨m, List.mem_cons_of_mem _ hm, he.trans (congrArg Value.id hdc)⟩

/-- A copy that has to wait does so for another, which reads its target. -/
theorem exists_reader (hwait : isReady pending c = false) :
    ∃ d ∈ pending, d.source.id = c.target.id ∧ d ≠ c := by
  by_contra hno
  push Not at hno
  rw [← Bool.not_eq_true, isReady_iff] at hwait
  exact hwait hno

/-- A round that makes a copy. -/
theorem sequenceIn_of_ready (next : Nat → Nat) (rounds fresh : Nat)
    (h : pending.find? (isReady pending) = some c) :
    sequenceIn next (rounds + 1) fresh pending =
      (c :: (sequenceIn next rounds fresh (pending.erase c)).1,
        (sequenceIn next rounds fresh (pending.erase c)).2) := by
  cases pending with
  | nil => cases h
  | cons first others => simp only [sequenceIn, h]

/-- A round that saves a target. -/
theorem sequenceIn_of_wait {first : Copy} {others : List Copy} (next : Nat → Nat) (rounds fresh : Nat)
    (h : (first :: others).find? (isReady (first :: others)) = none) :
    sequenceIn next (rounds + 1) fresh (first :: others) =
      (⟨⟨fresh, first.target.ty⟩, first.target⟩ :: (sequenceIn next rounds (next fresh)
          (redirect first.target ⟨fresh, first.target.ty⟩ (first :: others))).1,
        (sequenceIn next rounds (next fresh)
          (redirect first.target ⟨fresh, first.target.ty⟩ (first :: others))).2) := by
  simp only [sequenceIn, h]

/-- The rounds of the loop, with no bound on their number, until no copy is pending. -/
inductive Sequenced : (fresh : Nat) → (pending moves : List Copy) → (next : Nat) → Prop
  | done (fresh : Nat) : Sequenced fresh [] [] fresh
  | copy {fresh next : Nat} {pending moves : List Copy} {c : Copy} :
    pending.find? (isReady pending) = some c → Sequenced fresh (pending.erase c) moves next →
      Sequenced fresh pending (c :: moves) next
  | save {fresh next : Nat} {first : Copy} {others moves : List Copy} :
    (∀ c ∈ first :: others, isReady (first :: others) c = false) →
      Sequenced (fresh + 1) (redirect first.target ⟨fresh, first.target.ty⟩ (first :: others)) moves next →
      Sequenced fresh (first :: others) (⟨⟨fresh, first.target.ty⟩, first.target⟩ :: moves) next

/-- With a round for each copy that is pending and one more for each that is blocked, the loop
comes to its end. -/
theorem sequenced_sequenceIn : ∀ (rounds fresh : Nat) (pending : List Copy), Pending fresh pending →
    pending.length + (blocked pending).length ≤ rounds →
    Sequenced fresh pending (sequenceIn Nat.succ rounds fresh pending).1
      (sequenceIn Nat.succ rounds fresh pending).2 := by
  intro rounds
  induction rounds with
  | zero =>
    intro fresh pending _ hrounds
    obtain rfl : pending = [] := List.length_eq_zero_iff.mp (by omega)
    exact .done fresh
  | succ rounds ih =>
    intro fresh pending hp hrounds
    cases pending with
    | nil => exact .done fresh
    | cons first others =>
      cases hfind : (first :: others).find? (isReady (first :: others)) with
      | some c =>
        have hfewer := length_blocked_erase (first :: others) c
        have hlen := List.length_erase_of_mem (List.mem_of_find?_eq_some hfind)
        have hpos : 0 < (first :: others).length := Nat.succ_pos _
        rw [sequenceIn_of_ready _ rounds fresh hfind]
        exact .copy hfind (ih fresh _ (hp.erase c) (by omega))
      | none =>
        have hwait : ∀ c ∈ first :: others, isReady (first :: others) c = false := fun c hc =>
          Bool.not_eq_true _ ▸ List.find?_eq_none.mp hfind c hc
        have hlt := hp.target_lt first List.mem_cons_self
        have hfewer := length_blocked_redirect ⟨fresh, first.target.ty⟩ hwait (Nat.ne_of_gt hlt)
        have hlen : (redirect first.target ⟨fresh, first.target.ty⟩ (first :: others)).length =
            (first :: others).length := List.length_map _
        rw [sequenceIn_of_wait _ rounds fresh hfind]
        exact .save hwait (ih (fresh + 1) _ (hp.redirect first.target.ty) (by omega))

/-- The bound on the rounds does not cut the loop short. -/
theorem sequenced_sequenceFresh (h : Pending fresh copies) :
    Sequenced fresh copies (sequenceFresh fresh copies).1 (sequenceFresh fresh copies).2 := by
  have hle : (blocked copies).length ≤ copies.length := List.length_filter_le _ _
  exact sequenced_sequenceIn _ fresh copies h (by omega)

theorem Sequenced.le {next : Nat} (h : Sequenced fresh pending moves next) : fresh ≤ next := by
  induction h with
  | done => exact le_rfl
  | copy _ _ ih => exact ih
  | save _ _ ih => exact (Nat.le_succ _).trans ih

theorem Sequenced.realizes {next : Nat} (h : Sequenced fresh pending moves next)
    (hp : Pending fresh pending) : Realizes fresh pending moves := by
  induction h with
  | done fresh => exact realizes_nil fresh
  | copy hfind _ ih =>
    exact (ih (hp.erase _)).ready hp (List.mem_of_find?_eq_some hfind) (List.find?_some hfind)
  | save hwait _ ih =>
    obtain ⟨reader, hreader, hread, -⟩ := exists_reader (hwait _ List.mem_cons_self)
    exact (ih (hp.redirect _)).save _ hp ⟨reader, hreader, hread⟩

/-- The ordered copies take the place of the parallel copy. -/
theorem realizes_sequenceFresh (h : Pending fresh copies) :
    Realizes fresh copies (sequenceFresh fresh copies).1 := (sequenced_sequenceFresh h).realizes h

/-! ### The numbers in use behind the copies -/

theorem le_sequenceIn : ∀ (rounds fresh : Nat) (pending : List Copy),
    fresh ≤ (sequenceIn Nat.succ rounds fresh pending).2 := by
  intro rounds
  induction rounds with
  | zero => exact fun fresh _ => le_rfl
  | succ rounds ih =>
    intro fresh pending
    cases pending with
    | nil => exact le_rfl
    | cons first others =>
      cases hfind : (first :: others).find? (isReady (first :: others)) with
      | some c =>
        rw [sequenceIn_of_ready _ rounds fresh hfind]
        exact ih fresh _
      | none =>
        rw [sequenceIn_of_wait _ rounds fresh hfind]
        exact (Nat.le_succ fresh).trans (ih (fresh + 1) _)

theorem le_sequenceFresh (fresh : Nat) (copies : List Copy) : fresh ≤ (sequenceFresh fresh copies).2 :=
  le_sequenceIn _ fresh copies

end Copies
end Chordal.Ssa
