/-
# How a flow graph grows

Construction only adds to a flow graph: blocks, instructions at the end of the
block that is being written, phis at the head of a block that is just begun, and
entries to phis. So what a builder has written stays, up to further entries of
phis, and a block that has its terminator gets no more instructions.

`Builder.Grows` says this between two builders, and every operation of the
builder is an instance of it.

Key definitions: `Instr.Widens`, `CodeGrows`, `Builder.Grows`, `Builder.Unbegun`,
`Builder.edgesTo`.
Key theorems: `Builder.Grows.trans`, `Builder.Grows.fetch`, `Builder.Grows.phis_eq`.
-/
import Mathlib
import Chordal.Proofs.Finite
import Chordal.Proofs.Ssa.Blocks
import Chordal.Ssa.Construction

namespace Chordal.Ssa

/-! ### Code that grows -/

/-- The instruction, or the same phi with more entries. -/
inductive Instr.Widens : Instr → Instr → Prop
  | same (i : Instr) : Widens i i
  | phi (target : Value) (entries more : List (Value × BlockId)) :
    Widens (.phi target entries) (.phi target (entries ++ more))

namespace Instr.Widens

theorem trans {i j k : Instr} (h : Widens i j) (h' : Widens j k) : Widens i k := by
  cases h with
  | same => exact h'
  | phi t es more =>
    cases h' with
    | same => exact .phi t es more
    | phi _ _ more' =>
      rw [List.append_assoc]
      exact .phi t es (more ++ more')

theorem isPhi_eq {i j : Instr} (h : Widens i j) : j.isPhi = i.isPhi := by cases h <;> rfl

theorem isTerminator_eq {i j : Instr} (h : Widens i j) : j.isTerminator = i.isTerminator := by
  cases h <;> rfl

theorem eq_of_not_phi {i j : Instr} (h : Widens i j) (hi : i.isPhi = false) : j = i := by
  cases h with
  | same => rfl
  | phi => cases hi

end Instr.Widens

/-- Whether code holds a terminator. -/
def ended (c : List Instr) : Bool := c.any Instr.isTerminator

theorem ended_append (c d : List Instr) : ended (c ++ d) = (ended c || ended d) := List.any_append

/-- Code whose phis may have got more entries. -/
abbrev Widened (c d : List Instr) : Prop := List.Forall₂ Instr.Widens c d

namespace Widened

theorem refl (c : List Instr) : Widened c c := List.forall₂_same.mpr fun i _ => .same i

theorem trans : ∀ {c d e : List Instr}, Widened c d → Widened d e → Widened c e
  | _, _, _, .nil, .nil => .nil
  | _, _, _, .cons h hs, .cons h' hs' => .cons (h.trans h') (trans hs hs')

theorem ended_eq : ∀ {c d : List Instr}, Widened c d → ended d = ended c
  | _, _, .nil => rfl
  | _, _, .cons h hs => by
    have ih := ended_eq hs
    unfold ended at ih ⊢
    rw [List.any_cons, List.any_cons, h.isTerminator_eq, ih]

theorem isPhi_of_mem : ∀ {c d : List Instr}, Widened c d → ∀ {p : Bool},
    (∀ i ∈ c, i.isPhi = p) → ∀ i ∈ d, i.isPhi = p
  | _, _, .nil, _, _, i, hi => by cases hi
  | _, _, .cons h hs, p, hp, i, hi => by
    rcases List.mem_cons.mp hi with rfl | hi
    · rw [h.isPhi_eq]
      exact hp _ List.mem_cons_self
    · exact isPhi_of_mem hs (fun j hj => hp j (List.mem_cons_of_mem _ hj)) i hi

theorem append {c c' d d' : List Instr} (h : Widened c d) (h' : Widened c' d') :
    Widened (c ++ c') (d ++ d') := List.rel_append h h'

/-- Code that is wider than two pieces falls into two wider pieces. -/
theorem split {c c' d : List Instr} (h : Widened (c ++ c') d) :
    ∃ e e', d = e ++ e' ∧ Widened c e ∧ Widened c' e' := by
  refine ⟨d.take c.length, d.drop c.length, (List.take_append_drop _ _).symm, ?_, ?_⟩
  · simpa using List.forall₂_take c.length h
  · simpa using List.forall₂_drop c.length h

end Widened

/-- Code grows: its phis may get more entries, and more code may follow, if it
does not hold a terminator. No phi follows if the phis are fixed. -/
def CodeGrows (fixed : Prop) (c c' : List Instr) : Prop :=
  ∃ d tail, c' = d ++ tail ∧ Widened c d ∧
    (fixed → ∀ i ∈ tail, i.isPhi = false) ∧ (ended c = true → tail = [])

namespace CodeGrows

theorem refl (fixed : Prop) (c : List Instr) : CodeGrows fixed c c :=
  ⟨c, [], (List.append_nil c).symm, .refl c, by simp, by simp⟩

variable {fixed : Prop} {c c' : List Instr}

theorem of_eq (h : c' = c) : CodeGrows fixed c c' :=
  h ▸ refl fixed c

theorem of_widened (h : Widened c c') : CodeGrows fixed c c' :=
  ⟨c', [], (List.append_nil c').symm, h, by simp, by simp⟩

theorem append (c tail : List Instr) (hp : fixed → ∀ i ∈ tail, i.isPhi = false)
    (he : ended c = false) : CodeGrows fixed c (c ++ tail) :=
  ⟨c, tail, rfl, .refl c, hp, fun h => by rw [he] at h; cases h⟩

theorem ended_mono (h : CodeGrows fixed c c') (he : ended c = true) : ended c' = true := by
  obtain ⟨d, tail, rfl, hd, -, -⟩ := h
  rw [ended_append, hd.ended_eq, he, Bool.true_or]

theorem trans {fixed' : Prop} {c'' : List Instr} (h : CodeGrows fixed c c')
    (h' : CodeGrows fixed' c' c'') (hf : fixed → fixed') : CodeGrows fixed c c'' := by
  have hend : ended c = true → ended c' = true := h.ended_mono
  obtain ⟨d, tail, rfl, hd, hp, he⟩ := h
  obtain ⟨d', tail', rfl, hd', hp', he'⟩ := h'
  obtain ⟨d₁, tail₁, rfl, h₁, h₂⟩ := hd'.split
  refine ⟨d₁, tail₁ ++ tail', List.append_assoc .., hd.trans h₁, fun hfix i hi => ?_, fun hc => ?_⟩
  · rcases List.mem_append.mp hi with hi | hi
    · exact h₂.isPhi_of_mem (hp hfix) i hi
    · exact hp' (hf hfix) i hi
  · have ht := he hc
    subst ht
    cases h₂
    rw [he' (hend hc)]
    rfl

end CodeGrows

/-! ### Builders that grow -/

namespace Builder

/-- The number of blocks. -/
abbrev size (s : Builder) : Nat := s.func.blocks.size

/-- The number of values. -/
abbrev count (s : Builder) : Nat := s.func.valueCount

/-- The instructions of a block. -/
abbrev code (s : Builder) (b : BlockId) : List Instr := s.func.code b

/-- The edges that wait for a block. -/
def edgesTo (s : Builder) (b : BlockId) : List Edge := s.pending.filter fun e => e.target == b

/-- The block is the one that is being written, or is written. -/
def Begun (s : Builder) (b : BlockId) : Prop := s.current = some b ∨ ended (s.code b) = true

/-- The block is there, and nothing is in it. -/
structure Unbegun (s : Builder) (b : BlockId) : Prop where
  lt : b < s.size
  code : s.code b = []
  current : s.current ≠ some b

/-- What a builder has written is there later. -/
structure Grows (s s' : Builder) : Prop where
  head : s'.func.head = s.func.head
  size_le : s.size ≤ s'.size
  count_le : s.count ≤ s'.count
  code : ∀ b, CodeGrows (s.Begun b) (s.code b) (s'.code b)
  begun : ∀ b, s.Begun b → s'.Begun b

namespace Grows

variable {s s' s'' : Builder}

theorem refl (s : Builder) : Grows s s := ⟨rfl, le_rfl, le_rfl, fun _ => .refl _ _, fun _ h => h⟩

theorem trans (h : Grows s s') (h' : Grows s' s'') : Grows s s'' :=
  ⟨h'.head.trans h.head, h.size_le.trans h'.size_le, h.count_le.trans h'.count_le,
    fun b => (h.code b).trans (h'.code b) (h.begun b), fun b hb => h'.begun b (h.begun b hb)⟩

/-- The same code, and the same block is being written. -/
theorem of_eq (hhead : s'.func.head = s.func.head) (hsize : s.size ≤ s'.size) (hcount : s.count ≤ s'.count)
    (hcode : ∀ b, s'.code b = s.code b) (hcur : s'.current = s.current) : Grows s s' := by
  refine ⟨hhead, hsize, hcount, fun b => .of_eq (hcode b), fun b hb => ?_⟩
  unfold Begun
  rwa [hcur, hcode]

/-- Code is appended to the block that is being written. -/
theorem of_append {b : BlockId} {tail : List Instr} (hhead : s'.func.head = s.func.head)
    (hcur : s.current = some b) (hb : ended (s.code b) = false) (hsize : s.size ≤ s'.size) (hcount : s.count ≤ s'.count)
    (hcode : ∀ c, s'.code c = if c = b then s.code b ++ tail else s.code c)
    (htail : ∀ i ∈ tail, i.isPhi = false) (hbegun : s'.current = some b ∨ ended tail = true) :
    Grows s s' := by
  refine ⟨hhead, hsize, hcount, fun c => ?_, fun c hc => ?_⟩
  · rw [hcode]
    split_ifs with h
    · subst h
      exact .append _ _ (fun _ => htail) hb
    · exact .refl _ _
  · by_cases h : c = b
    · subst h
      rcases hbegun with h | h
      · exact Or.inl h
      · right
        rw [hcode, if_pos rfl, ended_append, h, Bool.or_true]
    · rcases hc with hc | hc
      · rw [hcur] at hc
        exact absurd (Option.some.inj hc).symm h
      · right
        rwa [hcode, if_neg h]

/-- Phis are put into blocks that are not begun, while no block is being written. -/
theorem of_begin {b : BlockId} {phis : List Instr} (hhead : s'.func.head = s.func.head)
    (hcur : s.current = none) (hb : s.Unbegun b) (hsize : s.size ≤ s'.size) (hcount : s.count ≤ s'.count)
    (hcode : ∀ c, s'.code c = if c = b then phis else s.code c) : Grows s s' := by
  refine ⟨hhead, hsize, hcount, fun c => ?_, fun c hc => ?_⟩
  · rw [hcode]
    split_ifs with h
    · subst h
      rw [hb.code]
      have hnot : ¬ s.Begun c := by
        rintro (hc | hc)
        · exact hb.current hc
        · rw [hb.code] at hc
          cases hc
      exact .append [] phis (fun hc => absurd hc hnot) rfl
    · exact .refl _ _
  · have hend : ended (s.code c) = true := by
      rcases hc with hc | hc
      · rw [hcur] at hc
        cases hc
      · exact hc
    right
    rw [hcode, if_neg]
    · exact hend
    · rintro rfl
      rw [hb.code] at hend
      cases hend

/-- An instruction that was written is read at its place. -/
theorem fetch (h : Grows s s') {b : BlockId} {c : List Instr} {i : Instr}
    (hcode : s.code b = c ++ [i]) (hi : i.isPhi = false) :
    (s'.code b).drop c.length = i :: (s'.code b).drop (c.length + 1) := by
  obtain ⟨d, tail, heq, hd, -, -⟩ := h.code b
  rw [hcode] at hd
  obtain ⟨e, e', rfl, he, he'⟩ := hd.split
  obtain ⟨j, hj⟩ : ∃ j, e' = [j] ∧ Instr.Widens i j := by
    cases he' with
    | cons h hs => cases hs; exact ⟨_, rfl, h⟩
  obtain ⟨rfl, hw⟩ := hj
  obtain rfl := hw.eq_of_not_phi hi
  have hlen : c.length = e.length := he.length_eq
  rw [heq, List.append_assoc, hlen]
  simp

/-- The phis at the head of a block are those it began with, perhaps with more
entries. -/
theorem phis_eq (h : Grows s s') {b : BlockId} {phis : List Instr} (hcur : s.current = some b)
    (hcode : s.code b = phis) (hphis : ∀ i ∈ phis, i.isPhi = true) :
    ∃ d, Widened phis d ∧ (s'.code b).takeWhile Instr.isPhi = d ∧
      (s'.code b).dropWhile Instr.isPhi = (s'.code b).drop phis.length := by
  obtain ⟨d, tail, heq, hd, htail, -⟩ := h.code b
  rw [hcode] at hd
  have hdphi := hd.isPhi_of_mem hphis
  have htail := htail (Or.inl hcur)
  have hlen : phis.length = d.length := hd.length_eq
  have hstop : tail.takeWhile Instr.isPhi = [] ∧ tail.dropWhile Instr.isPhi = tail := by
    cases tail with
    | nil => exact ⟨rfl, rfl⟩
    | cons i tail =>
      have hi := htail i List.mem_cons_self
      rw [List.takeWhile_cons, List.dropWhile_cons]
      simp [hi]
  refine ⟨d, hd, ?_, ?_⟩
  · rw [heq, List.takeWhile_append_of_pos hdphi, hstop.1, List.append_nil]
  · rw [heq, List.dropWhile_append_of_pos hdphi, hstop.2, hlen, List.drop_left]

end Grows
end Builder
end Chordal.Ssa
