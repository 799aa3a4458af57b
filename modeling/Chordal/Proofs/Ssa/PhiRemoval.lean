/-
# What taking phis out makes of a flow graph

Without its phis a block holds the rest of its code, with copies before its
terminator if a single edge leaves it, and its terminator may send control to new
blocks. A new block holds the copies of one edge and goes on to where the edge
went. So on every edge the copies that the phis of its end need are made, partly
before the terminator and partly in a new block, and only there.

`Removing` says this of a function while its blocks are treated one after
another. One step strips a block of its phis; one makes the copies of an edge.

Key definitions: `phiCopies`, `reshape`, `Way`, `Removing`.
Key theorems: `Removing.strip`, `Removing.copyOnEdge`, `removePhis_shape`.
-/
import Mathlib
import Chordal.Proofs.Finite
import Chordal.Proofs.Ssa.Copies
import Chordal.Proofs.Ssa.Flow
import Chordal.Ssa.PhiRemoval

namespace Chordal.Ssa

/-! ### One block after another -/

namespace Func

/-- A block is left as it is, or its phis are replaced on the edges to it. -/
theorem removeBlockPhis_cases {f g : Func} {b : BlockId} (h : f.removeBlockPhis b = .ok g) :
    g = f ∨ ∃ blk, f.block? b = some blk ∧
      removeFrom b blk.phis blk.preds (f.modifyBlock b fun blk => { blk with code := blk.body }) = .ok g := by
  unfold removeBlockPhis at h
  cases hblk : f.block? b with
  | none =>
    rw [hblk] at h
    exact .inl (Except.ok.inj h).symm
  | some blk =>
    rw [hblk] at h
    dsimp only at h
    split_ifs at h
    · exact .inl (Except.ok.inj h).symm
    · exact .inr ⟨blk, rfl, h⟩

theorem removePhisOf_cons {f g : Func} {b : BlockId} {bs : List BlockId} {n : Nat}
    (h : removePhisOf (b :: bs) f = .ok (g, n)) :
    ∃ f₁ m, f.removeBlockPhis b = .ok f₁ ∧ removePhisOf bs f₁ = .ok (g, m) := by
  rw [removePhisOf] at h
  obtain ⟨f₁, h₁, h⟩ := bind_eq_ok.mp h
  obtain ⟨g', m, h₂, h⟩ := bind_pair_eq_ok.mp h
  obtain ⟨rfl, -⟩ := ok_pair_inj h
  exact ⟨f₁, m, h₁, h₂⟩

/-- What taking out the phis of a block keeps is kept when they are all out. -/
theorem removePhisOf_keeps {P : Func → Prop} (hstep : ∀ {f g b}, P f → removeBlockPhis f b = .ok g → P g) :
    ∀ (bs : List BlockId) {f g : Func} {n : Nat}, P f → removePhisOf bs f = .ok (g, n) → P g
  | [], _, _, _, hf, h => (ok_pair_inj h).1 ▸ hf
  | _ :: bs, _, _, _, hf, h => by
    obtain ⟨f₁, m, h₁, h₂⟩ := removePhisOf_cons h
    exact removePhisOf_keeps hstep bs (hstep hf h₁) h₂

end Func

/-! ### The copies of an edge -/

/-- The copies that phis need on the edges from `p`. -/
def phiCopies (p : BlockId) : List Instr → List Copy
  | .phi target entries :: rest =>
    match entries.find? fun e => e.2 == p with
    | none => phiCopies p rest
    | some e => if e.1.id = target.id then phiCopies p rest else ⟨target, e.1⟩ :: phiCopies p rest
  | _ => []

/-- Every phi has an entry for the edges from `p`. -/
def HasEntries (p : BlockId) (phis : List Instr) : Prop :=
  ∀ i ∈ phis, ∃ target entries, i = .phi target entries ∧ ∃ v, (v, p) ∈ entries

variable {p : BlockId} {i last : Instr} {ρ : BlockId → BlockId} {f : Func}

theorem HasEntries.of_cons {phis : List Instr} (h : HasEntries p (i :: phis)) :
    HasEntries p phis := fun j hj => h j (List.mem_cons_of_mem i hj)

theorem HasEntries.head {target : Value} {entries : List (Value × BlockId)} {phis : List Instr}
    (h : HasEntries p (.phi target entries :: phis)) :
    ∃ e, (entries.find? fun e => e.2 == p) = some e := by
  obtain ⟨_, _, he, v, hv⟩ := h _ List.mem_cons_self
  cases he
  cases hfind : entries.find? fun e => e.2 == p with
  | some e => exact ⟨e, rfl⟩
  | none => exact absurd (beq_self_eq_true p) (List.find?_eq_none.mp hfind (v, p) hv)

/-- With an entry for the edge in every phi, its copies are found. -/
theorem edgeCopies_eq (f : Func) (b p : BlockId) : ∀ phis : List Instr, HasEntries p phis →
    f.edgeCopies b p phis = .ok (phiCopies p phis)
  | [], _ => rfl
  | i :: phis, h => by
    obtain ⟨target, entries, rfl, -⟩ := h i List.mem_cons_self
    obtain ⟨e, he⟩ := h.head
    simp only [Func.edgeCopies, phiCopies, he, edgeCopies_eq f b p phis h.of_cons]
    rfl

theorem mem_phiCopies {c : Copy} : ∀ {phis : List Instr}, c ∈ phiCopies p phis →
    ∃ entries, .phi c.target entries ∈ phis ∧ (c.source, p) ∈ entries
  | [], h => by cases h
  | i :: phis, h => by
    cases i with
    | phi target entries =>
      simp only [phiCopies] at h
      cases hfind : entries.find? fun e => e.2 == p with
      | none =>
        rw [hfind] at h
        obtain ⟨es, hm, he⟩ := mem_phiCopies h
        exact ⟨es, List.mem_cons_of_mem _ hm, he⟩
      | some e =>
        rw [hfind] at h
        simp only at h
        split_ifs at h
        · obtain ⟨es, hm, he⟩ := mem_phiCopies h
          exact ⟨es, List.mem_cons_of_mem _ hm, he⟩
        · rcases List.mem_cons.mp h with rfl | h
          · have hp : e.2 = p := by simpa using List.find?_some hfind
            exact ⟨entries, List.mem_cons_self, hp ▸ List.mem_of_find?_eq_some hfind⟩
          · obtain ⟨es, hm, he⟩ := mem_phiCopies h
            exact ⟨es, List.mem_cons_of_mem _ hm, he⟩
    | _ => cases h

theorem targets_phiCopies_sublist (p : BlockId) : ∀ phis : List Instr,
    ((phiCopies p phis).map fun c => c.target.id).Sublist (definedIds phis)
  | [] => .slnil
  | i :: phis => by
    cases i with
    | phi target entries =>
      have ih := targets_phiCopies_sublist p phis
      have hids : definedIds (.phi target entries :: phis) = target.id :: definedIds phis := rfl
      simp only [phiCopies, hids]
      cases entries.find? fun e => e.2 == p with
      | none => exact ih.cons _
      | some e =>
        simp only
        split_ifs
        · exact ih.cons _
        · exact ih.cons_cons _
    | _ => exact List.nil_sublist _

/-! ### Code in its new shape -/

/-- A copy as an instruction. -/
def Copy.instr (c : Copy) : Instr := .move c.target c.source

/-- The instruction with other targets. -/
def Instr.rename (ρ : BlockId → BlockId) : Instr → Instr
  | .jump target => .jump (ρ target)
  | .branch condition ifTrue ifFalse => .branch condition (ρ ifTrue) (ρ ifFalse)
  | i => i

/-- Code with copies before its last instruction, which has other targets. -/
def reshape (moves : List Copy) (ρ : BlockId → BlockId) (code : List Instr) : List Instr :=
  code.dropLast ++ moves.map Copy.instr ++ (code.getLast?.map (Instr.rename ρ)).toList

theorem Instr.rename_of_eq (h : ∀ b ∈ i.successors, ρ b = b) : i.rename ρ = i := by
  cases i <;> simp_all [Instr.rename, Instr.successors]

theorem Instr.isPhi_rename (ρ : BlockId → BlockId) (i : Instr) : (i.rename ρ).isPhi = i.isPhi := by
  cases i <;> rfl

@[simp] theorem reshape_concat (moves : List Copy) (ρ : BlockId → BlockId) (front : List Instr)
    (last : Instr) :
    reshape moves ρ (front ++ [last]) = front ++ moves.map Copy.instr ++ [last.rename ρ] := by
  unfold reshape
  rw [List.dropLast_concat, List.getLast?_concat]
  rfl

/-- Code that sends control nowhere stays. -/
theorem reshape_nil {code : List Instr}
    (h : ∀ b ∈ (code.getLast?.map Instr.successors).getD [], ρ b = b) : reshape [] ρ code = code := by
  rcases List.eq_nil_or_concat' code with rfl | ⟨front, last, rfl⟩
  · rfl
  · rw [List.getLast?_concat] at h
    rw [reshape_concat, Instr.rename_of_eq h]
    simp

theorem beforeLast_reshape (moves : List Copy) (ρ : BlockId → BlockId) (front : List Instr) (last : Instr) :
    Func.beforeLast moves (reshape [] ρ (front ++ [last])) = reshape moves ρ (front ++ [last]) := by
  unfold Func.beforeLast
  simp only [reshape_concat, List.map_nil, List.append_nil, List.dropLast_concat, List.getLast?_concat]
  rfl

/-- The targets of code can be renamed one after another. -/
theorem retargetLast_reshape {moves : List Copy} {ρ' : BlockId → BlockId} {front : List Instr}
    {old new : BlockId} (h : ∀ b ∈ last.successors, ρ' b = if ρ b = old then new else ρ b) :
    Func.retargetLast old new (reshape moves ρ (front ++ [last])) = reshape moves ρ' (front ++ [last]) := by
  unfold Func.retargetLast
  simp only [reshape_concat, List.dropLast_concat, List.getLast?_concat]
  congr 2
  cases last <;> simp_all [Instr.rename, Instr.retarget, Instr.successors]

theorem takeWhile_isPhi (front : List Instr) (rest : List Instr) (h : i.isPhi = false) :
    (front ++ i :: rest).takeWhile Instr.isPhi = front.takeWhile Instr.isPhi := by
  induction front with
  | nil => simp [h]
  | cons j front ih => rw [List.cons_append, List.takeWhile_cons, List.takeWhile_cons, ih]

theorem dropWhile_isPhi (front : List Instr) (rest : List Instr) (h : i.isPhi = false) :
    (front ++ i :: rest).dropWhile Instr.isPhi = front.dropWhile Instr.isPhi ++ i :: rest := by
  induction front with
  | nil => simp [h]
  | cons j front ih =>
    rw [List.cons_append, List.dropWhile_cons, List.dropWhile_cons, ih]
    split_ifs <;> rfl

/-- What follows the front of reshaped code is not a phi. -/
theorem reshape_eq_cons (moves : List Copy) (ρ : BlockId → BlockId) (h : last.isPhi = false) :
    ∃ i rest, i.isPhi = false ∧
      ∀ front, reshape moves ρ (front ++ [last]) = front ++ i :: rest := by
  cases moves with
  | nil => exact ⟨last.rename ρ, [], (last.isPhi_rename ρ).trans h, fun front => by simp⟩
  | cons c moves =>
    exact ⟨c.instr, moves.map Copy.instr ++ [last.rename ρ], rfl, fun front => by simp⟩

/-- Copies and new targets do not touch the phis at the head. -/
theorem dropWhile_reshape (moves : List Copy) (ρ : BlockId → BlockId) (front : List Instr)
    (h : last.isPhi = false) :
    (reshape moves ρ (front ++ [last])).dropWhile Instr.isPhi =
      reshape moves ρ ((front ++ [last]).dropWhile Instr.isPhi) := by
  obtain ⟨i, rest, hi, hr⟩ := reshape_eq_cons moves ρ h
  rw [dropWhile_isPhi front [] h, hr, hr, dropWhile_isPhi front rest hi]

theorem takeWhile_reshape (moves : List Copy) (ρ : BlockId → BlockId) (front : List Instr)
    (h : last.isPhi = false) :
    (reshape moves ρ (front ++ [last])).takeWhile Instr.isPhi =
      (front ++ [last]).takeWhile Instr.isPhi := by
  obtain ⟨i, rest, hi, hr⟩ := reshape_eq_cons moves ρ h
  rw [hr, takeWhile_isPhi front rest hi, takeWhile_isPhi front [] h]

/-! ### Copies in a block -/

namespace Func

/-- The function with `copies` made in the block `into`, before its last instruction. -/
def withCopies (f : Func) (into : BlockId) (copies : List Copy) : Func :=
  { f with valueCount := (Copies.sequenceFresh f.valueCount copies).2 }.modifyBlock into fun blk =>
    { blk with code := beforeLast (Copies.sequenceFresh f.valueCount copies).1 blk.code }

theorem code_withCopies (f : Func) {into : BlockId} (copies : List Copy) (h : into < f.blocks.size)
    (c : BlockId) :
    (f.withCopies into copies).code c =
      if c = into then beforeLast (Copies.sequenceFresh f.valueCount copies).1 (f.code into)
      else f.code c := by
  have hcode := code_modifyBlock { f with valueCount := (Copies.sequenceFresh f.valueCount copies).2 }
    (fun blk => beforeLast (Copies.sequenceFresh f.valueCount copies).1 blk.code) h c
  obtain ⟨blk, hblk, hblkcode⟩ := exists_block h
  have hblk' : block? { f with valueCount := (Copies.sequenceFresh f.valueCount copies).2 } into = some blk :=
    hblk
  rw [hblk'] at hcode
  unfold withCopies
  rw [hcode, hblkcode]
  rfl

@[simp] theorem size_withCopies (f : Func) (into : BlockId) (copies : List Copy) :
    (f.withCopies into copies).blocks.size = f.blocks.size := size_modifyBlock ..

theorem succs_withCopies (f : Func) (into : BlockId) (copies : List Copy) (c : BlockId) :
    (f.withCopies into copies).succs c = f.succs c := succs_modifyBlock_code ..

theorem preds_withCopies (f : Func) (into : BlockId) (copies : List Copy) (c : BlockId) :
    (f.withCopies into copies).preds c = f.preds c := preds_modifyBlock_code ..

theorem valueCount_splitEdge (f : Func) (a b : BlockId) : (f.splitEdge a b).2.valueCount = f.valueCount := by
  unfold splitEdge
  simp only
  split_ifs <;> rfl

theorem head_splitEdge (f : Func) (a b : BlockId) : (f.splitEdge a b).2.head = f.head := by
  unfold splitEdge
  simp only
  split_ifs <;> rfl

/-- Where the copies of an edge go. -/
theorem copyOnEdge_eq (f : Func) (b : BlockId) {p : BlockId} (copies : List Copy)
    (hp : p < f.blocks.size) :
    f.copyOnEdge b p copies =
      if 1 < (f.succs p).length then (f.splitEdge p b).2.withCopies f.blocks.size copies
      else f.withCopies p copies := by
  obtain ⟨blk, hblk, -⟩ := exists_block hp
  have hnew : (f.splitEdge p b).1 = f.blocks.size := by
    unfold splitEdge
    simp only
    split_ifs <;> rfl
  unfold copyOnEdge succs
  simp only [hblk, Option.map_some, Option.getD_some, decide_eq_true_eq]
  split_ifs
  · rw [hnew]
    rfl
  · rfl

end Func

/-! ### A function on its way -/

/-- The edge from `a` to `c` goes to `target` and makes its copies: `moves` before
the terminator of `a`, the others in `target`, if that is a new block. -/
def Way (f g : Func) (moves : List Copy) (a c target : BlockId) : Prop :=
  ∃ more, Copies.Realizes f.valueCount (phiCopies a (f.phis c)) (moves ++ more) ∧
    (target = c ∧ more = [] ∨
      f.blocks.size ≤ target ∧ target < g.blocks.size ∧ g.code target = more.map Copy.instr ++ [.jump c])

/-- What a function has become when the phis of the blocks `taken` are gone and
the copies of the edges `made` are made. -/
structure Removing (f g : Func) (taken : BlockId → Prop) (made : BlockId → BlockId → Prop)
    (moves : BlockId → List Copy) (ρ : BlockId → BlockId → BlockId) : Prop where
  head : g.head = f.head
  size_le : f.blocks.size ≤ g.blocks.size
  count_le : f.valueCount ≤ g.valueCount
  code_taken : ∀ {a}, a < f.blocks.size → taken a → g.code a = reshape (moves a) (ρ a) (f.body a)
  code_waiting : ∀ {a}, a < f.blocks.size → ¬ taken a → g.code a = reshape (moves a) (ρ a) (f.code a)
  succs : ∀ {a}, a < f.blocks.size → (g.succs a).length = (f.succs a).length
  preds : ∀ {c}, c < f.blocks.size → ¬ taken c → g.preds c = f.preds c
  moves_ne : ∀ {a}, moves a ≠ [] → ∃ c, f.succs a = [c] ∧ made a c
  way : ∀ {a c}, c ∈ f.targets a → made a c → Way f g (moves a) a c (ρ a c)
  waiting : ∀ {a c}, c ∈ f.targets a → ¬ made a c → ρ a c = c
  split : ∀ {s}, f.blocks.size ≤ s → ∀ i ∈ g.code s, i.isPhi = false

theorem removing_start (f : Func) :
    Removing f f (fun _ => False) (fun _ _ => False) (fun _ => []) (fun _ c => c) where
  head := rfl
  size_le := le_rfl
  count_le := le_rfl
  code_taken _ h := h.elim
  code_waiting _ _ := (reshape_nil fun _ _ => rfl).symm
  succs _ := rfl
  preds _ _ := rfl
  moves_ne h := absurd rfl h
  way _ h := h.elim
  waiting _ _ := rfl
  split hs i hi := by
    rw [Func.code_of_size_le hs] at hi
    cases hi

namespace Removing

variable {f g : Func} {taken : BlockId → Prop} {made : BlockId → BlockId → Prop}
  {moves : BlockId → List Copy} {ρ : BlockId → BlockId → BlockId} {a b c p : BlockId}

/-- A block with an edge out of it ends in a terminator, with and without its phis. -/
theorem exists_last {base : List Instr} (hc : c ∈ f.targets a) (hbase : base = f.code a ∨ base = f.body a) :
    ∃ front last, base = front ++ [last] ∧ last.successors = f.targets a := by
  obtain ⟨front, last, hcode, hlast, -⟩ := Func.exists_last hc
  have hphi : last.isPhi = false := by cases last <;> first | rfl | cases hlast
  have hsucc := (Func.targets_of_code hcode).symm
  rcases hbase with rfl | rfl
  · exact ⟨front, last, hcode, hsucc⟩
  · exact ⟨_, last, by rw [Func.body, hcode, dropWhile_isPhi front [] hphi], hsucc⟩

section

variable (h : Removing f g taken made moves ρ)

include h

/-- Before the copies of an edge are made there are none before its terminator. -/
theorem moves_eq_nil (hl : f.Linked) (hc : c ∈ f.targets a) (hm : ¬ made a c) : moves a = [] := by
  by_contra hne
  obtain ⟨d, hd, hmade⟩ := h.moves_ne hne
  have hcd := hl.mem_succs.mpr hc
  rw [hd, List.mem_singleton] at hcd
  exact hm (hcd ▸ hmade)

/-- A block without an edge out of it has no copies. -/
theorem moves_of_targets (hl : f.Linked) (ht : f.targets a = []) : moves a = [] := by
  by_contra hne
  obtain ⟨d, hd, -⟩ := h.moves_ne hne
  have hmem : d ∈ f.targets a := hl.mem_succs.mp (by rw [hd]; exact List.mem_singleton_self d)
  rw [ht] at hmem
  cases hmem

/-- No edge takes the place of another. -/
theorem rename_ne (hb : b ∈ f.targets a) (hbc : b ≠ c) (hc : c < f.blocks.size) : ρ a b ≠ c := by
  by_cases hm : made a b
  · obtain ⟨_, _, ⟨he, -⟩ | ⟨hle, -, -⟩⟩ := h.way hb hm
    · rwa [he]
    · exact Nat.ne_of_gt (Nat.lt_of_lt_of_le hc hle)
  · rwa [h.waiting hb hm]

/-- The code of a block before and after its phis go. -/
theorem body_code (hl : f.Linked) (hb : b < f.blocks.size) (ht : ¬ taken b) :
    g.phis b = f.phis b ∧ g.body b = reshape (moves b) (ρ b) (f.body b) := by
  rw [Func.phis, Func.body, h.code_waiting hb ht]
  cases hts : f.targets b with
  | nil =>
    have hnone : ∀ c ∈ ((f.code b).getLast?.map Instr.successors).getD [], ρ b c = c := by
      rw [← Func.targets_eq, hts]
      simp
    rw [h.moves_of_targets hl hts, reshape_nil hnone]
    refine ⟨rfl, (reshape_nil fun c hc => hnone c ?_).symm⟩
    change c ∈ ((f.body b).getLast?.map Instr.successors).getD [] at hc
    rcases List.eq_nil_or_concat' (f.body b) with he | ⟨front, last, he⟩
    · rw [he] at hc
      cases hc
    · have hcode : f.code b = (f.phis b ++ front) ++ [last] := by
        rw [List.append_assoc, ← he]
        exact (List.takeWhile_append_dropWhile).symm
      rwa [hcode, List.getLast?_concat, ← List.getLast?_concat (l := front), ← he]
  | cons c cs =>
    have hc : c ∈ f.targets b := hts ▸ List.mem_cons_self
    obtain ⟨front, last, hcode, hlast, -⟩ := Func.exists_last hc
    have hphi : last.isPhi = false := by cases last <;> first | rfl | cases hlast
    rw [Func.phis, Func.body, hcode]
    exact ⟨takeWhile_reshape _ _ _ hphi, dropWhile_reshape _ _ _ hphi⟩

/-- A block loses its phis. -/
theorem strip (hl : f.Linked) (hb : b < f.blocks.size) (ht : ¬ taken b) :
    Removing f (g.modifyBlock b fun blk => { blk with code := blk.body }) (fun c => taken c ∨ c = b)
      made moves ρ := by
  have hcode : ∀ c, (g.modifyBlock b fun blk => { blk with code := blk.body }).code c =
      if c = b then g.body b else g.code c := by
    intro c
    obtain ⟨blk, hblk, hblkcode⟩ := Func.exists_block (Nat.lt_of_lt_of_le hb h.size_le)
    rw [Func.code_modifyBlock g Block.body (Nat.lt_of_lt_of_le hb h.size_le), hblk, Func.body, hblkcode]
    rfl
  have hsplit : ∀ {s}, f.blocks.size ≤ s → s ≠ b := fun hs he => absurd hb (Nat.not_lt.mpr (he ▸ hs))
  refine ⟨h.head, by simpa using h.size_le, h.count_le, ?_, ?_, ?_, ?_, h.moves_ne, ?_, h.waiting, ?_⟩
  · intro a ha hta
    rw [hcode]
    split_ifs with he
    · rw [he, (h.body_code hl hb ht).2]
    · exact h.code_taken ha (hta.resolve_right he)
  · intro a ha hta
    rw [hcode, if_neg fun he => hta (.inr he)]
    exact h.code_waiting ha fun h' => hta (.inl h')
  · intro a ha
    rw [Func.succs_modifyBlock_code]
    exact h.succs ha
  · intro c hc htc
    rw [Func.preds_modifyBlock_code]
    exact h.preds hc fun h' => htc (.inl h')
  · intro a c hc hm
    obtain ⟨more, hreal, hto | ⟨hle, hlt, hto⟩⟩ := h.way hc hm
    · exact ⟨more, hreal, .inl hto⟩
    · exact ⟨more, hreal, .inr ⟨hle, by simpa using hlt, by rw [hcode, if_neg (hsplit hle), hto]⟩⟩
  · intro s hs
    rw [hcode, if_neg (hsplit hs)]
    exact h.split hs

/-- An edge that needs no copies. -/
theorem noCopies (hl : f.Linked) (hc : c ∈ f.targets p) (hm : ¬ made p c)
    (hnone : phiCopies p (f.phis c) = []) :
    Removing f g taken (fun a d => made a d ∨ a = p ∧ d = c) moves ρ where
  __ := h
  moves_ne hne := by
    obtain ⟨d, hd, hmade⟩ := h.moves_ne hne
    exact ⟨d, hd, .inl hmade⟩
  way := by
    rintro a d hd (hmade | ⟨rfl, rfl⟩)
    · exact h.way hd hmade
    · refine ⟨[], ?_, .inl ⟨h.waiting hc hm, rfl⟩⟩
      rw [hnone, h.moves_eq_nil hl hc hm]
      exact Copies.realizes_nil _
  waiting hd hn := h.waiting hd fun h' => hn (.inl h')

/-- The copies of an edge, made before the terminator it leaves. -/
theorem copyBefore (hl : f.Linked) (hc : c ∈ f.targets p) (hm : ¬ made p c)
    (hsucc : f.succs p = [c]) (hp : Copies.Pending f.valueCount (phiCopies p (f.phis c))) :
    Removing f (g.withCopies p (phiCopies p (f.phis c))) taken (fun a d => made a d ∨ a = p ∧ d = c)
      (fun a => if a = p then (Copies.sequenceFresh g.valueCount (phiCopies p (f.phis c))).1 else moves a)
      ρ := by
  have hlt := Func.lt_of_mem_targets hc
  have hcode := g.code_withCopies (phiCopies p (f.phis c)) (Nat.lt_of_lt_of_le hlt h.size_le)
  have hsplit : ∀ {s}, f.blocks.size ≤ s → s ≠ p := fun hs he => absurd hlt (Nat.not_lt.mpr (he ▸ hs))
  have honly : ∀ d ∈ f.targets p, d = c := fun d hd => by
    have := hl.mem_succs.mpr hd
    rwa [hsucc, List.mem_singleton] at this
  -- the code of the source before the copies are made
  have hbefore : ∀ base, base = f.code p ∨ base = f.body p → g.code p = reshape (moves p) (ρ p) base →
      Func.beforeLast (Copies.sequenceFresh g.valueCount (phiCopies p (f.phis c))).1 (g.code p) =
        reshape (Copies.sequenceFresh g.valueCount (phiCopies p (f.phis c))).1 (ρ p) base := by
    intro base hbase hg
    obtain ⟨front, last, rfl, -⟩ := exists_last hc hbase
    rw [hg, h.moves_eq_nil hl hc hm, beforeLast_reshape]
  refine ⟨h.head, by simpa using h.size_le, h.count_le.trans (Copies.le_sequenceFresh _ _), ?_, ?_, ?_, ?_, ?_,
    ?_, ?_, ?_⟩
  · intro a ha hta
    rw [hcode]
    split_ifs with he
    · subst he
      exact hbefore _ (.inr rfl) (h.code_taken ha hta)
    · exact h.code_taken ha hta
  · intro a ha hta
    rw [hcode]
    split_ifs with he
    · subst he
      exact hbefore _ (.inl rfl) (h.code_waiting ha hta)
    · exact h.code_waiting ha hta
  · intro a ha
    rw [Func.succs_withCopies]
    exact h.succs ha
  · intro d hd htd
    rw [Func.preds_withCopies]
    exact h.preds hd htd
  · intro a hne
    by_cases he : a = p
    · exact ⟨c, he ▸ hsucc, .inr ⟨he, rfl⟩⟩
    · rw [if_neg he] at hne
      obtain ⟨d, hd, hmade⟩ := h.moves_ne hne
      exact ⟨d, hd, .inl hmade⟩
  · intro a d hd hmade
    by_cases he : a = p
    · subst he
      obtain rfl := honly d hd
      refine ⟨[], ?_, .inl ⟨h.waiting hd hm, rfl⟩⟩
      rw [if_pos rfl, List.append_nil]
      have hreal := Copies.realizes_sequenceFresh (hp.mono h.count_le)
      exact hreal.mono h.count_le
    · obtain ⟨more, hreal, hto | ⟨hle, hlt', hto⟩⟩ := h.way hd (hmade.resolve_right fun h' => he h'.1)
      · exact ⟨more, by rwa [if_neg he], .inl hto⟩
      · exact ⟨more, by rwa [if_neg he],
          .inr ⟨hle, by simpa using hlt', by rw [hcode, if_neg (hsplit hle), hto]⟩⟩
  · exact fun hd hn => h.waiting hd fun h' => hn (.inl h')
  · intro s hs
    rw [hcode, if_neg (hsplit hs)]
    exact h.split hs

/-- The copies of an edge, made in a new block on it. -/
theorem copyOnSplit (hc : c ∈ f.targets p) (hm : ¬ made p c) (hlt : c < f.blocks.size)
    (ht : taken c) (hsucc : 1 < (f.succs p).length)
    (hp : Copies.Pending f.valueCount (phiCopies p (f.phis c))) :
    Removing f ((g.splitEdge p c).2.withCopies g.blocks.size (phiCopies p (f.phis c))) taken
      (fun a d => made a d ∨ a = p ∧ d = c) moves
      (fun a d => if a = p ∧ d = c then g.blocks.size else ρ a d) := by
  have hpf := Func.lt_of_mem_targets hc
  have hpg := Nat.lt_of_lt_of_le hpf h.size_le
  have hcg := Nat.lt_of_lt_of_le hlt h.size_le
  have hsize := g.size_splitEdge hpg hcg
  have hcode : ∀ d, ((g.splitEdge p c).2.withCopies g.blocks.size (phiCopies p (f.phis c))).code d =
      if d = g.blocks.size then
        (Copies.sequenceFresh g.valueCount (phiCopies p (f.phis c))).1.map Copy.instr ++ [.jump c]
      else if d = p then Func.retargetLast c g.blocks.size (g.code p) else g.code d := by
    intro d
    rw [Func.code_withCopies _ _ (hsize ▸ Nat.lt_succ_self _), Func.code_splitEdge g hpg hcg,
      Func.code_splitEdge g hpg hcg, if_pos rfl, Func.valueCount_splitEdge]
    split_ifs <;> rfl
  have hold : ∀ {d}, d < f.blocks.size → d ≠ g.blocks.size := fun hd =>
    Nat.ne_of_lt (Nat.lt_of_lt_of_le hd h.size_le)
  have hmoves : moves p = [] := by
    by_contra hne
    obtain ⟨d, hd, -⟩ := h.moves_ne hne
    rw [hd] at hsucc
    exact absurd hsucc (Nat.lt_irrefl 1)
  have hrename : ∀ a ∈ f.targets p, (if p = p ∧ a = c then g.blocks.size else ρ p a) =
      if ρ p a = c then g.blocks.size else ρ p a := by
    intro a ha
    by_cases he : a = c
    · rw [if_pos ⟨rfl, he⟩, he, if_pos (h.waiting hc hm)]
    · rw [if_neg fun h' => he h'.2, if_neg (h.rename_ne ha he hlt)]
  have hother : ∀ {a}, a ≠ p → (fun d => if a = p ∧ d = c then g.blocks.size else ρ a d) = ρ a :=
    fun hap => funext fun d => if_neg fun h' => hap h'.1
  -- the code of the source with its edge going to the new block
  have hbefore : ∀ base, base = f.code p ∨ base = f.body p → g.code p = reshape (moves p) (ρ p) base →
      Func.retargetLast c g.blocks.size (g.code p) =
        reshape (moves p) (fun d => if p = p ∧ d = c then g.blocks.size else ρ p d) base := by
    intro base hbase hg
    obtain ⟨front, last, rfl, hsucc⟩ := exists_last hc hbase
    rw [hg]
    exact retargetLast_reshape fun d hd => hrename d (hsucc ▸ hd)
  refine ⟨(g.head_splitEdge p c).trans h.head, ?_, ?_, ?_, ?_, ?_, ?_, ?_, ?_, ?_, ?_⟩
  · rw [Func.size_withCopies, hsize]
    exact h.size_le.trans (Nat.le_succ _)
  · have hle := Copies.le_sequenceFresh (g.splitEdge p c).2.valueCount (phiCopies p (f.phis c))
    rw [Func.valueCount_splitEdge] at hle
    exact h.count_le.trans ((Func.valueCount_splitEdge g p c).symm ▸ hle)
  · intro a ha hta
    rw [hcode, if_neg (hold ha)]
    split_ifs with he
    · subst he
      exact hbefore _ (.inr rfl) (h.code_taken ha hta)
    · rw [hother he]
      exact h.code_taken ha hta
  · intro a ha hta
    rw [hcode, if_neg (hold ha)]
    split_ifs with he
    · subst he
      exact hbefore _ (.inl rfl) (h.code_waiting ha hta)
    · rw [hother he]
      exact h.code_waiting ha hta
  · intro a ha
    rw [Func.succs_withCopies, Func.succs_splitEdge g hpg hcg, if_neg (hold ha)]
    split_ifs with he
    · rw [he, Func.replaceAll, List.length_map]
      exact h.succs hpf
    · exact h.succs ha
  · intro d hd htd
    have hdc : d ≠ c := fun he => htd (he ▸ ht)
    rw [Func.preds_withCopies, Func.preds_splitEdge g hpg hcg, if_neg (hold hd), if_neg hdc]
    exact h.preds hd htd
  · intro a hne
    obtain ⟨d, hd, hmade⟩ := h.moves_ne hne
    exact ⟨d, hd, .inl hmade⟩
  · intro a d hd hmade
    by_cases he : a = p ∧ d = c
    · obtain ⟨rfl, rfl⟩ := he
      refine ⟨(Copies.sequenceFresh g.valueCount (phiCopies a (f.phis d))).1, ?_, .inr ?_⟩
      · rw [hmoves, List.nil_append]
        exact (Copies.realizes_sequenceFresh (hp.mono h.count_le)).mono h.count_le
      · rw [if_pos ⟨rfl, rfl⟩, Func.size_withCopies, hsize]
        exact ⟨h.size_le, Nat.lt_succ_self _, by rw [hcode, if_pos rfl]⟩
    · rw [if_neg he]
      obtain ⟨more, hreal, hto | ⟨hle, hlt', hto⟩⟩ := h.way hd (hmade.resolve_right he)
      · exact ⟨more, hreal, .inl hto⟩
      · refine ⟨more, hreal, .inr ⟨hle, ?_, ?_⟩⟩
        · rw [Func.size_withCopies, hsize]
          exact Nat.lt_succ_of_lt hlt'
        · rw [hcode, if_neg (Nat.ne_of_lt hlt'), if_neg (Nat.ne_of_gt (Nat.lt_of_lt_of_le hpf hle)), hto]
  · intro a d hd hn
    rw [if_neg fun he => hn (.inr he)]
    exact h.waiting hd fun h' => hn (.inl h')
  · intro s hs i hi
    rw [hcode] at hi
    split_ifs at hi with he he'
    · rcases List.mem_append.mp hi with hi | hi
      · obtain ⟨k, -, rfl⟩ := List.mem_map.mp hi
        rfl
      · rw [List.mem_singleton.mp hi]
        rfl
    · exact absurd hpf (Nat.not_lt.mpr (he' ▸ hs))
    · exact h.split hs i hi

/-- The copies of an edge, wherever they go. -/
theorem copyOnEdge (hl : f.Linked) (hc : c ∈ f.targets p) (hm : ¬ made p c)
    (hlt : c < f.blocks.size) (ht : taken c)
    (hp : Copies.Pending f.valueCount (phiCopies p (f.phis c))) :
    ∃ moves' ρ', Removing f (g.copyOnEdge c p (phiCopies p (f.phis c))) taken
      (fun a d => made a d ∨ a = p ∧ d = c) moves' ρ' := by
  have hpf := Func.lt_of_mem_targets hc
  rw [Func.copyOnEdge_eq g c _ (Nat.lt_of_lt_of_le hpf h.size_le), h.succs hpf]
  split_ifs with hcrit
  · exact ⟨_, _, h.copyOnSplit hc hm hlt ht hcrit hp⟩
  · refine ⟨_, _, h.copyBefore hl hc hm ?_ hp⟩
    have hmem := hl.mem_succs.mpr hc
    obtain ⟨d, hd⟩ : ∃ d, f.succs p = [d] := List.length_eq_one_iff.mp
      (Nat.le_antisymm (Nat.not_lt.mp hcrit) (List.length_pos_of_mem hmem))
    rw [hd, List.mem_singleton] at hmem
    rw [hd, hmem]

/-- Only which edges of the function are made counts. -/
theorem congr {taken' : BlockId → Prop} {made' : BlockId → BlockId → Prop} (hl : f.Linked)
    (ht : ∀ c, taken c ↔ taken' c) (hm : ∀ a c, c ∈ f.targets a → (made a c ↔ made' a c)) :
    Removing f g taken' made' moves ρ where
  __ := h
  code_taken ha hta := h.code_taken ha ((ht _).mpr hta)
  code_waiting ha hta := h.code_waiting ha fun h' => hta ((ht _).mp h')
  preds hc htc := h.preds hc fun h' => htc ((ht _).mp h')
  moves_ne hne := by
    obtain ⟨c, hc, hmade⟩ := h.moves_ne hne
    have hmem := hl.mem_succs.mp (hc ▸ List.mem_singleton_self c)
    exact ⟨c, hc, (hm _ _ hmem).mp hmade⟩
  way hc hmade := h.way hc ((hm _ _ hc).mpr hmade)
  waiting hc hn := h.waiting hc fun h' => hn ((hm _ _ hc).mp h')

end

end Removing

/-! ### All edges, all blocks -/

theorem mem_code_of_mem_phis {b : BlockId} (h : i ∈ f.phis b) : i ∈ f.code b :=
  (List.takeWhile_sublist _).subset h

theorem removeFrom_nil (c : BlockId) : ∀ (preds : List BlockId) (g : Func), Func.removeFrom c [] preds g = .ok g
  | [], _ => rfl
  | _ :: preds, g => removeFrom_nil c preds g

section All

variable {f : Func} (hr : f.Regular) (hn : ∀ b, (definedIds (f.phis b)).Nodup)

include hr

theorem hasEntries {b p : BlockId} (h : p ∈ f.preds b) : HasEntries p (f.phis b) := by
  intro i hi
  have hphi := List.mem_takeWhile_imp hi
  cases i with
  | phi target entries =>
    have hmem := (hr.entries (mem_code_of_mem_phis hi)).mem_iff.mpr h
    obtain ⟨e, he, rfl⟩ := List.mem_map.mp hmem
    exact ⟨target, entries, rfl, e.1, he⟩
  | _ => cases hphi

include hn in
theorem pending_phiCopies (p b : BlockId) : Copies.Pending f.valueCount (phiCopies p (f.phis b)) where
  nodup := (hn b).sublist (targets_phiCopies_sublist p (f.phis b))
  target_lt c hc := by
    obtain ⟨entries, hmem, -⟩ := mem_phiCopies hc
    exact hr.target_id_lt b _ (mem_code_of_mem_phis hmem) c.target rfl
  source_lt c hc := by
    obtain ⟨entries, hmem, he⟩ := mem_phiCopies hc
    exact hr.operand_id_lt b _ (mem_code_of_mem_phis hmem) c.source (List.mem_map.mpr ⟨_, he, rfl⟩)

include hn in
/-- The copies of all edges into a block are made one after another. -/
theorem removeFrom_removing {c : BlockId} (hc : c < f.blocks.size) {taken : BlockId → Prop} (ht : taken c) :
    ∀ (preds : List BlockId) {g : Func} {made : BlockId → BlockId → Prop} {moves : BlockId → List Copy}
      {ρ : BlockId → BlockId → BlockId}, Removing f g taken made moves ρ → preds.Nodup →
      (∀ p ∈ preds, c ∈ f.targets p ∧ ¬ made p c) →
      ∃ g' moves' ρ', Func.removeFrom c (f.phis c) preds g = .ok g' ∧
        Removing f g' taken (fun a d => made a d ∨ a ∈ preds ∧ d = c) moves' ρ' := by
  intro preds
  induction preds with
  | nil =>
    intro g made moves ρ h _ _
    exact ⟨g, moves, ρ, rfl, h.congr hr.linked (fun _ => Iff.rfl) fun _ _ _ => by simp⟩
  | cons p preds ih =>
    intro g made moves ρ h hnd hpreds
    obtain ⟨hpc, hm⟩ := hpreds p List.mem_cons_self
    rw [List.nodup_cons] at hnd
    have hcopies := edgeCopies_eq g c p (f.phis c)
      (hasEntries hr (hr.linked.mem_preds.mpr (hr.linked.mem_succs.mpr hpc)))
    -- one edge more is made, with or without copies
    have hstep : ∃ g₁ moves₁ ρ₁,
        Func.removeFrom c (f.phis c) (p :: preds) g = Func.removeFrom c (f.phis c) preds g₁ ∧
          Removing f g₁ taken (fun a d => made a d ∨ a = p ∧ d = c) moves₁ ρ₁ := by
      cases hnone : phiCopies p (f.phis c) with
      | nil =>
        refine ⟨g, moves, ρ, ?_, h.noCopies hr.linked hpc hm hnone⟩
        rw [Func.removeFrom, hcopies, hnone]
      | cons k ks =>
        obtain ⟨moves₁, ρ₁, h₁⟩ := h.copyOnEdge hr.linked hpc hm hc ht (pending_phiCopies hr hn p c)
        refine ⟨_, moves₁, ρ₁, ?_, h₁⟩
        rw [Func.removeFrom, hcopies, hnone]
    obtain ⟨g₁, moves₁, ρ₁, heq, h₁⟩ := hstep
    obtain ⟨g', moves', ρ', heq', h'⟩ := ih h₁ hnd.2 fun q hq =>
      ⟨(hpreds q (List.mem_cons_of_mem p hq)).1, by
        rintro (hmade | ⟨rfl, -⟩)
        · exact (hpreds q (List.mem_cons_of_mem p hq)).2 hmade
        · exact hnd.1 hq⟩
    refine ⟨g', moves', ρ', heq.trans heq', h'.congr hr.linked (fun _ => Iff.rfl) fun a d _ => ?_⟩
    rw [List.mem_cons]
    tauto

include hn in
/-- A block loses its phis to the edges into it. -/
theorem removeBlockPhis_removing {b : BlockId} (hb : b < f.blocks.size) {taken : BlockId → Prop}
    (ht : ¬ taken b) {g : Func} {moves : BlockId → List Copy} {ρ : BlockId → BlockId → BlockId}
    (h : Removing f g taken (fun _ d => taken d) moves ρ) :
    ∃ g' moves' ρ', g.removeBlockPhis b = .ok g' ∧
      Removing f g' (fun d => taken d ∨ d = b) (fun _ d => taken d ∨ d = b) moves' ρ' := by
  have hphis := (h.body_code hr.linked hb ht).1
  have hpreds := h.preds hb ht
  obtain ⟨blk, hblk, hcode⟩ := Func.exists_block (Nat.lt_of_lt_of_le hb h.size_le)
  have hblkphis : blk.phis = f.phis b := by
    rw [← hphis, Func.phis, hcode]
    rfl
  have hblkpreds : blk.preds = f.preds b := by
    rw [← hpreds, Func.preds, hblk]
    rfl
  obtain ⟨g', moves', ρ', heq, h'⟩ := removeFrom_removing hr hn hb (.inr rfl) (f.preds b)
    (h.strip hr.linked hb ht) (hr.nodup_preds b) fun p hp =>
      ⟨hr.linked.mem_succs.mp (hr.linked.mem_preds.mp hp), ht⟩
  have hedges : Removing f g' (fun d => taken d ∨ d = b) (fun _ d => taken d ∨ d = b) moves' ρ' := by
    refine h'.congr hr.linked (fun _ => Iff.rfl) fun a d had => ?_
    have hmem : d = b → a ∈ f.preds b := fun he =>
      hr.linked.mem_preds.mpr (hr.linked.mem_succs.mpr (he ▸ had))
    tauto
  unfold Func.removeBlockPhis
  simp only [hblk, hblkphis, hblkpreds]
  split_ifs with hnone
  · have hnil := List.isEmpty_iff.mp hnone
    have hself : g.modifyBlock b (fun blk => { blk with code := blk.body }) = g := by
      refine Func.modifyBlock_eq_self fun blk' hblk' => ?_
      obtain rfl : blk = blk' := Option.some.inj (hblk.symm.trans hblk')
      have hbody : blk.body = blk.code := by
        have := List.takeWhile_append_dropWhile (p := Instr.isPhi) (l := blk.code)
        rwa [show blk.code.takeWhile Instr.isPhi = [] from hblkphis.trans hnil, List.nil_append] at this
      rw [hbody]
    rw [hself, hnil, removeFrom_nil] at heq
    obtain rfl := Except.ok.inj heq
    exact ⟨g, moves', ρ', rfl, hedges⟩
  · exact ⟨g', moves', ρ', heq, hedges⟩

include hn in
/-- All blocks of a list lose their phis, which are counted. -/
theorem removePhisOf_removing : ∀ (bs : List BlockId) {taken : BlockId → Prop} {g : Func}
    {moves : BlockId → List Copy} {ρ : BlockId → BlockId → BlockId}, bs.Nodup →
    (∀ b ∈ bs, b < f.blocks.size ∧ ¬ taken b) → Removing f g taken (fun _ d => taken d) moves ρ →
    ∃ g' moves' ρ', Func.removePhisOf bs g = .ok (g', (bs.map fun b => (f.phis b).length).sum) ∧
      Removing f g' (fun d => taken d ∨ d ∈ bs) (fun _ d => taken d ∨ d ∈ bs) moves' ρ' := by
  intro bs
  induction bs with
  | nil =>
    intro taken g moves ρ _ _ h
    exact ⟨g, moves, ρ, rfl, h.congr hr.linked (fun _ => by simp) fun _ _ _ => by simp⟩
  | cons b bs ih =>
    intro taken g moves ρ hnd hbs h
    rw [List.nodup_cons] at hnd
    obtain ⟨hb, ht⟩ := hbs b List.mem_cons_self
    have hcount : ((g.block? b).map fun blk => blk.phis.length).getD 0 = (f.phis b).length := by
      obtain ⟨blk, hblk, hcode⟩ := Func.exists_block (Nat.lt_of_lt_of_le hb h.size_le)
      rw [← (h.body_code hr.linked hb ht).1, Func.phis, hcode, hblk]
      rfl
    obtain ⟨g₁, moves₁, ρ₁, heq₁, h₁⟩ := removeBlockPhis_removing hr hn hb ht h
    obtain ⟨g', moves', ρ', heq', h'⟩ := ih hnd.2 (fun c hc =>
      ⟨(hbs c (List.mem_cons_of_mem b hc)).1, by
        rintro (htc | rfl)
        · exact (hbs c (List.mem_cons_of_mem b hc)).2 htc
        · exact hnd.1 hc⟩) h₁
    refine ⟨g', moves', ρ', ?_, ?_⟩
    · simp only [Func.removePhisOf, heq₁, bind, Except.bind, heq', hcount]
      rfl
    · refine h'.congr hr.linked (fun d => ?_) fun _ d _ => ?_ <;>
        rw [List.mem_cons] <;> tauto

end All

/-- The number of phis. -/
def Func.phiCount (f : Func) : Nat := (f.blocks.toList.map fun blk => blk.code.countP Instr.isPhi).sum

theorem sum_phis (hr : f.Regular) :
    ((List.range f.blocks.size).map fun b => (f.phis b).length).sum = f.phiCount := by
  unfold Func.phiCount
  congr 1
  refine List.ext_getElem (by simp) fun b hb hb' => ?_
  rw [List.length_map, Array.length_toList] at hb'
  rw [List.getElem_map, List.getElem_map, List.getElem_range, Array.getElem_toList]
  obtain ⟨blk, hblk, hcode⟩ := Func.exists_block hb'
  have hget : f.blocks[b] = blk := Option.some.inj ((Array.getElem?_eq_getElem hb').symm.trans hblk)
  have hbody : (f.body b).countP Instr.isPhi = 0 := List.countP_eq_zero.mpr fun i hi => by
    simp [hr.phis_first b i hi]
  have hphis : (f.phis b).countP Instr.isPhi = (f.phis b).length :=
    List.countP_eq_length.mpr fun i hi => List.mem_takeWhile_imp hi
  rw [hget, ← hcode, ← List.takeWhile_append_dropWhile (p := Instr.isPhi) (l := f.code b),
    List.countP_append]
  change _ = (f.phis b).countP _ + (f.body b).countP _
  rw [hphis, hbody, Nat.add_zero]

/-- A function without its phis. -/
structure Removed (f g : Func) (moves : BlockId → List Copy) (ρ : BlockId → BlockId → BlockId) : Prop where
  head : g.head = f.head
  size_le : f.blocks.size ≤ g.blocks.size
  code : ∀ {a}, a < f.blocks.size → g.code a = reshape (moves a) (ρ a) (f.body a)
  moves_ne : ∀ {a}, moves a ≠ [] → ∃ c, f.succs a = [c]
  way : ∀ {a c}, c ∈ f.targets a → Way f g (moves a) a c (ρ a c)
  split : ∀ {s}, f.blocks.size ≤ s → ∀ i ∈ g.code s, i.isPhi = false

/-- The phis of a function are taken out, and all of them are counted. -/
theorem removePhis_shape (hr : f.Regular) (hn : ∀ b, (definedIds (f.phis b)).Nodup) :
    ∃ g moves ρ, f.removePhis = .ok (g, f.phiCount) ∧ Removed f g moves ρ := by
  obtain ⟨g, moves, ρ, heq, h⟩ := removePhisOf_removing hr hn (List.range f.blocks.size)
    List.nodup_range (fun b hb => ⟨List.mem_range.mp hb, id⟩) (removing_start f)
  rw [sum_phis hr, ← hr.indexed.ids] at heq
  refine ⟨g, moves, ρ, heq, h.head, h.size_le, fun ha => ?_, fun hne => ?_, fun hc => ?_, h.split⟩
  · exact h.code_taken ha (.inr (List.mem_range.mpr ha))
  · obtain ⟨c, hc, -⟩ := h.moves_ne hne
    exact ⟨c, hc⟩
  · exact h.way hc (.inr (List.mem_range.mpr (hr.target_lt hc)))

end Chordal.Ssa
