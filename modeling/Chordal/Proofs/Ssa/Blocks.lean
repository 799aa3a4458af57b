/-
# Blocks under changes of a function

What the code and the edges of a block are after a change of the function that
holds it. Each operation on functions changes one or two blocks and leaves the
rest as they are.

Key definitions: `Func.Indexed`, `Func.held`, `Func.preds`, `Func.succs`, `Func.targets`, `Func.head`.
Key theorems: `Func.code_modifyBlock`, `Func.held_modifyBlock`, `Func.held_splitEdge`.
-/
import Mathlib
import Chordal.Proofs.Ssa.Steps

namespace Chordal.Ssa

namespace Func

theorem block?_modifyBlock (f : Func) (b : BlockId) (g : Block → Block) (c : BlockId) :
    (f.modifyBlock b g).block? c = if c = b then (f.block? b).map g else f.block? c := by
  unfold modifyBlock block?
  simp only [Array.getElem?_modify]
  by_cases h : b = c
  · rw [if_pos h, if_pos h.symm, h]
  · rw [if_neg h, if_neg (Ne.symm h)]

variable {f : Func} {b a : BlockId}

/-- A change that leaves the block as it is. -/
theorem modifyBlock_eq_self {g : Block → Block} (h : ∀ blk, f.block? b = some blk → g blk = blk) :
    f.modifyBlock b g = f := by
  have hblocks : f.blocks.modify b g = f.blocks := by
    refine Array.ext_getElem? fun c => ?_
    have hc := block?_modifyBlock f b g c
    unfold modifyBlock block? at hc
    rw [hc]
    split_ifs with he
    · rw [he]
      cases hblk : f.blocks[b]? with
      | none => rfl
      | some blk => exact congrArg some (h blk hblk)
    · rfl
  unfold modifyBlock
  rw [hblocks]

/-- Every block bears the number of its place. -/
def Indexed (f : Func) : Prop := ∀ b blk, f.block? b = some blk → blk.id = b

theorem Indexed.ids (h : f.Indexed) : f.blocks.toList.map Block.id = List.range f.blocks.size := by
  refine List.ext_getElem (by simp) fun b hb _ => ?_
  rw [List.length_map, Array.length_toList] at hb
  rw [List.getElem_map, List.getElem_range, Array.getElem_toList]
  exact h b _ (Array.getElem?_eq_getElem hb)

@[simp] theorem size_modifyBlock (f : Func) (b : BlockId) (g : Block → Block) :
    (f.modifyBlock b g).blocks.size = f.blocks.size := Array.size_modify

theorem exists_block (h : b < f.blocks.size) :
    ∃ blk, f.block? b = some blk ∧ f.code b = blk.code := by
  refine ⟨f.blocks[b], Array.getElem?_eq_getElem h, ?_⟩
  unfold code block?
  rw [Array.getElem?_eq_getElem h]
  rfl

/-- A change of the code of one block. -/
theorem code_modifyBlock (f : Func) (k : Block → List Instr) (hb : b < f.blocks.size) (c : BlockId) :
    (f.modifyBlock b fun blk => { blk with code := k blk }).code c =
      if c = b then ((f.block? b).map k).getD [] else f.code c := by
  obtain ⟨blk, hblk, -⟩ := exists_block hb
  unfold code
  rw [block?_modifyBlock]
  by_cases h : c = b
  · rw [if_pos h, if_pos h, hblk]
    rfl
  · rw [if_neg h, if_neg h]

/-- A list that each block holds; it is empty where there is no block. -/
def held {α : Type} (field : Block → List α) (f : Func) (b : BlockId) : List α :=
  ((f.block? b).map field).getD []

theorem lt_of_block? {blk : Block} (h : f.block? b = some blk) :
    b < f.blocks.size := (Array.getElem?_eq_some_iff.mp h).1

theorem block?_of_size_le (h : f.blocks.size ≤ b) : f.block? b = none :=
  Array.getElem?_eq_none h

section Held

variable {α : Type} (field : Block → List α) (f : Func) (c : BlockId)

theorem held_of_size_le (h : f.blocks.size ≤ c) : held field f c = [] := by
  unfold held
  rw [block?_of_size_le h]
  rfl

theorem lt_of_mem_held {a : α} (h : a ∈ held field f c) : c < f.blocks.size := by
  by_contra hge
  rw [held_of_size_le field f c (Nat.not_lt.mp hge)] at h
  cases h

/-- A change of a block that leaves the list as it is. -/
theorem held_modifyBlock (b : BlockId) {g : Block → Block} (hg : ∀ blk, field (g blk) = field blk) :
    held field (f.modifyBlock b g) c = held field f c := by
  unfold held
  rw [block?_modifyBlock]
  split_ifs with h
  · rw [h, Option.map_map, show field ∘ g = field from funext hg]
  · rfl

theorem held_addBlock (kind : String) (h : field (.empty f.blocks.size kind) = []) :
    held field (f.addBlock kind).2 c = held field f c := by
  unfold addBlock held block?
  simp only
  rw [Array.getElem?_push]
  split_ifs with hc
  · rw [hc, Array.getElem?_eq_none le_rfl]
    exact h
  · rfl

end Held

theorem code_of_size_le (h : f.blocks.size ≤ b) : f.code b = [] :=
  held_of_size_le Block.code f b h

theorem lt_of_mem_code {i : Instr} (h : i ∈ f.code b) : b < f.blocks.size :=
  lt_of_mem_held Block.code f b h

theorem code_push (f : Func) (i : Instr) (hb : b < f.blocks.size) (c : BlockId) :
    (f.push b i).code c = if c = b then f.code b ++ [i] else f.code c := by
  unfold push
  rw [code_modifyBlock f (fun blk => blk.code ++ [i]) hb]
  obtain ⟨blk, hblk, hcode⟩ := exists_block hb
  rw [hblk, hcode]
  rfl

@[simp] theorem size_push (f : Func) (b : BlockId) (i : Instr) :
    (f.push b i).blocks.size = f.blocks.size := size_modifyBlock ..

@[simp] theorem code_addEdge (f : Func) (a b c : BlockId) : (f.addEdge a b).code c = f.code c := by
  change held Block.code (f.addEdge a b) c = held Block.code f c
  unfold addEdge
  split_ifs
  · rw [held_modifyBlock, held_modifyBlock]
    · exact fun _ => rfl
    · exact fun _ => rfl
  · rfl

@[simp] theorem size_addEdge (f : Func) (a b : BlockId) :
    (f.addEdge a b).blocks.size = f.blocks.size := by
  unfold addEdge
  split_ifs <;> simp

@[simp] theorem valueCount_addEdge (f : Func) (a b : BlockId) :
    (f.addEdge a b).valueCount = f.valueCount := by
  unfold addEdge
  split_ifs <;> rfl

@[simp] theorem size_addBlock (f : Func) (kind : String) :
    (f.addBlock kind).2.blocks.size = f.blocks.size + 1 := Array.size_push ..

@[simp] theorem code_addBlock (f : Func) (kind : String) (c : BlockId) :
    (f.addBlock kind).2.code c = f.code c := held_addBlock Block.code f c kind rfl

/-! ### Edges -/

/-- The predecessors that a block lists. -/
def preds (f : Func) (b : BlockId) : List BlockId := ((f.block? b).map Block.preds).getD []

/-- The successors that a block lists. -/
def succs (f : Func) (b : BlockId) : List BlockId := ((f.block? b).map Block.succs).getD []

/-- Where the terminator of a block sends control. -/
def targets (f : Func) (b : BlockId) : List BlockId := ((f.block? b).map Block.targets).getD []

theorem preds_of_size_le (h : f.blocks.size ≤ b) : f.preds b = [] :=
  held_of_size_le Block.preds f b h

theorem lt_of_mem_preds (h : a ∈ f.preds b) : b < f.blocks.size :=
  lt_of_mem_held Block.preds f b h

theorem lt_of_mem_succs (h : b ∈ f.succs a) : a < f.blocks.size :=
  lt_of_mem_held Block.succs f a h

theorem lt_of_mem_targets (h : b ∈ f.targets a) : a < f.blocks.size :=
  lt_of_mem_held Block.targets f a h

theorem targets_eq (f : Func) (b : BlockId) :
    f.targets b = ((f.code b).getLast?.map Instr.successors).getD [] := by
  unfold targets code
  cases hblk : f.block? b with
  | none => rfl
  | some blk =>
    simp only [Option.map_some, Option.getD_some, Block.targets, Block.terminator?]
    cases blk.code.getLast? with
    | none => rfl
    | some i => cases i <;> rfl

theorem targets_of_code {front : List Instr} {last : Instr} (h : f.code b = front ++ [last]) :
    f.targets b = last.successors := by
  rw [targets_eq, h, List.getLast?_concat, Option.map_some, Option.getD_some]

/-- A block that sends control somewhere ends in a terminator. -/
theorem exists_last (h : b ∈ f.targets a) :
    ∃ front last, f.code a = front ++ [last] ∧ last.isTerminator = true ∧ b ∈ last.successors := by
  rw [targets_eq] at h
  cases hlast : (f.code a).getLast? with
  | none =>
    rw [hlast] at h
    cases h
  | some last =>
    rw [hlast] at h
    refine ⟨(f.code a).dropLast, last, (List.dropLast_append_getLast? last hlast).symm, ?_, h⟩
    cases last <;> first | rfl | cases h

theorem succs_modifyBlock_code (f : Func) (b : BlockId) (k : Block → List Instr) (c : BlockId) :
    (f.modifyBlock b fun blk => { blk with code := k blk }).succs c = f.succs c :=
  held_modifyBlock Block.succs f c b fun _ => rfl

theorem preds_modifyBlock_code (f : Func) (b : BlockId) (k : Block → List Instr) (c : BlockId) :
    (f.modifyBlock b fun blk => { blk with code := k blk }).preds c = f.preds c :=
  held_modifyBlock Block.preds f c b fun _ => rfl

/-! ### Edges with a new block on them -/

/-- The block `c` when the block `n` is put on the edge from `a` to `b`. -/
def besideSplit (a b n c : BlockId) (blk : Block) : Block :=
  { blk with
    code := if c = a then retargetLast b n blk.code else blk.code
    succs := if c = a then replaceAll b n blk.succs else blk.succs
    preds := if c = b then replaceAll a n blk.preds else blk.preds }

section Split

variable (f : Func) {a b : BlockId} (ha : a < f.blocks.size) (hb : b < f.blocks.size) (c : BlockId)

include ha hb

theorem block?_splitEdge : (f.splitEdge a b).2.block? c =
    if c = f.blocks.size then some ⟨f.blocks.size, "split", [.jump b], [a], [b]⟩
    else (f.block? c).map (besideSplit a b f.blocks.size c) := by
  have has : a ≠ f.blocks.size := Nat.ne_of_lt ha
  have hbs : b ≠ f.blocks.size := Nat.ne_of_lt hb
  have hnew : (f.addBlock "split").2.block? f.blocks.size = some (.empty f.blocks.size "split") := by
    unfold addBlock block?
    exact Array.getElem?_push_size
  have hold : c ≠ f.blocks.size → (f.addBlock "split").2.block? c = f.block? c := by
    intro hc
    unfold addBlock block?
    simp only
    rw [Array.getElem?_push, if_neg hc]
  unfold splitEdge besideSplit
  simp only [show (f.addBlock "split").1 = f.blocks.size from rfl, if_pos (Nat.le_of_lt ha),
    if_pos (Nat.le_of_lt hb), block?_modifyBlock]
  by_cases hcs : c = f.blocks.size
  · rw [if_pos hcs, if_pos hcs, if_neg hbs.symm, if_neg has.symm, hnew]
    rfl
  · rw [if_neg hcs, if_neg hcs]
    by_cases hcb : c = b
    · subst hcb
      by_cases hca : c = a
      · subst hca
        simp only [if_true, hold hcs, Option.map_map]
        rfl
      · simp only [if_true, if_neg hca, hold hcs]
    · by_cases hca : c = a
      · subst hca
        simp only [if_true, if_neg hcb, hold hcs]
      · simp only [if_neg hca, if_neg hcb, hold hcs]
        simp

theorem size_splitEdge : (f.splitEdge a b).2.blocks.size = f.blocks.size + 1 := by
  unfold splitEdge
  simp only [show (f.addBlock "split").1 = f.blocks.size from rfl, if_pos (Nat.le_of_lt ha),
    if_pos (Nat.le_of_lt hb), size_modifyBlock, size_addBlock]

/-- A list that changes at the block `d` only. -/
theorem held_splitEdge {α : Type} (field : Block → List α) (k : List α → List α) (d : BlockId)
    (hfield : ∀ blk, field (besideSplit a b f.blocks.size c blk) = if c = d then k (field blk) else field blk)
    (hd : d < f.blocks.size) :
    held field (f.splitEdge a b).2 c =
      if c = f.blocks.size then field ⟨f.blocks.size, "split", [.jump b], [a], [b]⟩
      else if c = d then k (held field f d) else held field f c := by
  unfold held
  rw [block?_splitEdge f ha hb]
  split_ifs with hcs hcd
  · rfl
  · subst hcd
    obtain ⟨blk, hblk, -⟩ := exists_block hd
    simp [hblk, hfield]
  · rw [Option.map_map]
    congr 2
    funext blk
    exact (hfield blk).trans (if_neg hcd)

theorem code_splitEdge : (f.splitEdge a b).2.code c =
    if c = f.blocks.size then [.jump b]
    else if c = a then retargetLast b f.blocks.size (f.code a) else f.code c :=
  held_splitEdge f ha hb c Block.code _ a (fun _ => rfl) ha

theorem succs_splitEdge : (f.splitEdge a b).2.succs c =
    if c = f.blocks.size then [b]
    else if c = a then replaceAll b f.blocks.size (f.succs a) else f.succs c :=
  held_splitEdge f ha hb c Block.succs _ a (fun _ => rfl) ha

theorem preds_splitEdge : (f.splitEdge a b).2.preds c =
    if c = f.blocks.size then [a]
    else if c = b then replaceAll a f.blocks.size (f.preds b) else f.preds c :=
  held_splitEdge f ha hb c Block.preds _ b (fun _ => rfl) hb

end Split

/-! ### Heads -/

/-- What a function is and where it starts. -/
def head (f : Func) : String × Ty × Bool × BlockId := (f.name, f.returns, f.isEntry, f.start)

theorem head_addEdge (f : Func) (a b : BlockId) : (f.addEdge a b).head = f.head := by
  unfold addEdge
  split_ifs <;> rfl

end Func

end Chordal.Ssa
