/-
# Where code stands in a listing

Code for a function can be written if its values have places and its blocks have
labels. It is then one block behind another, each under its own label, so a jump
to the label of a block leads to the code of that block, with the blocks that
follow it in the layout behind it.

A label that is made gets a number of its own, and its name stays where it is in
the table, whatever labels are made later. So its address is resolved to that name.

Key definitions: `Context.Serves`, `Context.lines`, `LabelTable.Has`.
Key theorems: `Context.lowerInstr_whole`, `Context.lowerBlocks_cons`,
`Context.after?_lowerBlocks`, `LabelTable.Has.resolve_eq`, `has_blockLabel`.
-/
import Mathlib
import Chordal.Asm.Lowering
import Chordal.Proofs.Asm.Machine
import Chordal.Proofs.Finite

namespace Chordal.Asm

open Ssa (BlockId)

/-! ### Emissions -/

namespace Emission

theorem ofInstrs_ok (code : List Instr) : ofInstrs (.ok code) = whole (code.map .instr) := rfl

theorem eq_whole {e : Emission} (h : e.failure = none) : e = whole e.lines := by
  obtain ⟨lines, failure⟩ := e
  obtain rfl : failure = none := h
  rfl

/-- Whole emissions make a whole one. -/
theorem join_whole {α : Type} {f : α → Emission} : ∀ {l : List α}, (∀ a ∈ l, (f a).failure = none) →
    join (l.map f) = whole (l.flatMap fun a => (f a).lines)
  | [], _ => rfl
  | a :: l, h => by
    have ih := join_whole fun b hb => h b (List.mem_cons_of_mem a hb)
    have ha := eq_whole (h a List.mem_cons_self)
    unfold join at ih ⊢
    rw [List.map_cons, List.foldr_cons, ih, ha]
    rfl

theorem mem_ofInstrs {x : Except Failure (List Instr)} {line : Line} (h : line ∈ (ofInstrs x).lines) :
    ∃ i, line = .instr i := by
  cases x with
  | error e => cases h
  | ok code =>
    obtain ⟨i, -, rfl⟩ := List.mem_map.mp h
    exact ⟨i, rfl⟩

theorem mem_append {a b : Emission} {line : Line} (h : line ∈ (a.append b).lines) :
    line ∈ a.lines ∨ line ∈ b.lines := by
  unfold append at h
  split at h
  · exact .inl h
  · exact List.mem_append.mp h

end Emission

/-! ### Code for one instruction -/

namespace Context

/-- An instruction that code can be written for: it is no phi, its values have
places, and the blocks it leads to have labels. -/
structure Serves (c : Context) (i : Ssa.Instr) : Prop where
  phi : i.isPhi = false
  target : ∀ t, i.target? = some t → ∃ loc, c.placement.locations.get? t.id = some loc
  operand : ∀ v ∈ i.operands, ∃ loc, c.placement.locations.get? v.id = some loc
  label : ∀ b ∈ i.successors, ∃ l, c.labels.get? b = some l

variable {c : Context} {b : BlockId} {l : Label}

theorem operand_eq {v : Ssa.Value} {loc : Location} (h : c.placement.locations.get? v.id = some loc) :
    c.operand v = .ok (.ofLocation loc) := by
  unfold operand
  rw [h]

theorem label_eq (h : c.labels.get? b = some l) : c.label b = .ok l := by
  unfold label
  rw [h]

/-- A jump to the block `t` with the label `l`. -/
def jumpCode (next : Option BlockId) (t : BlockId) (l : Label) : List Instr :=
  if next = some t then [] else [.jmp l.address]

/-- The jumps of a branch to `t` or `e`, with the labels `lt` and `le`. -/
def branchCode (next : Option BlockId) (t e : BlockId) (lt le : Label) : List Instr :=
  if next = some t then [.jcc .equal le.address] else .jcc .notEqual lt.address :: jumpCode next e le

theorem lowerJump_ok {t : BlockId} (h : c.labels.get? t = some l) (next : Option BlockId) :
    c.lowerJump next t = .ok (jumpCode next t l) := by
  unfold lowerJump jumpCode
  rw [label_eq h]
  split_ifs <;> rfl

theorem lowerBranch_whole {t e : BlockId} {lt le : Label} (ht : c.labels.get? t = some lt)
    (he : c.labels.get? e = some le) (next : Option BlockId) :
    c.lowerBranch next t e = .whole ((branchCode next t e lt le).map .instr) := by
  unfold lowerBranch branchCode
  rw [lowerJump_ok he, label_eq ht, label_eq he]
  split_ifs <;> rfl

theorem lowerInstr_whole {i : Ssa.Instr} (h : c.Serves i) (b : BlockId) (next : Option BlockId) :
    (c.lowerInstr b next i).failure = none := by
  cases i with
  | const t w | bool t w =>
    obtain ⟨loc, hloc⟩ := h.target t rfl
    rw [lowerInstr, operand_eq hloc]
    rfl
  | move t v | unary t op v =>
    obtain ⟨loc, hloc⟩ := h.target t rfl
    obtain ⟨locv, hlocv⟩ := h.operand v (List.mem_singleton_self v)
    rw [lowerInstr, operand_eq hloc, operand_eq hlocv]
    rfl
  | binary t op v u =>
    obtain ⟨loc, hloc⟩ := h.target t rfl
    obtain ⟨locv, hlocv⟩ := h.operand v List.mem_cons_self
    obtain ⟨locu, hlocu⟩ := h.operand u (List.mem_cons_of_mem v (List.mem_singleton_self u))
    rw [lowerInstr, operand_eq hloc, operand_eq hlocv, operand_eq hlocu]
    rfl
  | phi t entries => cases h.phi
  | jump t =>
    obtain ⟨l, hl⟩ := h.label t (List.mem_singleton_self t)
    rw [lowerInstr, lowerJump_ok hl]
    rfl
  | branch v t e =>
    obtain ⟨locv, hlocv⟩ := h.operand v (List.mem_singleton_self v)
    obtain ⟨lt, ht⟩ := h.label t List.mem_cons_self
    obtain ⟨le, he⟩ := h.label e (List.mem_cons_of_mem t (List.mem_singleton_self e))
    rw [lowerInstr, operand_eq hlocv, lowerBranch_whole ht he]
    rfl
  | ret v =>
    obtain ⟨locv, hlocv⟩ := h.operand v (List.mem_singleton_self v)
    rw [lowerInstr, operand_eq hlocv]
    rfl

/-! ### Code for blocks -/

/-- The lines for instructions of a block. -/
def lines (c : Context) (b : BlockId) (next : Option BlockId) (code : List Ssa.Instr) : Listing :=
  code.flatMap fun i => (c.lowerInstr b next i).lines

variable {c : Context}

theorem lines_cons (b : BlockId) (next : Option BlockId) (i : Ssa.Instr) (code : List Ssa.Instr) :
    c.lines b next (i :: code) = (c.lowerInstr b next i).lines ++ c.lines b next code := rfl

/-- The blocks of `order` have labels, and code can be written for them. -/
structure Complete (c : Context) (order : List BlockId) : Prop where
  label : ∀ b ∈ order, ∃ l, c.labels.get? b = some l
  serves : ∀ b ∈ order, ∀ i ∈ c.linear.code b, c.Serves i

theorem Complete.tail {order : List BlockId} (h : c.Complete (b :: order)) : c.Complete order :=
  ⟨fun a ha => h.label a (List.mem_cons_of_mem b ha), fun a ha => h.serves a (List.mem_cons_of_mem b ha)⟩

/-- What is written for blocks, from the first one on. -/
theorem lowerBlocks_cons {order : List BlockId} (h : c.Complete (b :: order))
    (hl : c.labels.get? b = some l) :
    c.lowerBlocks (b :: order) = ⟨.label l :: c.lines b order.head? (c.linear.code b) ++ (c.lowerBlocks order).lines,
      (c.lowerBlocks order).failure⟩ := by
  have hcode := Emission.join_whole fun i hi => lowerInstr_whole (h.serves b List.mem_cons_self i hi) b order.head?
  rw [lowerBlocks, lowerBlock, label_eq hl]
  simp only [hcode]
  rfl

theorem lowerBlocks_whole : ∀ {order : List BlockId}, c.Complete order → (c.lowerBlocks order).failure = none
  | [], _ => rfl
  | b :: order, h => by
    obtain ⟨l, hl⟩ := h.label b List.mem_cons_self
    rw [lowerBlocks_cons h hl]
    exact lowerBlocks_whole h.tail

end Context

/-! ### Labels -/

theorem Label.address_inj {a b : Label} : a.address = b.address ↔ a = b := by
  refine ⟨fun h => ?_, congrArg _⟩
  cases a
  cases b
  exact congrArg Label.mk (Nat.add_left_cancel h)

namespace LabelTable

/-- The label was made with this name. -/
def Has (names : LabelTable) (l : Label) (name : String) : Prop := names[l.id]? = some name

variable {names names' : LabelTable} {l : Label} {name : String}

theorem has_create (names : LabelTable) (name : String) : (names.create name).2.Has (names.create name).1 name :=
  List.getElem?_concat_length

theorem prefix_create (names : LabelTable) (name : String) : names <+: (names.create name).2 := List.prefix_append _ _

/-- Labels that are made later change no name. -/
theorem Has.mono (h : names.Has l name) (hle : names <+: names') : names'.Has l name := by
  obtain ⟨more, rfl⟩ := hle
  exact (List.getElem?_append_left (List.getElem?_eq_some_iff.mp h).1).trans h

theorem Has.name_eq (h : names.Has l name) : names.name l = name := by
  unfold LabelTable.name
  rw [h]
  rfl

/-- The address of a label is resolved to the name that the label was made with. -/
theorem Has.resolve_eq (h : names.Has l name) : names.resolve l.address = name := by
  unfold resolve symbol? Label.address
  rw [if_neg (Nat.not_lt.mpr (Nat.le_add_right _ _)), Nat.add_sub_cancel_left, h]
  rfl

end LabelTable

theorem after?_append {address : Nat} : ∀ (front rest : Listing),
    (∀ l, .label l ∈ front → l.address ≠ address) →
    Listing.after? address (front ++ rest) = Listing.after? address rest
  | [], _, _ => rfl
  | line :: front, rest, h => by
    have ih := after?_append front rest fun l hl => h l (List.mem_cons_of_mem line hl)
    cases line with
    | label l =>
      rw [List.cons_append, Listing.after?, if_neg (h l List.mem_cons_self)]
      exact ih
    | directive text => exact ih
    | instr i => exact ih

theorem after?_self (l : Label) (rest : Listing) :
    Listing.after? l.address (.label l :: rest) = some (.label l :: rest) := if_pos rfl

namespace Context

variable {c : Context}

theorem mem_lowerInstr {b : BlockId} {next : Option BlockId} {i : Ssa.Instr} {line : Line}
    (h : line ∈ (c.lowerInstr b next i).lines) : ∃ j, line = .instr j := by
  cases i with
  | branch v t e =>
    rcases Emission.mem_append h with h | h
    · exact Emission.mem_ofInstrs h
    · unfold lowerBranch at h
      split_ifs at h
      · exact Emission.mem_ofInstrs h
      · rcases Emission.mem_append h with h | h
        · exact Emission.mem_ofInstrs h
        · exact Emission.mem_ofInstrs h
  | _ => exact Emission.mem_ofInstrs h

/-- There are no labels in the code of a block. -/
theorem not_label_mem_lines {b : BlockId} {next : Option BlockId} {code : List Ssa.Instr} (l : Label) :
    .label l ∉ c.lines b next code := by
  intro h
  obtain ⟨i, -, hi⟩ := List.mem_flatMap.mp h
  obtain ⟨j, hj⟩ := mem_lowerInstr hi
  cases hj

/-- A jump to a block leads to its code, and what is written behind it. -/
theorem after?_lowerBlocks {b : BlockId} {l : Label} {later : List BlockId} (hl : c.labels.get? b = some l) :
    ∀ {earlier : List BlockId}, c.Complete (earlier ++ b :: later) →
      (∀ a ∈ earlier, ∀ la, c.labels.get? a = some la → la ≠ l) →
      (c.lowerBlocks (earlier ++ b :: later)).lines.after? l.address = some (c.lowerBlocks (b :: later)).lines
  | [], h, _ => by
    rw [List.nil_append, lowerBlocks_cons h hl]
    exact after?_self l _
  | a :: earlier, h, hne => by
    obtain ⟨la, hla⟩ := h.label a List.mem_cons_self
    rw [List.cons_append] at h ⊢
    have ih := after?_lowerBlocks hl h.tail fun d hd => hne d (List.mem_cons_of_mem a hd)
    rw [lowerBlocks_cons h hla, after?_append, ih]
    intro k hk
    rcases List.mem_cons.mp hk with hk | hk
    · rw [Line.label.inj hk]
      exact mt Label.address_inj.mp (hne a List.mem_cons_self la hla)
    · exact absurd hk (not_label_mem_lines k)

end Context

/-! ### The labels of blocks -/

theorem makeLabels_table (f : Ssa.Func) : ∀ (order : List BlockId) (labels : IdMap Label) (names : LabelTable),
    (makeLabels f order labels names).2 = names ++ order.map fun b => blockLabelName f.name (f.label b)
  | [], _, names => (List.append_nil names).symm
  | b :: order, labels, names => by
    rw [makeLabels, makeLabels_table f order]
    simp only [LabelTable.create, List.append_assoc, List.map_cons, List.singleton_append]

/-- Each block gets the next number. -/
theorem get?_makeLabels (f : Ssa.Func) : ∀ (order : List BlockId) (labels : IdMap Label) (names : LabelTable),
    order.Nodup → ∀ b, (makeLabels f order labels names).1.get? b =
      if b ∈ order then some ⟨names.length + order.idxOf b⟩ else labels.get? b
  | [], _, _, _, _ => rfl
  | a :: order, labels, names, hnd, b => by
    rw [List.nodup_cons] at hnd
    rw [makeLabels, get?_makeLabels f order _ _ hnd.2 b, LabelTable.create, IdMap.get?_insert, List.length_append]
    by_cases hab : b = a
    · subst hab
      rw [if_neg hnd.1, if_pos rfl, if_pos List.mem_cons_self, List.idxOf_cons_self, Nat.add_zero]
    · rw [List.idxOf_cons_ne order (Ne.symm hab), if_neg hab, List.length_singleton, Nat.add_right_comm, Nat.add_assoc]
      by_cases hb : b ∈ order
      · rw [if_pos hb, if_pos (List.mem_cons_of_mem a hb)]
      · rw [if_neg hb, if_neg fun hmem => (List.mem_cons.mp hmem).elim hab hb]

section BlockLabels

variable {l : Ssa.Linear} {names : LabelTable} {b : BlockId} {lab : Label}

/-- The table is only made longer. -/
theorem prefix_blockLabels (l : Ssa.Linear) (names : LabelTable) : names <+: (blockLabels l names).2 := by
  unfold blockLabels
  rw [makeLabels_table]
  exact List.prefix_append _ _

theorem exists_blockLabel (hnd : l.order.Nodup) (names : LabelTable) (hb : b ∈ l.order) :
    ∃ lab, (blockLabels l names).1.get? b = some lab := by
  unfold blockLabels
  rw [get?_makeLabels l.func l.order [] names hnd b, if_pos hb]
  exact ⟨_, rfl⟩

/-- The label of a block has a number of its own. -/
theorem id_of_blockLabel (hnd : l.order.Nodup) (h : (blockLabels l names).1.get? b = some lab) :
    b ∈ l.order ∧ lab.id = names.length + l.order.idxOf b := by
  unfold blockLabels at h
  rw [get?_makeLabels l.func l.order [] names hnd b] at h
  split_ifs at h with hb
  · exact ⟨hb, congrArg Label.id (Option.some.inj h).symm⟩
  · cases h

/-- The label of a block has the name of the block in the table. -/
theorem has_blockLabel (hnd : l.order.Nodup) (h : (blockLabels l names).1.get? b = some lab) :
    (blockLabels l names).2.Has lab (blockLabelName l.func.name (l.func.label b)) := by
  obtain ⟨hb, hid⟩ := id_of_blockLabel hnd h
  unfold blockLabels LabelTable.Has
  rw [makeLabels_table, hid, List.getElem?_append_right (Nat.le_add_right _ _), Nat.add_sub_cancel_left,
    List.getElem?_map, List.getElem?_idxOf hb]
  rfl

end BlockLabels

end Chordal.Asm
