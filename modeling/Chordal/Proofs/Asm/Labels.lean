/-
# Labels of a unit

In the text of a unit a label is known by its name only, and the name of a block's
label is glued together from the name of its function, its kind and its number.
Every address in a call or a jump of a unit is that of a label that stands in it,
and is resolved to the name of this label. Whether a name is there once depends on
the names of the functions. The gluing can be undone but for one case: a block of
kind `tern_merge`, and a block of kind `merge` in a function whose name is that of
the first block's function with `_tern` behind it.

Key definitions: `Asm.Sheet.labelNames`, `Asm.Sheet.targetNames`, `Asm.Sheet.Resolved`,
`writeProgram`, `Typed.Program.Clashes`.
Key theorems: `Asm.kinds_of_blockLabelName_eq`, `Asm.labels_emitUnit`, `Asm.resolved_emitUnit`,
`Asm.nodup_unitNames`, `labelNames_nodup_iff`.
-/
import Mathlib
import Chordal.Proofs.Compilation
import Chordal.Proofs.Ssa.BlockKinds

namespace Chordal

/-- The kind of a block. -/
def Ssa.Func.kind (f : Ssa.Func) (b : Ssa.BlockId) : String := ((f.block? b).map Ssa.Block.kind).getD ""

namespace Asm

open Ssa (BlockId)

/-! ### Names -/

theorem underscore_not_mem_toString (n : Nat) : '_' ∉ (toString n).toList := by
  intro h
  rw [Nat.toString_eq_ofList_toDigits, String.toList_ofList] at h
  exact absurd (Nat.isDigit_of_mem_toDigits (by decide) (by decide) h) (by decide)

variable {f f' k k' source : String} {placed : List PlacedFunc} {sheet : Sheet}

/-- The number of a block can be read from its label, and what stands before it. -/
theorem blockLabelName_inj {b b' : BlockId}
    (h : blockLabelName f (k ++ "_" ++ toString b) = blockLabelName f' (k' ++ "_" ++ toString b')) :
    b = b' ∧ f ++ "_" ++ k = f' ++ "_" ++ k' := by
  have hsplit : ∀ (g j : String) (n : Nat), (blockLabelName g (j ++ "_" ++ toString n)).toList =
      (".L_" ++ (g ++ "_" ++ j)).toList ++ '_' :: (toString n).toList := by
    intro g j n
    simp [blockLabelName, String.toList_append]
  have hlist := congrArg String.toList h
  rw [hsplit, hsplit] at hlist
  obtain ⟨hfront, hnumber⟩ :=
    append_cons_inj (underscore_not_mem_toString b) (underscore_not_mem_toString b') hlist
  exact ⟨Nat.repr_injective (String.toList_inj.mp hnumber),
    (String.append_right_inj _).mp (String.toList_inj.mp hfront)⟩

/-- Among the kinds of blocks only `merge` is the end of another, behind an
underscore. -/
theorem kind_of_suffix : ∀ k ∈ Ssa.blockKinds, ∀ k' ∈ Ssa.blockKinds,
    ('_' :: k'.toList) <:+ ('_' :: k.toList) → k = k' ∨ k = "tern_merge" ∧ k' = "merge" := by
  decide +kernel

theorem names_of_suffix {gap : List Char} (hk : k ∈ Ssa.blockKinds) (hk' : k' ∈ Ssa.blockKinds)
    (hf : f'.toList = f.toList ++ gap) (hend : '_' :: k.toList = gap ++ '_' :: k'.toList) :
    f = f' ∧ k = k' ∨ k = "tern_merge" ∧ k' = "merge" ∧ f' = f ++ "_tern" := by
  rcases kind_of_suffix k hk k' hk' ⟨gap, hend.symm⟩ with rfl | ⟨rfl, rfl⟩
  · obtain rfl : gap = [] := List.append_left_eq_self.mp hend.symm
    exact Or.inl ⟨String.toList_inj.mp (by simpa using hf.symm), rfl⟩
  · have hgap : gap = "_tern".toList :=
      List.append_cancel_right (hend.symm.trans (show _ = "_tern".toList ++ '_' :: "merge".toList by decide))
    refine Or.inr ⟨rfl, rfl, String.toList_inj.mp ?_⟩
    rw [hf, hgap, String.toList_append]

/-- Labels of blocks are the same only if all their parts are, or if one function
has the name of the other and `_tern` behind it. -/
theorem kinds_of_blockLabelName_eq {b b' : BlockId} (hk : k ∈ Ssa.blockKinds)
    (hk' : k' ∈ Ssa.blockKinds)
    (h : blockLabelName f (k ++ "_" ++ toString b) = blockLabelName f' (k' ++ "_" ++ toString b')) :
    b = b' ∧ (f = f' ∧ k = k' ∨ (k = "tern_merge" ∧ k' = "merge" ∧ f' = f ++ "_tern") ∨
      (k' = "tern_merge" ∧ k = "merge" ∧ f = f' ++ "_tern")) := by
  obtain ⟨hb, hnames⟩ := blockLabelName_inj h
  have hlist : f.toList ++ '_' :: k.toList = f'.toList ++ '_' :: k'.toList := by
    simpa [String.toList_append] using congrArg String.toList hnames
  refine ⟨hb, ?_⟩
  rcases List.append_eq_append_iff.mp hlist with ⟨gap, hf, hend⟩ | ⟨gap, hf, hend⟩
  · rcases names_of_suffix hk hk' hf hend with hsame | hother
    · exact Or.inl hsame
    · exact Or.inr (Or.inl hother)
  · rcases names_of_suffix hk' hk hf hend with ⟨rfl, rfl⟩ | hother
    · exact Or.inl ⟨rfl, rfl⟩
    · exact Or.inr (Or.inr hother)

theorem blockLabelName_tern (f : String) (b : BlockId) :
    blockLabelName f ("tern_merge" ++ "_" ++ toString b) =
      blockLabelName (f ++ "_tern") ("merge" ++ "_" ++ toString b) := by
  apply String.toList_inj.mp
  simp [blockLabelName, String.toList_append]

theorem functionLabelName_ne_blockLabelName (f g block : String) : functionLabelName f ≠ blockLabelName g block := by
  intro h
  have hlist := congrArg String.toList h
  simp [functionLabelName, blockLabelName, String.toList_append] at hlist

/-! ### Lines that define names and lead to them -/

/-- The name that a line defines. -/
def Line.defines? (names : LabelTable) : Line → Option String
  | .label l => some (names.name l)
  | _ => none

/-- The address to which an instruction may go. -/
def Instr.target? : Instr → Option Nat
  | .call a => some a
  | .jmp a => some a
  | .jcc _ a => some a
  | _ => none

/-- The address in a line. -/
def Line.target? : Line → Option Nat
  | .instr i => i.target?
  | _ => none

namespace Listing

/-- The names that the labels of a listing have, in order. -/
def labelNames (names : LabelTable) (l : Listing) : List String := l.filterMap (Line.defines? names)

/-- The addresses in the calls and jumps of a listing. -/
def targets (l : Listing) : List Nat := l.filterMap Line.target?

theorem labelNames_append (names : LabelTable) (a b : Listing) :
    labelNames names (a ++ b) = labelNames names a ++ labelNames names b := List.filterMap_append

theorem labelNames_eq_nil {names : LabelTable} {l : Listing} (h : ∀ line ∈ l, ∀ k, line ≠ .label k) :
    labelNames names l = [] := by
  refine List.filterMap_eq_nil_iff.mpr fun line hline => ?_
  cases line with
  | label k => exact absurd rfl (h _ hline k)
  | directive text => rfl
  | instr i => rfl

theorem mem_targets {l : Listing} {a : Nat} : a ∈ targets l ↔ ∃ line ∈ l, line.target? = some a := List.mem_filterMap

end Listing

namespace Sheet

/-- The names of the labels of a sheet, in order. -/
def labelNames (s : Sheet) : List String := s.lines.labelNames s.names

/-- The names that stand in the calls and jumps of a sheet. -/
def targetNames (s : Sheet) : List String := s.lines.targets.map s.names.resolve

/-- Every address is that of a label that stands in the sheet, and is resolved to
the name of this label. -/
def Resolved (s : Sheet) : Prop :=
  ∀ a ∈ s.lines.targets, ∃ l, .label l ∈ s.lines ∧ l.address = a ∧ s.names.resolve a = s.names.name l

theorem Resolved.mem_labelNames {s : Sheet} (h : s.Resolved) : ∀ name ∈ s.targetNames, name ∈ s.labelNames := by
  intro name hname
  obtain ⟨a, ha, rfl⟩ := List.mem_map.mp hname
  obtain ⟨l, hl, -, hresolve⟩ := h a ha
  exact List.mem_filterMap.mpr ⟨_, hl, congrArg some hresolve.symm⟩

end Sheet

/-! ### Code for one function -/

/-- Code that goes nowhere else. -/
def Straight (code : List Instr) : Prop := ∀ i ∈ code, i.target? = none

namespace Straight

theorem append {a b : List Instr} (ha : Straight a) (hb : Straight b) : Straight (a ++ b) := fun i hi =>
  (List.mem_append.mp hi).elim (ha i) (hb i)

theorem cons {i : Instr} {code : List Instr} (hi : i.target? = none) (h : Straight code) : Straight (i :: code) :=
  List.forall_mem_cons.mpr ⟨hi, h⟩

theorem nil : Straight [] := fun _ hi => absurd hi List.not_mem_nil

theorem load (r : Reg) (source : Operand) : Straight (Asm.load r source) := by
  unfold Asm.load
  split_ifs
  · exact nil
  · exact cons rfl nil

theorem save (target : Operand) (r : Reg) : Straight (Asm.save target r) := by
  unfold Asm.save
  split
  · split_ifs
    · exact nil
    · exact cons rfl nil
  · exact cons rfl nil

theorem stage (source : Operand) : Straight (Asm.stage source) := by
  cases source with
  | reg r => exact nil
  | frame displacement => exact cons rfl nil

theorem lowerMove (target source : Operand) : Straight (Asm.lowerMove target source) := by
  unfold Asm.lowerMove
  split_ifs
  · exact nil
  · cases target with
    | reg r => exact load r source
    | frame displacement => exact (stage source).append (save _ _)

theorem lowerUnary (op : UnaryOp) (target source : Operand) : Straight (Asm.lowerUnary op target source) :=
  ((load _ source).append (cons (by cases op <;> rfl) nil)).append (save target _)

theorem lowerDivision (result : Reg) (target left right : Operand) :
    Straight (Asm.lowerDivision result target left right) :=
  ((((load .rax left).append (cons rfl nil)).append (stage right)).append (cons rfl nil)).append (save target result)

theorem lowerShift {shift : Reg → Instr} (h : ∀ r, (shift r).target? = none) (target left right : Operand) :
    Straight (Asm.lowerShift shift target left right) :=
  (((load .rcx right).append (load _ left)).append (cons (h _) nil)).append (save target _)

theorem lowerComparison (cond : Cond) (target left right : Operand) :
    Straight (Asm.lowerComparison cond target left right) :=
  ((stage left).append (cons rfl (cons rfl (cons rfl nil)))).append (save target _)

theorem lowerAlu (op : AluOp) (commutes : Bool) (target left right : Operand) :
    Straight (Asm.lowerAlu op commutes target left right) := by
  have hthrough : ∀ r, Straight (Asm.load r left ++ [Instr.alu op r right] ++ Asm.save target r) := fun r =>
    ((load r left).append (cons rfl nil)).append (save target r)
  unfold Asm.lowerAlu
  dsimp only
  split
  · split_ifs
    · exact cons rfl nil
    · exact cons rfl nil
    · exact hthrough _
    · exact hthrough _
  · exact hthrough _

theorem lowerBinary (op : BinaryOp) (target left right : Operand) :
    Straight (Asm.lowerBinary op target left right) := by
  cases op with
  | div | mod => exact lowerDivision _ target left right
  | shl | shr => exact lowerShift (fun _ => rfl) target left right
  | lt | le | gt | ge | eq | ne => exact lowerComparison _ target left right
  | add | sub | mul | and | or | xor => exact lowerAlu _ _ target left right

theorem map {α : Type} {make : α → Instr} (h : ∀ a, (make a).target? = none) (l : List α) : Straight (l.map make) := by
  intro i hi
  obtain ⟨a, -, rfl⟩ := List.mem_map.mp hi
  exact h a

theorem prologue (f : Frame) : Straight f.prologue :=
  (cons rfl (cons rfl (cons rfl nil))).append (map (fun _ => rfl) _)

theorem epilogue (f : Frame) : Straight f.epilogue :=
  (map (fun _ => rfl) _).append (cons rfl (cons rfl (cons rfl nil)))

end Straight

/-- Code that is written without a label, where there is any, goes nowhere else. -/
def Unlabelled (x : Except Failure (List Instr)) : Prop := ∀ code, x = .ok code → Straight code

namespace Unlabelled

theorem pure {code : List Instr} (h : Straight code) : Unlabelled (Pure.pure code) := fun _ heq =>
  Except.ok.inj heq ▸ h

theorem bind {α : Type} (x : Except Failure α) {f : α → Except Failure (List Instr)} (h : ∀ a, Unlabelled (f a)) :
    Unlabelled (x >>= f) := by
  intro code heq
  obtain ⟨a, -, ha⟩ := bind_eq_ok.mp heq
  exact h a code ha

theorem not_target {x : Except Failure (List Instr)} (h : Unlabelled x) {line : Line}
    (hline : line ∈ (Emission.ofInstrs x).lines) {a : Nat} : line.target? ≠ some a := by
  cases x with
  | error e => cases hline
  | ok code =>
    obtain ⟨i, hi, rfl⟩ := List.mem_map.mp hline
    simp [Line.target?, h code rfl i hi]

end Unlabelled

namespace Context

variable {c : Context}

/-- What goes to a block holds the address of its label. -/
theorem target_goTo {make : Nat → Instr} (hmake : ∀ a, (make a).target? = some a) {t : BlockId} {line : Line}
    {a : Nat} (hline : line ∈ (Emission.ofInstrs do return [make (← c.label t).address]).lines)
    (ha : line.target? = some a) : ∃ t l, c.labels.get? t = some l ∧ l.address = a := by
  cases hl : c.labels.get? t with
  | none =>
    unfold label at hline
    rw [hl] at hline
    cases hline
  | some l =>
    rw [label_eq hl] at hline
    obtain rfl := List.mem_singleton.mp hline
    exact ⟨t, l, hl, by simpa [Line.target?, hmake] using ha⟩

theorem target_lowerJump {next : Option BlockId} {t : BlockId} {line : Line} {a : Nat}
    (hline : line ∈ (Emission.ofInstrs (c.lowerJump next t)).lines) (ha : line.target? = some a) :
    ∃ t l, c.labels.get? t = some l ∧ l.address = a := by
  unfold lowerJump at hline
  split_ifs at hline
  · cases hline
  · exact target_goTo (fun _ => rfl) hline ha

/-- The code of a block leads to labels of blocks only. -/
theorem target_lowerInstr {b : BlockId} {next : Option BlockId} {i : Ssa.Instr} {line : Line} {a : Nat}
    (hline : line ∈ (c.lowerInstr b next i).lines) (ha : line.target? = some a) :
    ∃ t l, c.labels.get? t = some l ∧ l.address = a := by
  cases i with
  | const target value | bool target value =>
    exact absurd ha ((Unlabelled.bind _ fun t => .pure (.cons rfl (.save t _))).not_target hline)
  | move target source =>
    exact absurd ha ((Unlabelled.bind _ fun t => .bind _ fun s => .pure (.lowerMove t s)).not_target hline)
  | unary target op source =>
    exact absurd ha ((Unlabelled.bind _ fun t => .bind _ fun s => .pure (.lowerUnary op t s)).not_target hline)
  | binary target op left right =>
    exact absurd ha ((Unlabelled.bind _ fun t => .bind _ fun l => .bind _ fun r =>
      .pure (.lowerBinary op t l r)).not_target hline)
  | phi target entries => cases hline
  | jump target => exact target_lowerJump hline ha
  | branch condition ifTrue ifFalse =>
    rcases Emission.mem_append hline with hline | hline
    · exact absurd ha ((Unlabelled.bind _ fun o =>
        .pure ((Straight.stage o).append (.cons rfl .nil))).not_target hline)
    · unfold lowerBranch at hline
      split_ifs at hline
      · exact target_goTo (fun _ => rfl) hline ha
      · rcases Emission.mem_append hline with hline | hline
        · exact target_goTo (fun _ => rfl) hline ha
        · exact target_lowerJump hline ha
  | ret value =>
    exact absurd ha ((Unlabelled.bind _ fun o =>
      .pure ((Straight.load .rax o).append (.epilogue c.frame))).not_target hline)

/-- The labels in the code of blocks are those of the blocks, in order. -/
theorem labelNames_lowerBlocks {names : LabelTable} {nameOf : BlockId → String}
    (hnames : ∀ b l, c.labels.get? b = some l → names.name l = nameOf b) :
    ∀ {order : List BlockId}, c.Complete order → (c.lowerBlocks order).lines.labelNames names = order.map nameOf
  | [], _ => rfl
  | b :: order, h => by
    obtain ⟨l, hl⟩ := h.label b List.mem_cons_self
    have hcode : (c.lines b order.head? (c.linear.code b)).labelNames names = [] :=
      Listing.labelNames_eq_nil fun line hline k hk => not_label_mem_lines k (hk ▸ hline)
    have hrest := labelNames_lowerBlocks hnames h.tail
    rw [lowerBlocks_cons h hl]
    change names.name l :: Listing.labelNames names (_ ++ _) = _
    rw [Listing.labelNames_append, hcode, hrest, hnames b l hl]
    rfl

/-- In the code of blocks there are instructions that lead to blocks, and labels of blocks. -/
theorem mem_lowerBlocks {line : Line} : ∀ {order : List BlockId}, c.Complete order →
    line ∈ (c.lowerBlocks order).lines → (∃ b l, c.labels.get? b = some l ∧ line = .label l) ∨
      ∃ i, line = .instr i ∧ ∀ a, i.target? = some a → ∃ t l, c.labels.get? t = some l ∧ l.address = a
  | [], _, hline => by cases hline
  | b :: order, h, hline => by
    obtain ⟨l, hl⟩ := h.label b List.mem_cons_self
    rw [lowerBlocks_cons h hl] at hline
    rcases List.mem_cons.mp hline with rfl | hline
    · exact .inl ⟨b, l, hl, rfl⟩
    rcases List.mem_append.mp hline with hline | hline
    · obtain ⟨j, -, hj⟩ := List.mem_flatMap.mp hline
      obtain ⟨i, rfl⟩ := mem_lowerInstr hj
      exact .inr ⟨i, rfl, fun a ha => target_lowerInstr hj ha⟩
    · exact mem_lowerBlocks h.tail hline

/-- The labels of all blocks stand in their code. -/
theorem label_mem_lowerBlocks {b : BlockId} {l : Label} (hl : c.labels.get? b = some l) :
    ∀ {order : List BlockId}, c.Complete order → b ∈ order → .label l ∈ (c.lowerBlocks order).lines
  | a :: order, h, hb => by
    obtain ⟨la, hla⟩ := h.label a List.mem_cons_self
    rw [lowerBlocks_cons h hla]
    rcases List.mem_cons.mp hb with rfl | hb
    · obtain rfl := Option.some.inj (hla.symm.trans hl)
      exact List.mem_cons_self
    · exact List.mem_append_right _ (label_mem_lowerBlocks hl h.tail hb)

end Context

/-! ### Code for all functions -/

namespace PlacedFunc

/-- The name of the label of a block. -/
def blockName (f : PlacedFunc) (b : BlockId) : String := blockLabelName f.name (f.linear.func.label b)

/-- The names of the labels of a function and its blocks. -/
def labelNames (f : PlacedFunc) : List String := functionLabelName f.name :: f.linear.order.map f.blockName

theorem Ready.nodup {f : PlacedFunc} (h : f.Ready) : f.linear.order.Nodup := (h.choose_spec []).laid.nodup

end PlacedFunc

section OneFunction

variable {f : PlacedFunc} (h : f.Ready) (entry : Label) {names names' : LabelTable}
  (hle : (blockLabels f.linear names).2 <+: names')

include h hle

theorem labelNames_lowerFunc :
    (lowerFunc f.linear f.placement entry names).lines.labelNames names' =
      names'.name entry :: f.linear.order.map f.blockName := by
  have hblocks := Context.labelNames_lowerBlocks (c := ⟨f.linear, f.placement, (blockLabels f.linear names).1⟩)
    (fun b l hl => ((has_blockLabel h.nodup hl).mono hle).name_eq) (h.choose_spec names).complete
  have hprologue : Listing.labelNames names' ((Frame.ofPlacement f.placement).prologue.map .instr) = [] :=
    Listing.labelNames_eq_nil fun line hline k hk => by
      obtain ⟨i, -, rfl⟩ := List.mem_map.mp hline
      cases hk
  rw [lowerFunc_lines]
  change names'.name entry :: Listing.labelNames names' (_ ++ _) = _
  rw [Listing.labelNames_append, hprologue, hblocks]
  rfl

/-- Addresses in the code of a function are those of labels of its blocks. -/
theorem targets_lowerFunc :
    ∀ a ∈ (lowerFunc f.linear f.placement entry names).lines.targets,
      ∃ l name, .label l ∈ (lowerFunc f.linear f.placement entry names).lines ∧ l.address = a ∧ names'.Has l name := by
  intro a ha
  obtain ⟨line, hline, htarget⟩ := Listing.mem_targets.mp ha
  rw [lowerFunc_lines] at hline ⊢
  rcases List.mem_cons.mp hline with rfl | hline
  · cases htarget
  rcases List.mem_append.mp hline with hline | hline
  · obtain ⟨i, hi, rfl⟩ := List.mem_map.mp hline
    simp [Line.target?, Straight.prologue _ i hi] at htarget
  · have hcomplete := (h.choose_spec names).complete
    rcases Context.mem_lowerBlocks hcomplete hline with ⟨b, l, -, rfl⟩ | ⟨i, rfl, hi⟩
    · cases htarget
    obtain ⟨t, l, hl, rfl⟩ := hi a htarget
    have hmem := Context.label_mem_lowerBlocks hl hcomplete (id_of_blockLabel h.nodup hl).1
    exact ⟨l, _, List.mem_cons_of_mem _ (List.mem_append_right _ hmem), rfl, (has_blockLabel h.nodup hl).mono hle⟩

end OneFunction

theorem prefix_withBlocks : ∀ (fs : List PlacedFunc) (names : LabelTable), names <+: withBlocks names fs
  | [], _ => List.prefix_rfl
  | f :: fs, names => (prefix_blockLabels f.linear names).trans (prefix_withBlocks fs _)

theorem lines_lowerFuncs_cons {f : PlacedFunc} (h : f.Ready) (l : Label) (fs : List (PlacedFunc × Label))
    (names : LabelTable) :
    (lowerFuncs names ((f, l) :: fs)).lines = (lowerFunc f.linear f.placement l names).lines ++
      (lowerFuncs (blockLabels f.linear names).2 fs).lines := by
  rw [lowerFuncs, Emission.append, lowerFunc_whole h l names]

/-- Functions with their labels, and a table with the names of these labels and of
those that are made for their blocks. -/
structure Entitled (fs : List (PlacedFunc × Label)) (names names' : LabelTable) : Prop where
  ready : ∀ p ∈ fs, p.1.Ready
  has : ∀ p ∈ fs, names'.Has p.2 (functionLabelName p.1.name)
  le : withBlocks names (fs.map Prod.fst) <+: names'

namespace Entitled

variable {f : PlacedFunc} {l : Label} {fs : List (PlacedFunc × Label)} {names names' : LabelTable}

theorem tail (h : Entitled ((f, l) :: fs) names names') : Entitled fs (blockLabels f.linear names).2 names' where
  ready p hp := h.ready p (List.mem_cons_of_mem _ hp)
  has p hp := h.has p (List.mem_cons_of_mem _ hp)
  le := h.le

theorem head (h : Entitled ((f, l) :: fs) names names') :
    f.Ready ∧ names'.Has l (functionLabelName f.name) ∧ (blockLabels f.linear names).2 <+: names' :=
  ⟨h.ready _ List.mem_cons_self, h.has _ List.mem_cons_self, (prefix_withBlocks _ _).trans h.le⟩

end Entitled

theorem labelNames_lowerFuncs : ∀ {fs : List (PlacedFunc × Label)} {names names' : LabelTable},
    Entitled fs names names' → (lowerFuncs names fs).lines.labelNames names' = fs.flatMap fun p => p.1.labelNames
  | [], _, _, _ => rfl
  | (f, l) :: fs, names, names', h => by
    obtain ⟨hf, hl, hle⟩ := h.head
    rw [lines_lowerFuncs_cons hf, Listing.labelNames_append, labelNames_lowerFunc hf l hle,
      labelNames_lowerFuncs h.tail, hl.name_eq]
    rfl

theorem targets_lowerFuncs : ∀ {fs : List (PlacedFunc × Label)} {names names' : LabelTable},
    Entitled fs names names' → ∀ a ∈ (lowerFuncs names fs).lines.targets,
      ∃ l name, .label l ∈ (lowerFuncs names fs).lines ∧ l.address = a ∧ names'.Has l name
  | (f, l) :: fs, names, names', h, a, ha => by
    obtain ⟨hf, -, hle⟩ := h.head
    rw [lines_lowerFuncs_cons hf, Listing.targets, List.filterMap_append] at ha
    rw [lines_lowerFuncs_cons hf]
    rcases List.mem_append.mp ha with ha | ha
    · obtain ⟨k, name, hk, hrest⟩ := targets_lowerFunc hf l hle a ha
      exact ⟨k, name, List.mem_append_left _ hk, hrest⟩
    · obtain ⟨k, name, hk, hrest⟩ := targets_lowerFuncs h.tail a ha
      exact ⟨k, name, List.mem_append_right _ hk, hrest⟩

/-- The labels of functions stand before their code. -/
theorem label_mem_lowerFuncs : ∀ {fs : List (PlacedFunc × Label)} {names : LabelTable}, (∀ p ∈ fs, p.1.Ready) →
    ∀ p ∈ fs, .label p.2 ∈ (lowerFuncs names fs).lines
  | (f, l) :: fs, names, h, p, hp => by
    rw [lines_lowerFuncs_cons (h _ List.mem_cons_self)]
    rcases List.mem_cons.mp hp with rfl | hp
    · rw [lowerFunc_lines]
      exact List.mem_append_left _ List.mem_cons_self
    · exact List.mem_append_right _ (label_mem_lowerFuncs (fun q hq => h q (List.mem_cons_of_mem _ hq)) p hp)

/-- The labels of functions have their names. -/
theorem has_functionLabels : ∀ (fs : List PlacedFunc) (names : LabelTable),
    names <+: (functionLabels fs names).2 ∧ ∀ p ∈ fs.zip (functionLabels fs names).1,
      (functionLabels fs names).2.Has p.2 (functionLabelName p.1.name)
  | [], _ => ⟨List.prefix_rfl, fun _ hp => by cases hp⟩
  | f :: fs, names => by
    obtain ⟨hle, hall⟩ := has_functionLabels fs (names.create (functionLabelName f.name)).2
    refine ⟨(LabelTable.prefix_create names _).trans hle, fun p hp => ?_⟩
    rcases List.mem_cons.mp hp with rfl | hp
    · exact (LabelTable.has_create names _).mono hle
    · exact hall p hp

theorem mem_header {line : Line} (h : line ∈ header source placed) :
    ∃ text, line = .directive text := by
  simp only [header, List.mem_append, List.mem_cons, List.mem_map, List.not_mem_nil, or_false] at h
  rcases h with ((rfl | rfl) | ⟨f, -, rfl⟩) | rfl
  all_goals exact ⟨_, rfl⟩

/-- The label of `main`, and the table of labels when it is made. -/
def mainLabel (placed : List PlacedFunc) : Label × LabelTable := (functionLabels placed []).2.create "main"

/-- What a unit is made of. -/
theorem emitUnit_shape (h : ∀ q ∈ placed, q.Ready) (hsheet : emitUnit source placed = .ok sheet) :
    ∃ q entry, ((placed.zip (functionLabels placed []).1).find? fun p => p.1.linear.func.isEntry) = some (q, entry) ∧
      sheet = ⟨withBlocks (mainLabel placed).2 placed, header source placed ++
        (.label (mainLabel placed).1 :: (mainCode entry).map .instr) ++
        (lowerFuncs (mainLabel placed).2 (placed.zip (functionLabels placed []).1)).lines ++ trailer⟩ := by
  have hwhole := lowerFuncs_whole (placed.zip (functionLabels placed []).1) (mainLabel placed).2
    fun p hp => h p.1 (List.of_mem_zip hp).1
  unfold emitUnit at hsheet
  dsimp only at hsheet
  split at hsheet
  · cases hsheet
  · rename_i q entry hfind
    obtain ⟨body, hbody, hsheet⟩ := bind_eq_ok.mp hsheet
    unfold mainLabel at hwhole
    unfold Emission.toExcept at hbody
    rw [hwhole] at hbody
    obtain rfl := Except.ok.inj hbody
    obtain rfl := Except.ok.inj hsheet
    refine ⟨q, entry, hfind, ?_⟩
    simp only [List.append_assoc, List.singleton_append]
    rfl

/-- In the table of a unit all labels have their names. -/
theorem entitled_unit (h : ∀ q ∈ placed, q.Ready) :
    (withBlocks (mainLabel placed).2 placed).Has (mainLabel placed).1 "main" ∧
      Entitled (placed.zip (functionLabels placed []).1) (mainLabel placed).2
        (withBlocks (mainLabel placed).2 placed) := by
  have hle := prefix_withBlocks placed (mainLabel placed).2
  refine ⟨(LabelTable.has_create _ _).mono hle, fun p hp => h p.1 (List.of_mem_zip hp).1, fun p hp => ?_, ?_⟩
  · exact ((has_functionLabels placed []).2 p hp).mono ((LabelTable.prefix_create _ _).trans hle)
  · rw [map_fst_zip_functionLabels]

/-- The names of the labels of a unit. -/
def unitNames (placed : List PlacedFunc) : List String := "main" :: placed.flatMap PlacedFunc.labelNames

theorem labels_emitUnit (h : ∀ q ∈ placed, q.Ready) (hsheet : emitUnit source placed = .ok sheet) :
    sheet.labelNames = unitNames placed := by
  obtain ⟨q, entry, -, rfl⟩ := emitUnit_shape h hsheet
  obtain ⟨hmain, hall⟩ := entitled_unit h
  have hflat : (placed.zip (functionLabels placed []).1).flatMap (fun p => p.1.labelNames) =
      placed.flatMap PlacedFunc.labelNames := by
    conv_rhs => rw [← map_fst_zip_functionLabels placed [], List.flatMap_map]
  have hheader : (header source placed).labelNames (withBlocks (mainLabel placed).2 placed) = [] :=
    Listing.labelNames_eq_nil fun line hline k hk => by
      obtain ⟨text, rfl⟩ := mem_header hline
      cases hk
  have hstub : Listing.labelNames (withBlocks (mainLabel placed).2 placed)
      (.label (mainLabel placed).1 :: (mainCode entry).map .instr) = ["main"] := by
    rw [← hmain.name_eq]
    rfl
  unfold Sheet.labelNames
  rw [Listing.labelNames_append, Listing.labelNames_append, Listing.labelNames_append, hheader, hstub,
    labelNames_lowerFuncs hall, hflat]
  exact List.append_nil _

/-- The code at `main` leads to the entry function only. -/
theorem target_mainCode {entry : Label} {line : Line} {a : Nat} (hline : line ∈ (mainCode entry).map .instr)
    (ha : line.target? = some a) : entry.address = a := by
  simp only [mainCode, List.map_cons, List.map_nil, List.mem_cons, List.not_mem_nil, or_false] at hline
  rcases hline with rfl | rfl | rfl | rfl
  · exact Option.some.inj ha
  · cases ha
  · cases ha
  · cases ha

/-- The calls and jumps of a unit lead to its labels. -/
theorem resolved_emitUnit (h : ∀ q ∈ placed, q.Ready) (hsheet : emitUnit source placed = .ok sheet) :
    sheet.Resolved := by
  obtain ⟨q, entry, hfind, rfl⟩ := emitUnit_shape h hsheet
  obtain ⟨-, hall⟩ := entitled_unit h
  have hentry := List.mem_of_find?_eq_some hfind
  -- every address is that of a label behind `main`
  have hlabel : ∀ a ∈ Listing.targets (header source placed ++
      (.label (mainLabel placed).1 :: (mainCode entry).map .instr) ++
      (lowerFuncs (mainLabel placed).2 (placed.zip (functionLabels placed []).1)).lines ++ trailer), ∃ l name,
      .label l ∈ (lowerFuncs (mainLabel placed).2 (placed.zip (functionLabels placed []).1)).lines ∧ l.address = a ∧
        (withBlocks (mainLabel placed).2 placed).Has l name := by
    intro a ha
    obtain ⟨line, hline, htarget⟩ := Listing.mem_targets.mp ha
    rcases List.mem_append.mp hline with hline | hline
    · rcases List.mem_append.mp hline with hline | hline
      · rcases List.mem_append.mp hline with hline | hline
        · obtain ⟨text, rfl⟩ := mem_header hline
          cases htarget
        · rcases List.mem_cons.mp hline with rfl | hline
          · cases htarget
          · exact ⟨entry, _, label_mem_lowerFuncs hall.ready _ hentry, target_mainCode hline htarget,
              hall.has _ hentry⟩
      · exact targets_lowerFuncs hall a (Listing.mem_targets.mpr ⟨line, hline, htarget⟩)
    · obtain rfl := List.mem_singleton.mp hline
      cases htarget
  intro a ha
  obtain ⟨l, name, hl, rfl, hhas⟩ := hlabel a ha
  exact ⟨l, List.mem_append_left _ (List.mem_append_right _ hl), rfl, hhas.resolve_eq.trans hhas.name_eq.symm⟩

/-! ### Names that occur once -/

namespace PlacedFunc

/-- The blocks of a function that are written have known kinds and bear their numbers. -/
def Named (f : PlacedFunc) : Prop :=
  ∀ b ∈ f.linear.order, f.linear.func.kind b ∈ Ssa.blockKinds ∧
    f.blockName b = blockLabelName f.name (f.linear.func.kind b ++ "_" ++ toString b)

/-- A block of `f` and a block of `g` get the same name: `g` has the name of `f`
with `_tern` behind it. -/
def Clashes (f g : PlacedFunc) : Prop :=
  g.name = f.name ++ "_tern" ∧ ∃ b, (b ∈ f.linear.order ∧ f.linear.func.kind b = "tern_merge") ∧
    b ∈ g.linear.order ∧ g.linear.func.kind b = "merge"

variable {f g : PlacedFunc}

theorem nodup_labelNames (hf : f.Named) (hnd : f.linear.order.Nodup) : f.labelNames.Nodup := by
  refine List.nodup_cons.mpr ⟨fun hmem => ?_, List.Nodup.map_on (fun a ha b hb heq => ?_) hnd⟩
  · obtain ⟨b, -, hb⟩ := List.mem_map.mp hmem
    exact functionLabelName_ne_blockLabelName _ _ _ hb.symm
  · rw [(hf a ha).2, (hf b hb).2] at heq
    exact (kinds_of_blockLabelName_eq (hf a ha).1 (hf b hb).1 heq).1

theorem Clashes.not_disjoint (hf : f.Named) (hg : g.Named) (h : f.Clashes g) :
    ¬ f.labelNames.Disjoint g.labelNames := by
  obtain ⟨hname, b, ⟨hb, hkind⟩, hb', hkind'⟩ := h
  have heq : f.blockName b = g.blockName b := by
    rw [(hf b hb).2, (hg b hb').2, hkind, hkind', hname]
    exact blockLabelName_tern f.name b
  have hmem : f.blockName b ∈ f.labelNames := List.mem_cons_of_mem _ (List.mem_map_of_mem hb)
  have hmem' : g.blockName b ∈ g.labelNames := List.mem_cons_of_mem _ (List.mem_map_of_mem hb')
  exact fun hdisjoint => hdisjoint hmem (heq ▸ hmem')

/-- Functions of different names share a label only if they clash. -/
theorem disjoint_labelNames (hf : f.Named) (hg : g.Named) (hne : f.name ≠ g.name) (hfg : ¬ f.Clashes g)
    (hgf : ¬ g.Clashes f) : f.labelNames.Disjoint g.labelNames := by
  intro name hname hname'
  rcases List.mem_cons.mp hname with rfl | hname <;> rcases List.mem_cons.mp hname' with heq | hname'
  · exact hne ((String.append_right_inj "_").mp heq)
  · obtain ⟨b, -, hb⟩ := List.mem_map.mp hname'
    exact functionLabelName_ne_blockLabelName _ _ _ hb.symm
  · obtain ⟨b, -, hb⟩ := List.mem_map.mp hname
    exact functionLabelName_ne_blockLabelName _ _ _ (heq.symm.trans hb.symm)
  · obtain ⟨a, ha, rfl⟩ := List.mem_map.mp hname
    obtain ⟨b, hb, heq⟩ := List.mem_map.mp hname'
    rw [(hg b hb).2, (hf a ha).2] at heq
    obtain ⟨rfl, ⟨hsame, -⟩ | ⟨hk, hk', hn⟩ | ⟨hk, hk', hn⟩⟩ :=
      kinds_of_blockLabelName_eq (hg b hb).1 (hf a ha).1 heq
    · exact hne hsame.symm
    · exact hgf ⟨hn, b, ⟨hb, hk⟩, ha, hk'⟩
    · exact hfg ⟨hn, b, ⟨ha, hk⟩, hb, hk'⟩

theorem main_not_mem_labelNames (f : PlacedFunc) : "main" ∉ f.labelNames := by
  intro h
  rcases List.mem_cons.mp h with h | h
  · have hlist := congrArg String.toList h
    simp [functionLabelName, String.toList_append] at hlist
  · obtain ⟨b, -, hb⟩ := List.mem_map.mp h
    have hlist := congrArg String.toList hb
    simp [blockName, blockLabelName, String.toList_append] at hlist

end PlacedFunc

/-- The labels of a unit are different unless two of its functions clash. -/
theorem nodup_unitNames (hnamed : ∀ q ∈ placed, q.Named)
    (horder : ∀ q ∈ placed, q.linear.order.Nodup) (hnames : (placed.map PlacedFunc.name).Nodup) :
    (unitNames placed).Nodup ↔ ∀ q ∈ placed, ∀ r ∈ placed, ¬ q.Clashes r := by
  have hmain : "main" ∉ placed.flatMap PlacedFunc.labelNames := fun h => by
    obtain ⟨q, -, hq⟩ := List.mem_flatMap.mp h
    exact q.main_not_mem_labelNames hq
  rw [unitNames, List.nodup_cons, List.nodup_flatMap]
  constructor
  · rintro ⟨-, -, hpairwise⟩ q hq r hr hclash
    have : Std.Symm (Function.onFun List.Disjoint PlacedFunc.labelNames) := ⟨fun _ _ h => List.Disjoint.symm h⟩
    -- a function does not clash with itself: its name is shorter than the other one
    have hne : q ≠ r := by
      rintro rfl
      have hlength := congrArg String.length hclash.1
      rw [String.length_append] at hlength
      exact absurd hlength (by simp)
    exact hclash.not_disjoint (hnamed q hq) (hnamed r hr) (hpairwise.forall hq hr hne)
  · intro hclash
    refine ⟨hmain, fun q hq => PlacedFunc.nodup_labelNames (hnamed q hq) (horder q hq), ?_⟩
    refine (List.pairwise_map.mp hnames).imp_of_mem fun {q r} hq hr hne => ?_
    exact PlacedFunc.disjoint_labelNames (hnamed q hq) (hnamed r hr) hne (hclash q hq r hr) (hclash r hr q hq)

end Asm

/-! ### Programs -/

/-- The sheet of a checked program. -/
def writeProgram (o : Options) (p : Typed.Program) : Except Failure Asm.Sheet := do
  let prepared ← prepare o.dump p.functions .zero
  let placed ← Asm.placeFuncs (.ofLimit o.registerLimit) prepared.functions
  Asm.emitUnit o.nameOfSource placed

namespace Typed

/-- A block of the given kind and number is in the code of a function. -/
def Func.Lays (t : Func) (b : Ssa.BlockId) (kind : String) : Prop :=
  ∃ g l, Prepares t g ∧ g.linear = .ok l ∧ b ∈ l.order ∧ g.kind b = kind

/-- One function has the name of another and `_tern` behind it, and a conditional
statement of the first ends in a block of the same number as a conditional
expression of the other. -/
def Program.Clashes (p : Program) : Prop :=
  ∃ t ∈ p.functions, ∃ u ∈ p.functions, u.name = t.name ++ "_tern" ∧ ∃ b, t.Lays b "tern_merge" ∧ u.Lays b "merge"

end Typed

/-- A placed function is that of a typed one. -/
def Places (t : Typed.Func) (q : Asm.PlacedFunc) : Prop :=
  Prepares t q.linear.func ∧ q.linear.func.linear = .ok q.linear ∧ q.Ready

namespace Places

variable {t : Typed.Func} {q : Asm.PlacedFunc}

theorem name_eq (h : Places t q) : q.name = t.name := h.1.facts.2.1

theorem lays_iff (h : Places t q) {b : Ssa.BlockId} {kind : String} :
    t.Lays b kind ↔ b ∈ q.linear.order ∧ q.linear.func.kind b = kind := by
  constructor
  · rintro ⟨g, l, ⟨f, count, hf, hg⟩, hl, hb, hkind⟩
    obtain ⟨⟨f', count', hf', hg'⟩, hq, -⟩ := h
    obtain rfl := Except.ok.inj (hf.symm.trans hf')
    obtain ⟨rfl, -⟩ := ok_pair_inj (hg.symm.trans hg')
    obtain rfl := Except.ok.inj (hl.symm.trans hq)
    exact ⟨hb, hkind⟩
  · rintro ⟨hb, hkind⟩
    exact ⟨_, _, h.1, h.2.1, hb, hkind⟩

theorem order_nodup (h : Places t q) : q.linear.order.Nodup := by
  obtain ⟨heads, hready⟩ := h.2.2
  exact (hready []).laid.nodup

theorem named (h : Places t q) : q.Named := by
  obtain ⟨⟨f, count, hf, hg⟩, -, heads, hready⟩ := h
  have hnamed : q.linear.func.Named := (Ssa.named_of_build hf).removePhisOf _ hg
  intro b hb
  obtain ⟨earlier, hpath⟩ := (hready []).laid.reached b hb
  obtain ⟨front, last, hcode, -⟩ := (hready []).ended hpath
  -- a block that ends in a terminator is there
  cases hblk : q.linear.func.block? b with
  | none => simp [Ssa.Func.code, hblk] at hcode
  | some blk =>
    obtain ⟨hid, hkind⟩ := hnamed b blk hblk
    unfold Asm.PlacedFunc.blockName Ssa.Func.label Ssa.Func.kind Ssa.Block.label
    rw [hblk, Option.map_some, Option.getD_some, Option.map_some, Option.getD_some, hid]
    exact ⟨hkind, rfl⟩

end Places

theorem forall₂_places {ts : List Typed.Func} {graphs : List Ssa.Func} {placed : List Asm.PlacedFunc}
    (hprepares : List.Forall₂ Prepares ts graphs)
    (hplaces : List.Forall₂ (fun f q => f.linear = .ok q.linear ∧ q.linear.func = f ∧ q.Ready) graphs placed) :
    List.Forall₂ Places ts placed := by
  induction hprepares generalizing placed with
  | nil =>
    cases hplaces
    exact .nil
  | cons htg _ ih =>
    obtain _ | ⟨⟨hlinear, rfl, hready⟩, hrest⟩ := hplaces
    exact .cons ⟨htg, hlinear, hready⟩ (ih hrest)

/-- An accepted program is written, each function for itself. -/
theorem writeProgram_ok {source : String} {p : Typed.Program} (h : checkSource source = .ok p) (o : Options) :
    ∃ placed sheet c, List.Forall₂ Places p.functions placed ∧ Asm.emitUnit o.nameOfSource placed = .ok sheet ∧
      writeProgram o p = .ok sheet ∧ compileSource o source = .ok c ∧ c.assembly = sheet.text := by
  obtain ⟨prepared, placed, sheet, c, hprepared, hplaced, hsheet, hc, htext, hprepares, hplaces⟩ :=
    compileProgram_ok (checkSource_accepted h) o
  have hwrite : writeProgram o p = .ok sheet :=
    bind_eq_ok.mpr ⟨prepared, hprepared, bind_eq_ok.mpr ⟨placed, hplaced, hsheet⟩⟩
  have hcompile : compileSource o source = .ok c := by
    unfold compileSource
    simp only [h, hc]
  exact ⟨placed, sheet, c, forall₂_places hprepares hplaces, hsheet, hwrite, hcompile, htext⟩

/-- Functions of a program clash if and only if they do where they are placed. -/
theorem clashes_iff {p : Typed.Program} {placed : List Asm.PlacedFunc} (h : List.Forall₂ Places p.functions placed) :
    p.Clashes ↔ ∃ q ∈ placed, ∃ r ∈ placed, q.Clashes r := by
  constructor
  · rintro ⟨t, ht, u, hu, hname, b, hb, hb'⟩
    obtain ⟨q, hq, htq⟩ := forall₂_mem_left h t ht
    obtain ⟨r, hr, hur⟩ := forall₂_mem_left h u hu
    refine ⟨q, hq, r, hr, ?_, b, htq.lays_iff.mp hb, hur.lays_iff.mp hb'⟩
    rw [htq.name_eq, hur.name_eq, hname]
  · rintro ⟨q, hq, r, hr, hname, b, hb, hb'⟩
    obtain ⟨t, ht, htq⟩ := forall₂_mem_right h q hq
    obtain ⟨u, hu, hur⟩ := forall₂_mem_right h r hr
    refine ⟨t, ht, u, hu, ?_, b, htq.lays_iff.mpr hb, hur.lays_iff.mpr hb'⟩
    rw [← htq.name_eq, ← hur.name_eq, hname]

/-- Every label of a unit that a call or a jump names is there. There is only one
of that name, and of any other, unless two functions of the program clash; the
options do not matter. -/
theorem labelNames_nodup_iff {source : String} {p : Typed.Program} (h : checkSource source = .ok p) (o : Options) :
    ∃ sheet c, writeProgram o p = .ok sheet ∧ compileSource o source = .ok c ∧ c.assembly = sheet.text ∧
      (sheet.labelNames.Nodup ↔ ¬ p.Clashes) ∧ (∀ name ∈ sheet.targetNames, name ∈ sheet.labelNames) ∧
      (¬ p.Clashes → ∀ name ∈ sheet.targetNames, sheet.labelNames.count name = 1) := by
  obtain ⟨placed, sheet, c, hplaces, hsheet, hwrite, hc, htext⟩ := writeProgram_ok h o
  have hplaced : ∀ q ∈ placed, q.Ready ∧ q.Named ∧ q.linear.order.Nodup := by
    intro q hq
    obtain ⟨t, -, htq⟩ := forall₂_mem_right hplaces q hq
    exact ⟨htq.2.2, htq.named, htq.order_nodup⟩
  have hnames : placed.map Asm.PlacedFunc.name = p.functions.map Typed.Func.name :=
    map_eq_of_forall₂ hplaces fun _ _ htq => htq.name_eq
  have hready : ∀ q ∈ placed, q.Ready := fun q hq => (hplaced q hq).1
  have hlabels := Asm.labels_emitUnit hready hsheet
  have htargets := (Asm.resolved_emitUnit hready hsheet).mem_labelNames
  have hiff : sheet.labelNames.Nodup ↔ ¬ p.Clashes := by
    rw [hlabels, clashes_iff hplaces, Asm.nodup_unitNames (fun q hq => (hplaced q hq).2.1)
      (fun q hq => (hplaced q hq).2.2) (hnames ▸ (checkSource_accepted h).names)]
    push Not
    rfl
  refine ⟨sheet, c, hwrite, hc, htext, hiff, htargets, fun hclash name hname => ?_⟩
  exact List.count_eq_one_of_mem (hiff.mpr hclash) (htargets name hname)

/-- The names of two functions differ in `_tern`, but not the numbers of a conditional
expression and a conditional statement in them. -/
def clashing : String :=
  "int a() \x7b return true ? 1 : 2; \x7d " ++
  "int a_tern() \x7b int x; if (true) \x7b x = 1; \x7d else \x7b x = 2; \x7d return x; \x7d " ++
  "int main() \x7b return 0; \x7d"

/-- A jump of a program that is accepted may name two places. -/
theorem clashing_labels : ∃ p sheet c, checkSource clashing = .ok p ∧
    writeProgram ⟨none, none, false⟩ p = .ok sheet ∧ compileSource ⟨none, none, false⟩ clashing = .ok c ∧
    c.assembly = sheet.text ∧ ¬ sheet.labelNames.Nodup ∧
    ".L_a_tern_merge_3" ∈ sheet.targetNames ∧ sheet.labelNames.count ".L_a_tern_merge_3" = 2 := by
  have hrun : ((checkSource clashing).toOption.bind fun p =>
      (writeProgram ⟨none, none, false⟩ p).toOption.map fun l =>
        (decide (".L_a_tern_merge_3" ∈ l.targetNames), l.labelNames.count ".L_a_tern_merge_3")) = some (true, 2) := by
    decide +kernel
  cases hp : checkSource clashing with
  | error d => simp [hp, Except.toOption] at hrun
  | ok p =>
    obtain ⟨-, sheet, c, -, -, hwrite, hc, htext⟩ := writeProgram_ok hp ⟨none, none, false⟩
    simp only [hp, hwrite, Except.toOption, Option.bind_some, Option.map_some, Option.some.injEq, Prod.mk.injEq,
      decide_eq_true_eq] at hrun
    refine ⟨p, sheet, c, rfl, hwrite, hc, htext, fun hnodup => ?_, hrun⟩
    have hle := List.nodup_iff_count_le_one.mp hnodup ".L_a_tern_merge_3"
    omega

/-- As `clashing`, with a conditional statement that takes one block less. -/
def nearClash : String :=
  "int a() \x7b return true ? 1 : 2; \x7d " ++
  "int a_tern() \x7b int x = 2; if (true) \x7b x = 1; \x7d return x; \x7d int main() \x7b return 0; \x7d"

theorem nearClash_labels : ∃ p sheet c, checkSource nearClash = .ok p ∧
    writeProgram ⟨some 2, none, false⟩ p = .ok sheet ∧ compileSource ⟨some 2, none, false⟩ nearClash = .ok c ∧
    c.assembly = sheet.text ∧ ¬ p.Clashes ∧ sheet.labelNames.Nodup ∧
    ∀ name ∈ sheet.targetNames, sheet.labelNames.count name = 1 := by
  have hrun : ((checkSource nearClash).toOption.bind fun p =>
      (writeProgram ⟨some 2, none, false⟩ p).toOption.map fun l => decide l.labelNames.Nodup) = some true := by
    decide +kernel
  cases hp : checkSource nearClash with
  | error d => simp [hp, Except.toOption] at hrun
  | ok p =>
    obtain ⟨sheet, c, hwrite, hc, htext, hiff, -, hone⟩ := labelNames_nodup_iff hp ⟨some 2, none, false⟩
    simp only [hp, hwrite, Except.toOption, Option.bind_some, Option.map_some, Option.some.injEq,
      decide_eq_true_eq] at hrun
    exact ⟨p, sheet, c, rfl, hwrite, hc, htext, hiff.mp hrun, hrun, hone (hiff.mp hrun)⟩

end Chordal
