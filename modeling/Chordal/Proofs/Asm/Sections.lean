/-
# Sections of a unit

The lines of a function stand together, under its label. They depend on the function
alone and on the registers that may be used: the checker forgets where the function was
read, and the registers that an earlier function took are free again. The numbers of its
labels, and the addresses in its jumps, do depend on the labels that were made before.
But an address is resolved in the table to which it belongs, and that gives the name of
the block in every table. So programs that share a function share its lines, whatever
stands around it, and programs with the same functions differ in the order of their
sections only.

Key definitions: `Asm.Sheet.sectionOf`, `Asm.unitTexts`, `PlacedAlone`, `Reads`.
Key theorems: `Asm.placeFuncs_placedBy`, `Asm.lowerFunc_sameText`, `Asm.sectionOf_lowerFuncs`,
`PlacedAlone.unique`, `functions_compiled_alone`.
-/
import Mathlib
import Chordal.Proofs.Asm.Labels
import Chordal.Proofs.Typed.Unplaced

namespace Chordal

/-! ### Registers -/

namespace RegFile

variable {file file' : RegFile}

/-- What was taken before does not matter. -/
theorem allocateLinear_of_pool (h : file.pool = file'.pool) (l : Ssa.Linear) :
    file.allocateLinear l = file'.allocateLinear l := by
  have hreset : file.reset = file'.reset := by
    unfold reset
    rw [h]
  unfold allocateLinear allocate
  rw [hreset]

/-- The registers that may be used stay the same. -/
theorem pool_allocateLinear {l : Ssa.Linear} {a : Allocation} (h : file.allocateLinear l = .ok (a, file')) :
    file'.pool = file.pool := by
  obtain ⟨live, -, h⟩ := bind_eq_ok.mp h
  obtain ⟨g, -, h⟩ := bind_eq_ok.mp h
  obtain ⟨ordering, -, h⟩ := bind_eq_ok.mp h
  obtain ⟨colors, -, -, rfl⟩ := bind_pure_pair h
  exact (placeAll_eq colors file.reset).2

end RegFile

namespace Asm

open Ssa (BlockId)

/-- The places of a function's values, with no register taken before. -/
def PlacedFunc.PlacedBy (q : PlacedFunc) (pool : List Reg) : Prop :=
  ∃ a last, RegFile.allocateLinear ⟨pool, .empty⟩ q.linear = .ok (a, last) ∧ q.placement = a.placement

variable {q : PlacedFunc} {names final : LabelTable} {entry : Label}

theorem PlacedFunc.PlacedBy.unique {q' : PlacedFunc} {pool : List Reg} (h : q.PlacedBy pool)
    (h' : q'.PlacedBy pool) (hlinear : q.linear = q'.linear) : q = q' := by
  obtain ⟨linear, placement⟩ := q
  obtain ⟨linear', placement'⟩ := q'
  obtain rfl : linear = linear' := hlinear
  obtain ⟨a, last, ha, rfl⟩ := h
  obtain ⟨a', last', ha', rfl⟩ := h'
  obtain ⟨rfl, -⟩ := ok_pair_inj (ha.symm.trans ha')
  rfl

/-- Each function is placed as if it were the first. -/
theorem placeFuncs_placedBy : ∀ (fs : List Ssa.Func) {file : RegFile} {placed : List PlacedFunc},
    placeFuncs file fs = .ok placed → ∀ q ∈ placed, q.PlacedBy file.pool
  | [], _, _, h, q, hq => by
    obtain rfl := Except.ok.inj h
    cases hq
  | f :: fs, file, placed, h, q, hq => by
    obtain ⟨l, -, h⟩ := bind_eq_ok.mp h
    obtain ⟨⟨a, file'⟩, ha, h⟩ := bind_eq_ok.mp h
    obtain ⟨others, hothers, rfl⟩ := bind_pure_inj h
    rcases List.mem_cons.mp hq with rfl | hq
    · exact ⟨a, file', (RegFile.allocateLinear_of_pool rfl l).trans ha, rfl⟩
    · exact RegFile.pool_allocateLinear ha ▸ placeFuncs_placedBy fs hothers q hq

/-! ### Text -/

/-- Both give the same text, each with its own table, and both end there for the same reason. -/
structure SameText (names names' : LabelTable) (e e' : Emission) : Prop where
  lines : e.lines.map (Line.text names) = e'.lines.map (Line.text names')
  failure : e.failure = e'.failure

/-- Code without addresses has the same text with any table. -/
theorem Straight.text_eq {names' : LabelTable} {code : List Instr} (h : Straight code) :
    (code.map Line.instr).map (Line.text names) = (code.map Line.instr).map (Line.text names') := by
  rw [List.map_map, List.map_map]
  refine List.map_congr_left fun i hi => ?_
  have hnone := h i hi
  cases i <;> first | rfl | cases hnone

namespace SameText

variable {names names' : LabelTable}

theorem unlabelled {x : Except Failure (List Instr)} (h : Unlabelled x) :
    SameText names names' (.ofInstrs x) (.ofInstrs x) := by
  cases x with
  | error e => exact ⟨rfl, rfl⟩
  | ok code => exact ⟨(h code rfl).text_eq, rfl⟩

theorem append {a a' b b' : Emission} (ha : SameText names names' a a') (hb : SameText names names' b b') :
    SameText names names' (a.append b) (a'.append b') := by
  unfold Emission.append
  rw [← ha.failure]
  cases h : a.failure with
  | some cause => exact ha
  | none => exact ⟨by simp only [List.map_append, ha.lines, hb.lines], hb.failure⟩

theorem join {α : Type} {f g : α → Emission} : ∀ (l : List α), (∀ a, SameText names names' (f a) (g a)) →
    SameText names names' (.join (l.map f)) (.join (l.map g))
  | [], _ => ⟨rfl, rfl⟩
  | a :: l, h => (h a).append (join l h)

end SameText

/-- The same blocks have labels, and in their tables these have the same names. -/
def SameNames (names names' : LabelTable) (labels labels' : IdMap Label) : Prop :=
  ∀ b, labels.get? b = none ∧ labels'.get? b = none ∨
    ∃ l l' name, labels.get? b = some l ∧ labels'.get? b = some l' ∧ names.Has l name ∧ names'.Has l' name

section

variable {q : PlacedFunc} {names names' : LabelTable} {labels labels' : IdMap Label}
  (h : SameNames names names' labels labels')

include h

/-- What goes to a block is written with the name of its label. -/
theorem goTo_sameText (make : Nat → Instr)
    (hmake : ∀ a a', names.resolve a = names'.resolve a' → (make a).text names = (make a').text names') (t : BlockId) :
    SameText names names' (.ofInstrs do return [make (← Context.label ⟨q.linear, q.placement, labels⟩ t).address])
      (.ofInstrs do return [make (← Context.label ⟨q.linear, q.placement, labels'⟩ t).address]) := by
  unfold Context.label
  rcases h t with ⟨hnone, hnone'⟩ | ⟨l, l', name, hl, hl', hhas, hhas'⟩
  · simp only [hnone, hnone']
    exact ⟨rfl, rfl⟩
  · simp only [hl, hl']
    refine ⟨?_, rfl⟩
    change ["\t" ++ (make l.address).text names ++ "\n"] = ["\t" ++ (make l'.address).text names' ++ "\n"]
    rw [hmake _ _ (hhas.resolve_eq.trans hhas'.resolve_eq.symm)]

theorem lowerJump_sameText (next : Option BlockId) (t : BlockId) :
    SameText names names' (.ofInstrs (Context.lowerJump ⟨q.linear, q.placement, labels⟩ next t))
      (.ofInstrs (Context.lowerJump ⟨q.linear, q.placement, labels'⟩ next t)) := by
  unfold Context.lowerJump
  split_ifs
  · exact ⟨rfl, rfl⟩
  · exact goTo_sameText h .jmp (fun _ _ heq => congrArg ("jmp " ++ ·) heq) t

theorem lowerBranch_sameText (next : Option BlockId) (t e : BlockId) :
    SameText names names' (Context.lowerBranch ⟨q.linear, q.placement, labels⟩ next t e)
      (Context.lowerBranch ⟨q.linear, q.placement, labels'⟩ next t e) := by
  have hjcc : ∀ (cond : Cond) (a a' : Nat), names.resolve a = names'.resolve a' →
      (Instr.jcc cond a).text names = (Instr.jcc cond a').text names' :=
    fun cond _ _ heq => congrArg ("j" ++ cond.text ++ " " ++ ·) heq
  unfold Context.lowerBranch
  split_ifs
  · exact goTo_sameText h (.jcc .equal) (hjcc _) e
  · exact (goTo_sameText h (.jcc .notEqual) (hjcc _) t).append (lowerJump_sameText h next e)

theorem lowerInstr_sameText (b : BlockId) (next : Option BlockId) (i : Ssa.Instr) :
    SameText names names' (Context.lowerInstr ⟨q.linear, q.placement, labels⟩ b next i)
      (Context.lowerInstr ⟨q.linear, q.placement, labels'⟩ b next i) := by
  cases i with
  | const target value | bool target value => exact .unlabelled (.bind _ fun t => .pure (.cons rfl (.save t _)))
  | move target source => exact .unlabelled (.bind _ fun t => .bind _ fun s => .pure (.lowerMove t s))
  | unary target op source => exact .unlabelled (.bind _ fun t => .bind _ fun s => .pure (.lowerUnary op t s))
  | binary target op left right =>
    exact .unlabelled (.bind _ fun t => .bind _ fun l => .bind _ fun r => .pure (.lowerBinary op t l r))
  | phi target entries => exact ⟨rfl, rfl⟩
  | jump t => exact lowerJump_sameText h next t
  | branch condition t e =>
    exact .append (.unlabelled (.bind _ fun o => .pure ((Straight.stage o).append (.cons rfl .nil))))
      (lowerBranch_sameText h next t e)
  | ret value => exact .unlabelled (.bind _ fun o => .pure ((Straight.load .rax o).append (.epilogue _)))

theorem lowerBlock_sameText (b : BlockId) (next : Option BlockId) :
    SameText names names' (Context.lowerBlock ⟨q.linear, q.placement, labels⟩ b next)
      (Context.lowerBlock ⟨q.linear, q.placement, labels'⟩ b next) := by
  have hcode : SameText names names'
      (.join ((q.linear.code b).map (Context.lowerInstr ⟨q.linear, q.placement, labels⟩ b next)))
      (.join ((q.linear.code b).map (Context.lowerInstr ⟨q.linear, q.placement, labels'⟩ b next))) :=
    .join _ fun i => lowerInstr_sameText h b next i
  unfold Context.lowerBlock Context.label
  rcases h b with ⟨hnone, hnone'⟩ | ⟨l, l', name, hl, hl', hhas, hhas'⟩
  · simp only [hnone, hnone']
    exact ⟨rfl, rfl⟩
  · simp only [hl, hl']
    refine .append ⟨?_, rfl⟩ hcode
    change [names.name l ++ ":\n"] = [names'.name l' ++ ":\n"]
    rw [hhas.name_eq, hhas'.name_eq]

theorem lowerBlocks_sameText : ∀ order : List BlockId,
    SameText names names' (Context.lowerBlocks ⟨q.linear, q.placement, labels⟩ order)
      (Context.lowerBlocks ⟨q.linear, q.placement, labels'⟩ order)
  | [] => ⟨rfl, rfl⟩
  | b :: order => (lowerBlock_sameText h b order.head?).append (lowerBlocks_sameText order)

end

/-- The text of a function does not depend on the labels that were made before, nor on
those that are made later. -/
theorem lowerFunc_sameText (h : q.Ready) {entry' : Label} {name : String}
    {names' final' : LabelTable} (hhas : final.Has entry name) (hhas' : final'.Has entry' name)
    (hle : (blockLabels q.linear names).2 <+: final)
    (hle' : (blockLabels q.linear names').2 <+: final') :
    SameText final final' (lowerFunc q.linear q.placement entry names)
      (lowerFunc q.linear q.placement entry' names') := by
  have hlabels : SameNames final final' (blockLabels q.linear names).1 (blockLabels q.linear names').1 := by
    intro b
    by_cases hb : b ∈ q.linear.order
    · obtain ⟨l, hl⟩ := exists_blockLabel h.nodup names hb
      obtain ⟨l', hl'⟩ := exists_blockLabel h.nodup names' hb
      exact .inr ⟨l, l', _, hl, hl', (has_blockLabel h.nodup hl).mono hle, (has_blockLabel h.nodup hl').mono hle'⟩
    · have hnone : ∀ names, (blockLabels q.linear names).1.get? b = none := fun names =>
        Option.eq_none_iff_forall_not_mem.mpr fun l hl => hb (id_of_blockLabel h.nodup hl).1
      exact .inl ⟨hnone names, hnone names'⟩
  have hhead : SameText final final' (.whole (.label entry :: (Frame.ofPlacement q.placement).prologue.map .instr))
      (.whole (.label entry' :: (Frame.ofPlacement q.placement).prologue.map .instr)) := by
    refine ⟨?_, rfl⟩
    change (final.name entry ++ ":\n") :: List.map _ _ = (final'.name entry' ++ ":\n") :: List.map _ _
    rw [hhas.name_eq, hhas'.name_eq, (Straight.prologue _).text_eq]
  exact hhead.append (lowerBlocks_sameText hlabels q.linear.order)

/-- The lines of a function on its own, in a sheet with no other labels than its own. -/
def PlacedFunc.texts (q : PlacedFunc) : List String :=
  (lowerFunc q.linear q.placement ⟨0⟩ [functionLabelName q.name]).lines.map
    (Line.text (blockLabels q.linear [functionLabelName q.name]).2)

theorem has_alone (q : PlacedFunc) :
    LabelTable.Has (blockLabels q.linear [functionLabelName q.name]).2 ⟨0⟩ (functionLabelName q.name) :=
  have hfirst : LabelTable.Has [functionLabelName q.name] ⟨0⟩ (functionLabelName q.name) := rfl
  hfirst.mono (prefix_blockLabels _ _)

theorem head?_texts (q : PlacedFunc) : q.texts.head? = some ("_" ++ q.name ++ ":\n") := by
  unfold PlacedFunc.texts
  rw [lowerFunc_lines, List.cons_append, List.map_cons, List.head?_cons, Line.text, (has_alone q).name_eq]
  rfl

theorem texts_lowerFunc (h : q.Ready) (hhas : final.Has entry (functionLabelName q.name))
    (hle : (blockLabels q.linear names).2 <+: final) :
    (lowerFunc q.linear q.placement entry names).lines.map (Line.text final) = q.texts :=
  (lowerFunc_sameText h hhas (has_alone q) hle List.prefix_rfl).lines

theorem texts_lowerFuncs : ∀ {fs : List (PlacedFunc × Label)} {names final : LabelTable}, Entitled fs names final →
    (lowerFuncs names fs).lines.map (Line.text final) = fs.flatMap fun p => p.1.texts
  | [], _, _, _ => rfl
  | (f, l) :: fs, names, final, h => by
    obtain ⟨hf, hl, hle⟩ := h.head
    rw [lines_lowerFuncs_cons hf, List.map_append, texts_lowerFunc hf hl hle, texts_lowerFuncs h.tail]
    rfl

/-! ### Sections -/

/-- Whether a line is the label of a function. -/
def Line.opens (names : LabelTable) (function : String) : Line → Bool
  | .label l => names.name l == functionLabelName function
  | _ => false

/-- Whether what stands before a line ends there: the names of functions' labels begin
with an underscore, and only the end of a unit has directives behind code. -/
def Line.closes (names : LabelTable) : Line → Bool
  | .label l => (names.name l).toList.head? == some '_'
  | .directive _ => true
  | .instr _ => false

/-- The lines of a function: from its label up to the label of another function or the
end of the unit. -/
def Sheet.sectionOf (s : Sheet) (function : String) : List String :=
  match s.lines.dropWhile fun line => !line.opens s.names function with
  | [] => []
  | first :: rest => (first :: rest.takeWhile fun line => !line.closes s.names).map (Line.text s.names)

section

variable {names : LabelTable} {function : String}

theorem Line.closes_of_opens {line : Line} (h : line.opens names function = true) : line.closes names = true := by
  cases line with
  | label l =>
    have hname : names.name l = functionLabelName function := by simpa [Line.opens] using h
    simp [Line.closes, hname, functionLabelName, String.toList_append]
  | directive text => rfl
  | instr i => cases h

theorem sectionOf_append {front : Listing} (h : ∀ line ∈ front, line.opens names function = false) (l : Listing) :
    Sheet.sectionOf ⟨names, front ++ l⟩ function = Sheet.sectionOf ⟨names, l⟩ function := by
  unfold Sheet.sectionOf
  rw [List.dropWhile_append_of_pos fun line hline => by rw [h line hline]; rfl]

theorem sectionOf_cons {entry : Label} {inner rest : Listing} (hentry : names.name entry = functionLabelName function)
    (hinner : ∀ line ∈ inner, line.closes names = false) (hrest : ∀ line ∈ rest.head?, line.closes names = true) :
    Sheet.sectionOf ⟨names, .label entry :: (inner ++ rest)⟩ function =
      (.label entry :: inner : Listing).map (Line.text names) := by
  have hopens : (!(Line.label entry).opens names function) = false := by simp [Line.opens, hentry]
  have htake : (inner ++ rest).takeWhile (fun line => !line.closes names) = inner := by
    rw [List.takeWhile_append_of_pos fun line hline => by rw [hinner line hline]; rfl]
    cases rest with
    | nil => simp
    | cons line rest => simp [hrest line rfl]
  unfold Sheet.sectionOf
  rw [List.dropWhile_cons_of_neg (by simpa using hopens)]
  simp only [htake]

end

/-- A function's code stands under its label and goes on to the next function. -/
theorem lowerFunc_section (h : q.Ready) (entry : Label)
    (hle : (blockLabels q.linear names).2 <+: final) :
    ∃ inner, (lowerFunc q.linear q.placement entry names).lines = .label entry :: inner ∧
      ∀ line ∈ inner, line.closes final = false := by
  refine ⟨_, lowerFunc_lines q.linear q.placement entry names, fun line hline => ?_⟩
  rcases List.mem_append.mp hline with hline | hline
  · obtain ⟨i, -, rfl⟩ := List.mem_map.mp hline
    rfl
  · rcases Context.mem_lowerBlocks (h.choose_spec names).complete hline with ⟨b, l, hl, rfl⟩ | ⟨i, rfl, -⟩
    · have hname := ((has_blockLabel h.nodup hl).mono hle).name_eq
      simp [Line.closes, hname, blockLabelName, String.toList_append]
    · rfl

/-- The code of functions begins with the label of a function. -/
theorem closes_head_lowerFuncs {fs : List (PlacedFunc × Label)} {rest : Listing}
    (h : Entitled fs names final) (hrest : ∀ line ∈ rest.head?, line.closes final = true) :
    ∀ line ∈ ((lowerFuncs names fs).lines ++ rest).head?, line.closes final = true := by
  cases fs with
  | nil => exact hrest
  | cons p fs =>
    obtain ⟨f, l⟩ := p
    obtain ⟨hf, hl, hle⟩ := h.head
    obtain ⟨inner, hlines, -⟩ := lowerFunc_section hf l hle
    rw [lines_lowerFuncs_cons hf, hlines]
    rintro line ⟨⟩
    have hopens : (Line.label l).opens final f.name = true := by simpa [Line.opens] using hl.name_eq
    exact Line.closes_of_opens hopens

/-- The section of each function holds its lines. -/
theorem sectionOf_lowerFuncs : ∀ {fs : List (PlacedFunc × Label)} {names final : LabelTable} {rest : Listing},
    Entitled fs names final → (fs.map fun p => p.1.name).Nodup →
    (∀ line ∈ rest.head?, line.closes final = true) →
    ∀ p ∈ fs, Sheet.sectionOf ⟨final, (lowerFuncs names fs).lines ++ rest⟩ p.1.name = p.1.texts
  | (f, l) :: fs, names, final, rest, h, hnd, hrest, p, hp => by
    obtain ⟨hf, hl, hle⟩ := h.head
    have hnd := List.nodup_cons.mp hnd
    obtain ⟨inner, hlines, hinner⟩ := lowerFunc_section hf l hle
    rw [lines_lowerFuncs_cons hf, hlines, List.append_assoc]
    rcases List.mem_cons.mp hp with rfl | hp
    · rw [List.cons_append, sectionOf_cons hl.name_eq hinner (closes_head_lowerFuncs h.tail hrest), ← hlines]
      exact texts_lowerFunc hf hl hle
    · rw [sectionOf_append ?_, sectionOf_lowerFuncs h.tail hnd.2 hrest p hp]
      intro line hline
      rcases List.mem_cons.mp hline with rfl | hline
      · -- another function has another name
        have hne : f.name ≠ p.1.name := fun heq => hnd.1 (List.mem_map.mpr ⟨p, hp, heq.symm⟩)
        simp only [Line.opens, beq_eq_false_iff_ne, ne_eq]
        exact fun heq => hne ((String.append_right_inj "_").mp (hl.name_eq.symm.trans heq))
      · by_contra hopens
        have hcloses := Line.closes_of_opens (Bool.eq_true_of_not_eq_false hopens)
        rw [hinner line hline] at hcloses
        cases hcloses

/-! ### Units -/

/-- The lines of `main`. -/
def mainTexts : List String :=
  ["main:\n", "\tcall _main\n", "\tmov %eax, %edi\n", "\tmov $60, %eax\n", "\tsyscall\n"]

/-- The lines of a unit. Every unit has the same but for the name of the source and what
belongs to its functions: the line that makes the name of a function known, and its section. -/
def unitTexts (source : String) (sections : List (String × List String)) : List String :=
  ["\t.file \"" ++ source ++ "\"\n", "\t.globl main\n"] ++ sections.map (fun s => "\t.globl _" ++ s.1 ++ "\n")
    ++ ["\t.text\n"] ++ mainTexts ++ sections.flatMap (fun s => s.2)
    ++ ["\t.section .note.GNU-stack,\"\",@progbits\n"]

theorem texts_main {main : Label} (hmain : names.Has main "main") (hentry : names.Has entry "_main") :
    (.label main :: (mainCode entry).map .instr : Listing).map (Line.text names) = mainTexts := by
  have hlabel : Line.text names (.label main) = "main:\n" := by
    simp only [Line.text, hmain.name_eq]
    rfl
  have hcall : Line.text names (.instr (.call entry.address)) = "\tcall _main\n" := by
    simp only [Line.text, Instr.text, hentry.resolve_eq]
    rfl
  simp only [mainCode, List.map_cons, List.map_nil, hlabel, hcall]
  rfl

theorem texts_header (names : LabelTable) (source : String) (placed : List PlacedFunc) :
    (header source placed).map (Line.text names) = ["\t.file \"" ++ source ++ "\"\n", "\t.globl main\n"] ++
      placed.map (fun q => "\t.globl _" ++ q.name ++ "\n") ++ ["\t.text\n"] := by
  have hfile : Line.text names (.directive (".file \"" ++ source ++ "\"")) = "\t.file \"" ++ source ++ "\"\n" := by
    apply String.toList_inj.mp
    simp [Line.text, String.toList_append]
  have hglobl : ∀ q : PlacedFunc,
      Line.text names (.directive (".globl " ++ functionLabelName q.name)) = "\t.globl _" ++ q.name ++ "\n" := by
    intro q
    apply String.toList_inj.mp
    simp [Line.text, functionLabelName, String.toList_append]
  simp only [header, List.map_append, List.map_cons, List.map_nil, List.map_map, Function.comp_def, hfile, hglobl]
  rfl

/-- What stands before the functions of a unit opens none. -/
theorem not_opens_before (source : String) (placed : List PlacedFunc) {main : Label}
    (hmain : names.Has main "main") (entry : Label) (function : String) :
    ∀ line ∈ header source placed ++ (.label main :: (mainCode entry).map .instr),
      line.opens names function = false := by
  intro line hline
  rcases List.mem_append.mp hline with hline | hline
  · obtain ⟨text, rfl⟩ := mem_header hline
    rfl
  · rcases List.mem_cons.mp hline with rfl | hline
    · simp only [Line.opens, hmain.name_eq, beq_eq_false_iff_ne, ne_eq]
      intro heq
      have hlist := congrArg String.toList heq
      simp [functionLabelName, String.toList_append] at hlist
    · obtain ⟨i, -, rfl⟩ := List.mem_map.mp hline
      rfl

/-- A unit in lines, and where the lines of its functions are. -/
theorem emitUnit_sections {source : String} {placed : List PlacedFunc} {sheet : Sheet} (h : ∀ q ∈ placed, q.Ready)
    (hnames : (placed.map PlacedFunc.name).Nodup)
    (hentry : ∀ q ∈ placed, q.linear.func.isEntry = true → q.name = Typed.entryName)
    (hsheet : emitUnit source placed = .ok sheet) :
    (∀ q ∈ placed, sheet.sectionOf q.name = q.texts) ∧
      sheet.texts = unitTexts source (placed.map fun q => (q.name, q.texts)) := by
  obtain ⟨q, entry, hfind, rfl⟩ := emitUnit_shape h hsheet
  obtain ⟨hmain, hall⟩ := entitled_unit h
  have hzip := map_fst_zip_functionLabels placed []
  refine ⟨fun r hr => ?_, ?_⟩
  · obtain ⟨p, hp, rfl⟩ := List.mem_map.mp (hzip.symm ▸ hr)
    have hnd : ((placed.zip (functionLabels placed []).1).map fun p => p.1.name).Nodup := by
      rw [← hzip, List.map_map] at hnames
      exact hnames
    rw [List.append_assoc, sectionOf_append (not_opens_before source placed hmain entry _)]
    exact sectionOf_lowerFuncs hall hnd (by rintro line ⟨⟩; rfl) p hp
  · -- the entry function is the one called `main`
    have hmem := List.mem_of_find?_eq_some hfind
    have hisEntry : q.linear.func.isEntry = true := by
      have hsome := List.find?_some hfind
      exact hsome
    have hcalled : (withBlocks (mainLabel placed).2 placed).Has entry "_main" := by
      have hhas := hall.has _ hmem
      rwa [hentry q (List.of_mem_zip hmem).1 hisEntry] at hhas
    have htexts : (placed.zip (functionLabels placed []).1).flatMap (fun p => p.1.texts) =
        placed.flatMap PlacedFunc.texts := by
      conv_rhs => rw [← hzip, List.flatMap_map]
    unfold Sheet.texts
    rw [List.map_append, List.map_append, List.map_append, texts_lowerFuncs hall, htexts, texts_header,
      texts_main hmain hcalled, unitTexts, List.map_map, List.flatMap_map]
    rfl

end Asm

/-! ### Programs -/

/-- A source text, the program it is read as, and what this is checked to. -/
structure Reads (source : String) (program : Syntax.Program) (typed : Typed.Program) : Prop where
  read : (Token.tokenize source >>= Syntax.parse) = .ok program
  checked : Typed.check program = .ok typed

variable {source : String} {program : Syntax.Program} {typed : Typed.Program}

theorem Reads.checkSource_eq (h : Reads source program typed) : checkSource source = .ok typed := by
  obtain ⟨tokens, htokens, hprogram⟩ := bind_eq_ok.mp h.read
  exact bind_eq_ok.mpr ⟨tokens, htokens, bind_eq_ok.mpr ⟨program, hprogram, h.checked⟩⟩

theorem Reads.checkFunc (h : Reads source program typed) :
    List.Forall₂ (fun f t => Typed.checkFunc f = .ok t) program.functions typed.functions :=
  (check_inv h.checked).2.2

/-- What becomes of a function on its own, with the registers of a pool. -/
def PlacedAlone (pool : List Reg) (f : Syntax.Func) (q : Asm.PlacedFunc) : Prop :=
  ∃ t, Typed.checkFunc f = .ok t ∧ Places t q ∧ q.PlacedBy pool

theorem Places.linear_eq {t : Typed.Func} {q q' : Asm.PlacedFunc} (h : Places t q) (h' : Places t q') :
    q.linear = q'.linear := by
  obtain ⟨⟨f, count, hf, hg⟩, hq, -⟩ := h
  obtain ⟨⟨f', count', hf', hg'⟩, hq', -⟩ := h'
  obtain rfl := Except.ok.inj (hf.symm.trans hf')
  have hfunc : q.linear.func = q'.linear.func := (ok_pair_inj (hg.symm.trans hg')).1
  rw [hfunc] at hq
  exact Except.ok.inj (hq.symm.trans hq')

namespace PlacedAlone

variable {pool : List Reg} {f f' : Syntax.Func} {q q' : Asm.PlacedFunc}

/-- Functions that differ in places of the source only become the same. -/
theorem unique (h : PlacedAlone pool f q) (h' : PlacedAlone pool f' q') (hsame : f.unplaced = f'.unplaced) :
    q = q' := by
  obtain ⟨t, ht, hq, hplaced⟩ := h
  obtain ⟨t', ht', hq', hplaced'⟩ := h'
  obtain rfl := Typed.checkFunc_unique ht ht' hsame
  exact hplaced.unique hplaced' (hq.linear_eq hq')

theorem name_eq (h : PlacedAlone pool f q) : q.name = f.name := by
  obtain ⟨t, ht, hq, -⟩ := h
  exact hq.name_eq.trans (checkFunc_head ht).1

theorem entry (h : PlacedAlone pool f q) (hentry : q.linear.func.isEntry = true) : q.name = Typed.entryName := by
  have hname := h.name_eq
  obtain ⟨t, ht, hq, -⟩ := h
  rw [hq.1.facts.2.2, (checkFunc_head ht).2] at hentry
  exact hname.trans (by simpa using hentry)

end PlacedAlone

theorem forall₂_placedAlone {pool : List Reg} {fs : List Syntax.Func} {ts : List Typed.Func}
    {placed : List Asm.PlacedFunc} (hchecked : List.Forall₂ (fun f t => Typed.checkFunc f = .ok t) fs ts)
    (hplaces : List.Forall₂ Places ts placed) (hplaced : ∀ q ∈ placed, q.PlacedBy pool) :
    List.Forall₂ (PlacedAlone pool) fs placed := by
  induction hchecked generalizing placed with
  | nil =>
    cases hplaces
    exact .nil
  | cons hft _ ih =>
    obtain _ | ⟨htq, hrest⟩ := hplaces
    exact .cons ⟨_, hft, htq, hplaced _ List.mem_cons_self⟩
      (ih hrest fun q hq => hplaced q (List.mem_cons_of_mem _ hq))

/-- The sections of a program's functions, with their names. -/
def sections (program : Syntax.Program) (sheet : Asm.Sheet) : List (String × List String) :=
  program.functions.map fun f => (f.name, sheet.sectionOf f.name)

/-- An accepted program is written section by section, each that of a function on its own. -/
theorem Reads.sections_alone (h : Reads source program typed) (o : Options) :
    ∃ sheet c, (writeProgram o typed = .ok sheet ∧ compileSource o source = .ok c ∧ c.assembly = sheet.text) ∧
      sheet.Resolved ∧ sheet.texts = Asm.unitTexts o.nameOfSource (sections program sheet) ∧
      ∀ f ∈ program.functions, ∃ q, PlacedAlone (RegFile.ofLimit o.registerLimit).pool f q ∧
        sheet.sectionOf f.name = q.texts := by
  have hsource := h.checkSource_eq
  obtain ⟨prepared, placed, sheet, c, hprepared, hplaced, hsheet, hc, htext, hprepares, hplaces⟩ :=
    compileProgram_ok (checkSource_accepted hsource) o
  have hwrite : writeProgram o typed = .ok sheet :=
    bind_eq_ok.mpr ⟨prepared, hprepared, bind_eq_ok.mpr ⟨placed, hplaced, hsheet⟩⟩
  have hcompile : compileSource o source = .ok c := by
    unfold compileSource
    simp only [hsource, hc]
  have halone := forall₂_placedAlone h.checkFunc (forall₂_places hprepares hplaces)
    (Asm.placeFuncs_placedBy prepared.functions hplaced)
  have hready : ∀ q ∈ placed, q.Ready := fun q hq => by
    obtain ⟨g, -, hg⟩ := forall₂_mem_right hplaces q hq
    exact hg.2.2
  have hnames : placed.map Asm.PlacedFunc.name = program.functions.map Syntax.Func.name :=
    map_eq_of_forall₂ halone fun _ _ hq => hq.name_eq
  have htyped : typed.functions.map Typed.Func.name = program.functions.map Syntax.Func.name :=
    map_eq_of_forall₂ h.checkFunc fun _ _ hf => (checkFunc_head hf).1
  have hnodup : (placed.map Asm.PlacedFunc.name).Nodup := by
    rw [hnames, ← htyped]
    exact (checkSource_accepted hsource).names
  obtain ⟨hsections, htexts⟩ := Asm.emitUnit_sections hready hnodup (fun q hq hentry => by
    obtain ⟨f, -, hf⟩ := forall₂_mem_right halone q hq
    exact hf.entry hentry) hsheet
  have heq : placed.map (fun q => (q.name, q.texts)) = sections program sheet := by
    rw [List.map_congr_left fun q hq => by rw [← hsections q hq]]
    exact map_eq_of_forall₂ halone fun _ _ hq => by rw [hq.name_eq]
  refine ⟨sheet, c, ⟨hwrite, hcompile, htext⟩, Asm.resolved_emitUnit hready hsheet, heq ▸ htexts, fun f hf => ?_⟩
  obtain ⟨q, hq, hfq⟩ := forall₂_mem_left halone f hf
  exact ⟨q, hfq, hfq.name_eq ▸ hsections q hq⟩

/-- Programs whose functions have the same sections are permuted section by section. -/
theorem sections_perm {p₁ p₂ : Syntax.Program} {l₁ l₂ : Asm.Sheet}
    (hsame : ∀ f₁ ∈ p₁.functions, ∀ f₂ ∈ p₂.functions, f₁.unplaced = f₂.unplaced →
      l₁.sectionOf f₁.name = l₂.sectionOf f₂.name)
    (hperm : (p₁.functions.map Syntax.Func.unplaced).Perm (p₂.functions.map Syntax.Func.unplaced)) :
    (sections p₁ l₁).Perm (sections p₂ l₂) := by
  have hmap := hperm.map fun u => (u.name, l₁.sectionOf u.name)
  rw [List.map_map, List.map_map] at hmap
  have hsecond : p₂.functions.map (fun f => (f.name, l₁.sectionOf f.name)) = sections p₂ l₂ := by
    refine List.map_congr_left fun f₂ hf₂ => ?_
    obtain ⟨f₁, hf₁, heq⟩ := List.mem_map.mp (hperm.mem_iff.mpr (List.mem_map_of_mem hf₂))
    have hname : f₁.name = f₂.name := show f₁.unplaced.name = f₂.unplaced.name by rw [heq]
    rw [← hsame f₁ hf₁ f₂ hf₂ heq, hname]
  exact hsecond ▸ hmap

/-- **Functions are compiled on their own.** Two programs that are accepted, compiled with the
same limit of registers, have the same lines for a function that is in both, up to places of
the source. The addresses in each unit are resolved to the names of its labels. Besides the
lines of its functions and those that make their names known, a unit holds nothing that depends
on the program, so the order of the functions is that of these lines. -/
theorem functions_compiled_alone {s₁ s₂ : String} {p₁ p₂ : Syntax.Program} {t₁ t₂ : Typed.Program}
    (h₁ : Reads s₁ p₁ t₁) (h₂ : Reads s₂ p₂ t₂) {o₁ o₂ : Options} (hlimit : o₁.registerLimit = o₂.registerLimit) :
    ∃ l₁ c₁ l₂ c₂, (writeProgram o₁ t₁ = .ok l₁ ∧ compileSource o₁ s₁ = .ok c₁ ∧ c₁.assembly = l₁.text) ∧
      (writeProgram o₂ t₂ = .ok l₂ ∧ compileSource o₂ s₂ = .ok c₂ ∧ c₂.assembly = l₂.text) ∧
      l₁.Resolved ∧ l₂.Resolved ∧
      (∀ f₁ ∈ p₁.functions, ∀ f₂ ∈ p₂.functions, f₁.unplaced = f₂.unplaced →
        (l₁.sectionOf f₁.name).head? = some ("_" ++ f₁.name ++ ":\n") ∧
        l₁.sectionOf f₁.name = l₂.sectionOf f₂.name) ∧
      l₁.texts = Asm.unitTexts o₁.nameOfSource (sections p₁ l₁) ∧
      l₂.texts = Asm.unitTexts o₂.nameOfSource (sections p₂ l₂) ∧
      ((p₁.functions.map Syntax.Func.unplaced).Perm (p₂.functions.map Syntax.Func.unplaced) →
        (sections p₁ l₁).Perm (sections p₂ l₂)) := by
  obtain ⟨l₁, c₁, hl₁, hresolved₁, hunit₁, halone₁⟩ := h₁.sections_alone o₁
  obtain ⟨l₂, c₂, hl₂, hresolved₂, hunit₂, halone₂⟩ := h₂.sections_alone o₂
  have hsame : ∀ f₁ ∈ p₁.functions, ∀ f₂ ∈ p₂.functions, f₁.unplaced = f₂.unplaced →
      l₁.sectionOf f₁.name = l₂.sectionOf f₂.name := by
    intro f₁ hf₁ f₂ hf₂ heq
    obtain ⟨q₁, hq₁, hsection₁⟩ := halone₁ f₁ hf₁
    obtain ⟨q₂, hq₂, hsection₂⟩ := halone₂ f₂ hf₂
    rw [hsection₁, hsection₂, hq₁.unique (hlimit ▸ hq₂) heq]
  refine ⟨l₁, c₁, l₂, c₂, hl₁, hl₂, hresolved₁, hresolved₂,
    fun f₁ hf₁ f₂ hf₂ heq => ⟨?_, hsame f₁ hf₁ f₂ hf₂ heq⟩, hunit₁, hunit₂, sections_perm hsame⟩
  obtain ⟨q, hq, hsection⟩ := halone₁ f₁ hf₁
  rw [hsection, ← hq.name_eq]
  exact Asm.head?_texts q

/-- What a text is read as, by its tokens. -/
theorem exists_reads (source : String) (tokens : List Token) (trees : List Syntax.Func)
    (htokens : (Token.tokenize source).toOption = some tokens)
    (htrees : ((Syntax.parse tokens).toOption.map fun p => p.functions.map Syntax.Func.unplaced) = some trees)
    (hchecked : (checkSource source).toOption.isSome = true) :
    ∃ program typed, Reads source program typed ∧ program.functions.map Syntax.Func.unplaced = trees := by
  cases h : checkSource source with
  | error d => simp [h, Except.toOption] at hchecked
  | ok typed =>
    obtain ⟨tokens', htokens', h⟩ := bind_eq_ok.mp h
    obtain ⟨program, hprogram, h⟩ := bind_eq_ok.mp h
    rw [htokens'] at htokens
    obtain rfl : tokens' = tokens := Option.some.inj htokens
    rw [hprogram] at htrees
    exact ⟨program, typed, ⟨bind_eq_ok.mpr ⟨tokens', htokens', hprogram⟩, h⟩, Option.some.inj htrees⟩

/-- A function with a loop. -/
def halfLine : String := "int half() \x7b int x = 9; while (x > 2) x = x / 2; return x; \x7d"

def mainLine : String := "int main() \x7b return 1; \x7d"

def halfTokens (line : Nat) : List Token :=
  [(.int, 1), (.ident "half", 5), (.lParen, 9), (.rParen, 10), (.lBrace, 12), (.int, 14), (.ident "x", 18),
    (.assign, 20), (.number 9, 22), (.semi, 23), (.while_, 25), (.lParen, 31), (.ident "x", 32), (.gt, 34),
    (.number 2, 36), (.rParen, 37), (.ident "x", 39), (.assign, 41), (.ident "x", 43), (.slash, 45), (.number 2, 47),
    (.semi, 48), (.return_, 50), (.ident "x", 57), (.semi, 58), (.rBrace, 60)].map fun t => ⟨t.1, ⟨line, t.2⟩⟩

def mainTokens (line : Nat) : List Token :=
  [(.int, 1), (.ident "main", 5), (.lParen, 9), (.rParen, 10), (.lBrace, 12), (.return_, 14), (.number 1, 21),
    (.semi, 22), (.rBrace, 24)].map fun t => ⟨t.1, ⟨line, t.2⟩⟩

def halfTree : Syntax.Func :=
  let p := Span.start
  ⟨p, .int, "half", [.simple (.declare p .int "x" (some (.int p 9))),
    .while_ p (.binary p .gt (.var p "x") (.int p 2))
      (.simple (.assign p "x" none (.binary p .div (.var p "x") (.int p 2)))),
    .return_ p (.var p "x")]⟩

def mainTree : Syntax.Func := ⟨.start, .int, "main", [.return_ .start (.int .start 1)]⟩

/-- Two functions in either order, with one register and different names of the source. -/
theorem half_moved : ∃ p₁ t₁ p₂ t₂ l₁ l₂, Reads (halfLine ++ "\n" ++ mainLine) p₁ t₁ ∧
    Reads (mainLine ++ "\n" ++ halfLine) p₂ t₂ ∧ p₁.functions.map Syntax.Func.unplaced = [halfTree, mainTree] ∧
    p₂.functions.map Syntax.Func.unplaced = [mainTree, halfTree] ∧
    writeProgram ⟨some 1, none, false⟩ t₁ = .ok l₁ ∧ writeProgram ⟨some 1, some "moved", true⟩ t₂ = .ok l₂ ∧
    l₁.sectionOf "half" = l₂.sectionOf "half" ∧ (l₁.sectionOf "half").head? = some "_half:\n" ∧
    (sections p₁ l₁).Perm (sections p₂ l₂) := by
  obtain ⟨p₁, t₁, h₁, htrees₁⟩ := exists_reads (halfLine ++ "\n" ++ mainLine)
    (halfTokens 1 ++ mainTokens 2 ++ [⟨.eof, ⟨2, 25⟩⟩]) [halfTree, mainTree]
    (by decide +kernel) (by rfl) (by decide +kernel)
  obtain ⟨p₂, t₂, h₂, htrees₂⟩ := exists_reads (mainLine ++ "\n" ++ halfLine)
    (mainTokens 1 ++ halfTokens 2 ++ [⟨.eof, ⟨2, 61⟩⟩]) [mainTree, halfTree]
    (by decide +kernel) (by rfl) (by decide +kernel)
  obtain ⟨l₁, c₁, l₂, c₂, ⟨hw₁, -⟩, ⟨hw₂, -⟩, -, -, hsame, -, -, hperm⟩ := functions_compiled_alone h₁ h₂
    (show Options.registerLimit ⟨some 1, none, false⟩ = Options.registerLimit ⟨some 1, some "moved", true⟩ from rfl)
  obtain ⟨f₁, hf₁, heq₁⟩ := List.mem_map.mp
    (htrees₁ ▸ List.mem_cons_self : halfTree ∈ p₁.functions.map Syntax.Func.unplaced)
  obtain ⟨f₂, hf₂, heq₂⟩ := List.mem_map.mp
    (htrees₂ ▸ List.mem_cons_of_mem _ List.mem_cons_self : halfTree ∈ p₂.functions.map Syntax.Func.unplaced)
  have hname₁ : f₁.name = "half" := show f₁.unplaced.name = _ by rw [heq₁]; rfl
  have hname₂ : f₂.name = "half" := show f₂.unplaced.name = _ by rw [heq₂]; rfl
  obtain ⟨hhead, hsection⟩ := hsame f₁ hf₁ f₂ hf₂ (heq₁.trans heq₂.symm)
  rw [hname₁, hname₂] at hsection
  rw [hname₁] at hhead
  refine ⟨p₁, t₁, p₂, t₂, l₁, l₂, h₁, h₂, htrees₁, htrees₂, hw₁, hw₂, hsection, hhead, hperm ?_⟩
  rw [htrees₁, htrees₂]
  exact List.Perm.swap _ _ _

end Chordal
