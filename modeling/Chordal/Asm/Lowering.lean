/-
# From flow graphs to machine instructions

Every instruction of a function without phis becomes machine instructions that
work on the places of its values. What has to be in a register while its place
is in the frame goes through the scratch register. Dividends and results are in
`rax`, remainders in `rdx`, and shifts count with `rcx`; no value has its place
in one of these.

The frame holds the slots. The registers that have to be saved lie below it.
A jump to the block that is written next is left out.

Key definitions: `lowerBinary`, `Context.lowerInstr`, `lowerFunc`.
-/
import Chordal.Asm.Listing
import Chordal.Placement
import Chordal.Ssa.Linear

namespace Chordal.Asm

open Ssa (Value BlockId)

/-- The name of the label of a function. -/
def functionLabelName (function : String) : String := "_" ++ function

/-- The name of the label of a block. -/
def blockLabelName (function block : String) : String := ".L_" ++ function ++ "_" ++ block

/-- The operand that stands for a place. -/
def Operand.ofLocation : Location → Operand
  | .reg r => .reg r
  | .slot n => .frame (Location.slotOffset n)

/-- The register in which an operand is worked on: its own, or the scratch
register for a word of the frame. -/
def workReg : Operand → Reg
  | .reg r => r
  | .frame _ => Reg.scratch

/-- Brings `source` into a register, unless it is there. -/
def load (r : Reg) (source : Operand) : List Instr :=
  if source = .reg r then [] else [.mov r source]

/-- Brings a register to `target`, unless it is there. -/
def save (target : Operand) (r : Reg) : List Instr :=
  match target with
  | .reg t => if t = r then [] else [.mov t (.reg r)]
  | .frame displacement => [.store displacement r]

/-- Brings an operand into the register in which it is worked on. -/
def stage : Operand → List Instr
  | .reg _ => []
  | .frame displacement => [.mov Reg.scratch (.frame displacement)]

/-- A constant. -/
def lowerConst (target : Operand) (value : Word) : List Instr :=
  .movImm (workReg target) value :: save target (workReg target)

/-- A copy. -/
def lowerMove (target source : Operand) : List Instr :=
  if target = source then []
  else match target with
    | .reg r => load r source
    | .frame _ => stage source ++ save target (workReg source)

/-- The instruction for an operator with one operand. -/
def unaryInstr (r : Reg) : UnaryOp → Instr
  | .neg => .neg r
  | .bitNot => .not r
  | .logicalNot => .xorImm r 1

/-- An operator with one operand. -/
def lowerUnary (op : UnaryOp) (target source : Operand) : List Instr :=
  load (workReg target) source ++ [unaryInstr (workReg target) op]
    ++ save target (workReg target)

/-- A division, which leaves its result in `result`. -/
def lowerDivision (result : Reg) (target left right : Operand) : List Instr :=
  load .rax left ++ [.cltd] ++ stage right ++ [.idiv (workReg right)] ++ save target result

/-- A shift by `shift`. -/
def lowerShift (shift : Reg → Instr) (target left right : Operand) : List Instr :=
  load .rcx right ++ load (workReg target) left ++ [shift (workReg target)]
    ++ save target (workReg target)

/-- A comparison. -/
def lowerComparison (cond : Cond) (target left right : Operand) : List Instr :=
  stage left
    ++ [.cmp (workReg left) right, .setcc cond (workReg target),
        .movzx (workReg target) (workReg target)]
    ++ save target (workReg target)

/-- An operation that leaves its result in the place of its left operand. The
left operand is not brought to the target if the right one is there. -/
def lowerAlu (op : AluOp) (commutes : Bool) (target left right : Operand) : List Instr :=
  let through (r : Reg) := load r left ++ [Instr.alu op r right] ++ save target r
  match target with
  | .reg t =>
    if left = .reg t then [.alu op t right]
    else if right = .reg t then
      if commutes then [.alu op t left] else through Reg.scratch
    else through t
  | .frame _ => through Reg.scratch

/-- An operator with two operands. -/
def lowerBinary : BinaryOp → (target left right : Operand) → List Instr
  | .div => lowerDivision .rax
  | .mod => lowerDivision .rdx
  | .shl => lowerShift .shl
  | .shr => lowerShift .sar
  | .lt => lowerComparison .less
  | .le => lowerComparison .lessEqual
  | .gt => lowerComparison .greater
  | .ge => lowerComparison .greaterEqual
  | .eq => lowerComparison .equal
  | .ne => lowerComparison .notEqual
  | .add => lowerAlu .add BinaryOp.add.isCommutative
  | .sub => lowerAlu .sub BinaryOp.sub.isCommutative
  | .mul => lowerAlu .imul BinaryOp.mul.isCommutative
  | .and => lowerAlu .and BinaryOp.and.isCommutative
  | .or => lowerAlu .or BinaryOp.or.isCommutative
  | .xor => lowerAlu .xor BinaryOp.xor.isCommutative

/-- The size of a frame and the registers to save below it. -/
structure Frame where
  size : Word
  saved : List Reg
deriving DecidableEq, Repr

namespace Frame

/-- The frame that a placement needs. -/
def ofPlacement (p : Placement) : Frame := ⟨p.frameSize, p.calleeSaved⟩

/-- What opens a frame of the given size. -/
def openCode (size : Word) : List Instr := [.push .rbp, .mov64 .rbp .rsp, .sub64 .rsp size]

/-- What closes a frame of the given size and leaves the function. -/
def closeCode (size : Word) : List Instr := [.add64 .rsp size, .pop .rbp, .ret]

/-- What a function starts with. -/
def prologue (f : Frame) : List Instr := openCode f.size ++ f.saved.map .push

/-- What a function ends with. -/
def epilogue (f : Frame) : List Instr := f.saved.reverse.map .pop ++ closeCode f.size

end Frame

/-- What the instructions of a function have to know: the function, where its
values are, and the labels of its blocks. -/
structure Context where
  linear : Ssa.Linear
  placement : Placement
  labels : IdMap Label
deriving Repr

namespace Context

/-- The operand that stands for a value. -/
def operand (c : Context) (v : Value) : Except Failure Operand :=
  match c.placement.locations.get? v.id with
  | some l => .ok (.ofLocation l)
  | none => .error (.unplacedValue v.id)

/-- The label of a block. -/
def label (c : Context) (b : BlockId) : Except Failure Label :=
  match c.labels.get? b with
  | some l => .ok l
  | none => .error (.unplacedBlock b)

/-- The frame of the function. -/
def frame (c : Context) : Frame := .ofPlacement c.placement

/-- A jump to `target` when the block `next` is written next. -/
def lowerJump (c : Context) (next : Option BlockId) (target : BlockId) :
    Except Failure (List Instr) := do
  if next = some target then return []
  return [.jmp (← c.label target).address]

/-- The jumps behind the comparison of a branch. -/
def lowerBranch (c : Context) (next : Option BlockId) (ifTrue ifFalse : BlockId) : Emission :=
  if next = some ifTrue then
    .ofInstrs do return [.jcc .equal (← c.label ifFalse).address]
  else
    (Emission.ofInstrs do return [.jcc .notEqual (← c.label ifTrue).address]).append
      (.ofInstrs (c.lowerJump next ifFalse))

/-- One instruction of the block `b`, when the block `next` is written next. -/
def lowerInstr (c : Context) (b : BlockId) (next : Option BlockId) : Ssa.Instr → Emission
  | .const target value => .ofInstrs do
    return lowerConst (← c.operand target) value
  | .bool target value => .ofInstrs do
    return lowerConst (← c.operand target) (Word.ofBool value)
  | .move target source => .ofInstrs do
    let target ← c.operand target
    let source ← c.operand source
    return lowerMove target source
  | .unary target op source => .ofInstrs do
    let target ← c.operand target
    let source ← c.operand source
    return lowerUnary op target source
  | .binary target op left right => .ofInstrs do
    let target ← c.operand target
    let left ← c.operand left
    let right ← c.operand right
    return lowerBinary op target left right
  | .phi target _ =>
    .ofInstrs (.error (.unresolvedPhi .codeGeneration target.id (c.linear.func.label b)))
  | .jump target => .ofInstrs (c.lowerJump next target)
  | .branch condition ifTrue ifFalse =>
    (Emission.ofInstrs do
      let condition ← c.operand condition
      return stage condition ++ [.cmpImm (workReg condition) 0]).append
        (c.lowerBranch next ifTrue ifFalse)
  | .ret value => .ofInstrs do
    let value ← c.operand value
    return load .rax value ++ c.frame.epilogue

/-- A block under its label. -/
def lowerBlock (c : Context) (b : BlockId) (next : Option BlockId) : Emission :=
  match c.label b with
  | .error e => ⟨[], some e⟩
  | .ok l => (Emission.whole [.label l]).append
    (.join ((c.linear.code b).map (c.lowerInstr b next)))

/-- Blocks one after another. -/
def lowerBlocks (c : Context) : List BlockId → Emission
  | [] => .whole []
  | b :: rest => (c.lowerBlock b rest.head?).append (c.lowerBlocks rest)

end Context

/-- Makes labels for blocks of a function, one after another. -/
def makeLabels (f : Ssa.Func) : List BlockId → IdMap Label → LabelTable → IdMap Label × LabelTable
  | [], labels, names => (labels, names)
  | b :: rest, labels, names =>
    let (l, names) := names.create (blockLabelName f.name (f.label b))
    makeLabels f rest (labels.insert b l) names

/-- Labels for all blocks of a function, and the table with them. -/
def blockLabels (l : Ssa.Linear) (names : LabelTable) : IdMap Label × LabelTable :=
  makeLabels l.func l.order [] names

/-- A function under the label `entry`. The labels of its blocks come behind
those in `names`. -/
def lowerFunc (l : Ssa.Linear) (placement : Placement) (entry : Label) (names : LabelTable) :
    Emission :=
  let c : Context := ⟨l, placement, (blockLabels l names).1⟩
  (Emission.whole (.label entry :: c.frame.prologue.map .instr)).append (c.lowerBlocks l.order)

end Chordal.Asm
