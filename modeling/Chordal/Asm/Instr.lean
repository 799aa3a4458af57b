/-
# Machine instructions

The instructions of the machine that functions become. Values are worked on in
the low halves of registers; the stack and saved registers take whole ones. An
operand is a register or a word of the frame, at a distance from the frame
pointer.

Labels are numbered as they are made, and a table holds their names. A jump holds
an address that is made from the number of its label. When it is written, the
address is resolved to the number and the number to the name. An address has 64
bits, more than any table needs.

Key definitions: `Operand`, `Cond`, `Label`, `LabelTable.resolve`, `Instr`, `Instr.text`.
-/
import Chordal.Failure
import Chordal.Reg
import Chordal.Word

namespace Chordal.Asm

/-- A place that an instruction reads. -/
inductive Operand where
  | reg (r : Reg)
  | frame (displacement : Int)
deriving DecidableEq, Repr

/-- Outcomes of a comparison of signed words. -/
inductive Cond where
  | equal
  | notEqual
  | less
  | greater
  | lessEqual
  | greaterEqual
deriving DecidableEq, Repr

/-- A label: its place in the table of labels. -/
structure Label where
  id : Nat
deriving DecidableEq, Repr

/-- Where the addresses of labels begin; smaller ones could be taken for constants. -/
def labelBase : Nat := 0x1000

/-- The address that stands for a label in an instruction. -/
def Label.address (l : Label) : Nat := labelBase + l.id

/-- The names of labels, in the order in which the labels were made. -/
abbrev LabelTable := List String

namespace LabelTable

/-- Makes a label of the given name. -/
def create (names : LabelTable) (name : String) : Label × LabelTable :=
  (⟨names.length⟩, names ++ [name])

/-- The name of a label. -/
def name (names : LabelTable) (l : Label) : String := names[l.id]?.getD ""

/-- The name of the label that an address stands for, if it stands for one. -/
def symbol? (names : LabelTable) (address : Nat) : Option String :=
  if address < labelBase then none else names[address - labelBase]?

/-- The text of an address; one that stands for no label is written as a number. -/
def resolve (names : LabelTable) (address : Nat) : String :=
  (names.symbol? address).getD (toString address)

end LabelTable

/-- Operations on a register and an operand that leave their result in the
register. -/
inductive AluOp where
  | add
  | sub
  | imul
  | and
  | or
  | xor
deriving DecidableEq, Repr

/-- A constant that is stored in one byte and read with its sign. -/
abbrev ShortWord := BitVec 8

/-- Instructions. Targets come first. -/
inductive Instr where
  | mov (target : Reg) (source : Operand)
  | movImm (target : Reg) (value : Word)
  | store (displacement : Int) (source : Reg)
  | mov64 (target source : Reg)
  | movzx (target source : Reg)
  | alu (op : AluOp) (target : Reg) (source : Operand)
  | cmp (left : Reg) (right : Operand)
  | cmpImm (left : Reg) (value : ShortWord)
  | xorImm (target : Reg) (value : ShortWord)
  | neg (target : Reg)
  | not (target : Reg)
  | cltd
  | idiv (divisor : Reg)
  | shl (target : Reg)
  | sar (target : Reg)
  | setcc (cond : Cond) (target : Reg)
  | push (source : Reg)
  | pop (target : Reg)
  | add64 (target : Reg) (value : Word)
  | sub64 (target : Reg) (value : Word)
  | ret
  | syscall
  | call (address : Nat)
  | jmp (address : Nat)
  | jcc (cond : Cond) (address : Nat)
deriving DecidableEq, Repr

/-- The short form of a word, if it has one. -/
def ShortWord.ofWord (w : Word) : Except Failure ShortWord :=
  if -128 ≤ w.toInt ∧ w.toInt ≤ 127 then .ok (w.setWidth 8) else .error .immediateTooWide

/-- The letters that stand for a condition. -/
def Cond.text : Cond → String
  | .equal => "e"
  | .notEqual => "ne"
  | .less => "l"
  | .greater => "g"
  | .lessEqual => "le"
  | .greaterEqual => "ge"

/-- The name of an operation. -/
def AluOp.text : AluOp → String
  | .add => "add"
  | .sub => "sub"
  | .imul => "imul"
  | .and => "and"
  | .or => "or"
  | .xor => "xor"

/-- The text of a word of the frame. A distance of zero is left out. -/
def frameText (displacement : Int) : String :=
  (if displacement = 0 then "" else toString displacement) ++ "(%rbp)"

/-- The low half of a register as text. -/
def halfText (r : Reg) : String := "%" ++ r.name32

/-- The low byte of a register as text. -/
def byteText (r : Reg) : String := "%" ++ r.name8

/-- The text of an operand. -/
def Operand.text : Operand → String
  | .reg r => halfText r
  | .frame displacement => frameText displacement

/-- The text of a constant. -/
def immText {n : Nat} (w : BitVec n) : String := "$" ++ toString w.toInt

/-- An instruction with two operands as text; the source comes first. -/
def twoText (name source target : String) : String := name ++ " " ++ source ++ ", " ++ target

/-- The text of an instruction, with the names of labels for addresses. -/
def Instr.text (names : LabelTable) : Instr → String
  | .mov target source => twoText "mov" source.text (halfText target)
  | .movImm target value => twoText "mov" (immText value) (halfText target)
  | .store displacement source => twoText "mov" (halfText source) (frameText displacement)
  | .mov64 target source => twoText "mov" source.text target.text
  | .movzx target source => twoText "movzbl" (byteText source) (halfText target)
  | .alu op target source => twoText op.text source.text (halfText target)
  | .cmp left right => twoText "cmp" right.text (halfText left)
  | .cmpImm left value => twoText "cmp" (immText value) (halfText left)
  | .xorImm target value => twoText "xor" (immText value) (halfText target)
  | .neg target => "neg " ++ halfText target
  | .not target => "not " ++ halfText target
  | .cltd => "cltd"
  | .idiv divisor => "idiv " ++ halfText divisor
  | .shl target => twoText "shl" "%cl" (halfText target)
  | .sar target => twoText "sar" "%cl" (halfText target)
  | .setcc cond target => "set" ++ cond.text ++ " " ++ byteText target
  | .push source => "push " ++ source.text
  | .pop target => "pop " ++ target.text
  | .add64 target value => twoText "add" (immText value) target.text
  | .sub64 target value => twoText "sub" (immText value) target.text
  | .ret => "ret"
  | .syscall => "syscall"
  | .call address => "call " ++ names.resolve address
  | .jmp address => "jmp " ++ names.resolve address
  | .jcc cond address => "j" ++ cond.text ++ " " ++ names.resolve address

end Chordal.Asm
