/-
# Listings

Assembly as a list of lines: where labels stand, directives to the assembler,
and instructions. Writing a listing may fail half-way; what stood before the
failure is kept. The text of a listing is made at the end, when all labels have
their names.

Key definitions: `Line`, `Listing`, `Sheet`, `Sheet.text`, `Emission`.
-/
import Chordal.Asm.Instr

namespace Chordal.Asm

/-- A line of a listing. -/
inductive Line where
  | label (l : Label)
  | directive (text : String)
  | instr (i : Instr)
deriving DecidableEq, Repr

/-- The text of a line. Only labels are not indented. -/
def Line.text (names : LabelTable) : Line → String
  | .label l => names.name l ++ ":\n"
  | .directive text => "\t" ++ text ++ "\n"
  | .instr i => "\t" ++ i.text names ++ "\n"

/-- Whether a line is an instruction. -/
def Line.isInstr : Line → Bool
  | .instr _ => true
  | _ => false

/-- Lines of assembly. -/
abbrev Listing := List Line

/-- The number of instructions. -/
def Listing.instrCount (l : Listing) : Nat := l.countP Line.isInstr

/-- Lines of assembly, and the names of their labels. -/
structure Sheet where
  names : LabelTable
  lines : Listing
deriving DecidableEq, Repr

namespace Sheet

/-- The texts of all lines. -/
def texts (s : Sheet) : List String := s.lines.map (Line.text s.names)

/-- The text of all lines. -/
def text (s : Sheet) : String := String.join s.texts

/-- Gives the text of a sheet to `write`, which may refuse it. -/
def deliver (write : String → Except String Unit) (s : Sheet) : Except Failure Sheet :=
  match write s.text with
  | .ok _ => .ok s
  | .error reason => .error (.writeFailed reason)

end Sheet

/-- What was written, and why it ends there if it is not whole. -/
structure Emission where
  lines : Listing
  failure : Option Failure
deriving DecidableEq, Repr

namespace Emission

/-- A whole listing. -/
def whole (lines : Listing) : Emission := ⟨lines, none⟩

/-- Some instructions, or why there are none. -/
def ofInstrs : Except Failure (List Instr) → Emission
  | .ok code => whole (code.map Line.instr)
  | .error e => ⟨[], some e⟩

/-- One emission behind another; nothing stands behind a failure. -/
def append (a b : Emission) : Emission :=
  match a.failure with
  | some _ => a
  | none => ⟨a.lines ++ b.lines, b.failure⟩

/-- Emissions one behind another. -/
def join (parts : List Emission) : Emission := parts.foldr append (whole [])

/-- The listing, if it is whole. -/
def toExcept (e : Emission) : Except Failure Listing :=
  match e.failure with
  | some cause => .error cause
  | none => .ok e.lines

end Emission
end Chordal.Asm
