/-
# Assembly units

All functions of a program as one listing. It opens with directives and with
`main`, which calls the entry function and ends the process with its result. The
functions share a table of labels: first come their own, then that of `main`, and
then those of their blocks, function by function.

Key definitions: `PlacedFunc`, `placeFuncs`, `emitUnit`.
-/
import Chordal.Allocation
import Chordal.Asm.Lowering

namespace Chordal.Asm

/-- A function in a line and the places of its values. -/
structure PlacedFunc where
  linear : Ssa.Linear
  placement : Placement
deriving Repr

/-- The name of a function. -/
def PlacedFunc.name (f : PlacedFunc) : String := f.linear.func.name

/-- Puts functions in a line and allocates their values, all with one file. -/
def placeFuncs : RegFile → List Ssa.Func → Except Failure (List PlacedFunc)
  | _, [] => .ok []
  | file, f :: rest => do
    let l ← f.linear
    let (a, file) ← file.allocateLinear l
    let others ← placeFuncs file rest
    return ⟨l, a.placement⟩ :: others

/-- Makes the labels of functions. -/
def functionLabels : List PlacedFunc → LabelTable → List Label × LabelTable
  | [], names => ([], names)
  | f :: rest, names =>
    let (l, names) := names.create (functionLabelName f.name)
    let (others, names) := functionLabels rest names
    (l :: others, names)

/-- The directives that open a unit. -/
def header (source : String) (functions : List PlacedFunc) : Listing :=
  [.directive (".file \"" ++ source ++ "\""), .directive ".globl main"]
    ++ functions.map (fun f => .directive (".globl " ++ functionLabelName f.name))
    ++ [.directive ".text"]

/-- The number by which the system knows the end of a process. -/
def exitCall : Word := 60

/-- The code of `main`. -/
def mainCode (entry : Label) : List Instr :=
  [.call entry.address, .mov .rdi (.reg .rax), .movImm .rax exitCall, .syscall]

/-- The table of labels with those of the blocks of functions. -/
def withBlocks (names : LabelTable) : List PlacedFunc → LabelTable
  | [] => names
  | f :: rest => withBlocks (blockLabels f.linear names).2 rest

/-- Functions under their labels. -/
def lowerFuncs : LabelTable → List (PlacedFunc × Label) → Emission
  | _, [] => .whole []
  | names, (f, l) :: rest =>
    (lowerFunc f.linear f.placement l names).append (lowerFuncs (blockLabels f.linear names).2 rest)

/-- The directive that closes a unit. -/
def trailer : Listing := [.directive ".section .note.GNU-stack,\"\",@progbits"]

/-- The listing of a program. The first function that is marked as entry is the
one that `main` calls. -/
def emitUnit (source : String) (functions : List PlacedFunc) : Except Failure Sheet := do
  let (labels, names) := functionLabels functions []
  match (functions.zip labels).find? fun p => p.1.linear.func.isEntry with
  | none => .error .noEntryPoint
  | some (_, entry) =>
    let (main, names) := names.create "main"
    let body ← (lowerFuncs names (functions.zip labels)).toExcept
    return ⟨withBlocks names functions, header source functions ++ [.label main]
      ++ (mainCode entry).map .instr ++ body ++ trailer⟩

end Chordal.Asm
