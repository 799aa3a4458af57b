/-
# The compiler

From the text of a program to assembly: tokens, syntax, types, flow graphs,
flow graphs without phis, places for values, and machine instructions. Each
function passes through on its own.

Key definitions: `checkSource`, `compileProgram`, `compileSource`.
-/
import Chordal.Asm.Unit
import Chordal.Ssa.Construction
import Chordal.Ssa.PhiRemoval
import Chordal.Ssa.Printer
import Chordal.Statistics
import Chordal.Syntax.Parser
import Chordal.Token.Lexer
import Chordal.Typed.Checker

namespace Chordal

/-- What can be chosen for a compilation. -/
structure Options where
  registerLimit : Option Nat
  sourceName : Option String
  dump : Bool
deriving DecidableEq, Repr

/-- The name of the source that goes into the assembly. -/
def Options.nameOfSource (o : Options) : String := o.sourceName.getD "input"

/-- A compiled program. The dump, if there is one, shows the functions with
their phis. -/
structure Compiled where
  assembly : String
  statistics : Statistics
  dump : Option String
deriving DecidableEq, Repr

/-- Why there is no compiled program. -/
inductive CompileError where
  | diagnostic (d : Diagnostic)
  | internal (f : Failure)
deriving Repr

namespace CompileError

/-- The wording of an error. -/
def message : CompileError → String
  | .diagnostic d => d.message
  | .internal f => "internal compiler error: " ++ f.message

/-- The status with which the compiler exits. -/
def exitCode : CompileError → Nat
  | .diagnostic d => d.exitCode
  | .internal _ => 1

end CompileError

/-- Checks the text of a program. -/
def checkSource (source : String) : Except Diagnostic Typed.Program := do
  let tokens ← Token.tokenize source
  let program ← Syntax.parse tokens
  Typed.check program

/-- Flow graphs without phis, the text they had before, and the counts. -/
structure Prepared where
  functions : List Ssa.Func
  dump : String
  statistics : Statistics
deriving DecidableEq, Repr

/-- A flow graph without its phis, and how many there were. -/
def withoutPhis (f : Ssa.Func) : Except Failure (Ssa.Func × Nat) :=
  match f.removePhis with
  | .ok r => .ok r
  | .error stuck => .error stuck.cause

/-- Prepares functions one after another. -/
def prepare (dump : Bool) : List Typed.Func → Statistics → Except Failure Prepared
  | [], s => .ok ⟨[], "", s⟩
  | t :: rest, s => do
    let f ← Ssa.build t
    let text ← if dump then f.dump else pure ""
    let (g, phis) ← withoutPhis f
    let others ← prepare dump rest ((s.countFunction f.name f.instrCount).countPhis phis)
    return ⟨g :: others.functions, text ++ others.dump, others.statistics⟩

/-- Compiles a checked program. -/
def compileProgram (o : Options) (p : Typed.Program) : Except Failure Compiled := do
  let prepared ← prepare o.dump p.functions .zero
  if !prepared.functions.any (·.isEntry) then throw .noEntryPoint
  let placed ← Asm.placeFuncs (.ofLimit o.registerLimit) prepared.functions
  let sheet ← Asm.emitUnit o.nameOfSource placed
  let statistics := (placed.foldl
    (fun s f => s.countPlaces f.placement.used.size f.placement.stackSlots)
    prepared.statistics).countMachineInstrs sheet.lines.instrCount
  return ⟨sheet.text, statistics, if o.dump then some prepared.dump else none⟩

/-- Compiles the text of a program. -/
def compileSource (o : Options) (source : String) : Except CompileError Compiled :=
  match checkSource source with
  | .error d => .error (.diagnostic d)
  | .ok p =>
    match compileProgram o p with
    | .error f => .error (.internal f)
    | .ok c => .ok c

end Chordal
