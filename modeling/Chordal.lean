import Chordal.Word
import Chordal.Text
import Chordal.Operator
import Chordal.Source.Span
import Chordal.Source.Blank
import Chordal.Token
import Chordal.Diagnostic
import Chordal.Token.Lexer
import Chordal.Syntax
import Chordal.Syntax.Parser
import Chordal.Syntax.Printer
import Chordal.Typed
import Chordal.Typed.Printer
import Chordal.Typed.Flow
import Chordal.Typed.Checker
import Chordal.IdSet
import Chordal.IdMap
import Chordal.Failure
import Chordal.Ssa.Func
import Chordal.Ssa.Layout
import Chordal.Ssa.Printer
import Chordal.Ssa.Run
import Chordal.Ssa.Copies
import Chordal.Ssa.PhiRemoval
import Chordal.Ssa.Construction
import Chordal.Ssa.Linear
import Chordal.Ssa.Liveness
import Chordal.Interference
import Chordal.Interference.Construction
import Chordal.Interference.Coloring
import Chordal.Reg
import Chordal.Placement
import Chordal.Allocation
import Chordal.Asm.Instr
import Chordal.Asm.Listing
import Chordal.Asm.Lowering
import Chordal.Asm.Unit
import Chordal.Statistics
import Chordal.Compiler
import Chordal.CommandLine.Arguments
import Chordal.CommandLine.Path
import Chordal.CommandLine.Host
import Chordal.CommandLine.Directory
import Chordal.Main
import Chordal.Proofs.Ssa.ConstructionMeaning
import Chordal.Proofs.Ssa.PhiRemovalMeaning
import Chordal.Proofs.Asm.CodeMeaning
import Chordal.Proofs.Ssa.KnownValues
import Chordal.Proofs.Ssa.SoundSteps
import Chordal.Proofs.Ssa.SoundLoops
import Chordal.Proofs.Ssa.SoundConstruction
import Chordal.Proofs.Ssa.Coherence
import Chordal.Proofs.Syntax.Executions
import Chordal.Proofs.Syntax.Collecting
import Chordal.Proofs.Typed.FlowExact
import Chordal.Proofs.Ssa.Progress
import Chordal.Proofs.Ssa.PhiRemovalStrict
import Chordal.Proofs.Compilation
import Chordal.Proofs.Ssa.BlockKinds
import Chordal.Proofs.Asm.Labels
import Chordal.Proofs.Syntax.GrammarExact
import Chordal.Proofs.Typed.CheckerMeaning
import Chordal.Proofs.TypeSafety
import Chordal.Proofs.Asm.FrameDiscipline
import Chordal.Proofs.Token.Decomposition
import Chordal.Proofs.Token.Spelling
import Chordal.Proofs.Interference.OptimalColoring
import Chordal.Proofs.Asm.Sections
import Chordal.Proofs.Ssa.CopyOrder
import Chordal.Proofs.Ssa.CopyCycles
import Chordal.Proofs.Ssa.PathLiveness
import Chordal.Proofs.Interference.LiveRanges
import Chordal.Proofs.Interference.Pressure
import Chordal.Proofs.Interference.History
import Chordal.Proofs.Interference.GapFree
import Chordal.Proofs.Ssa.DepthFirst
import Chordal.Proofs.Ssa.StepLimit
import Chordal.Proofs.Syntax.Settling
import Chordal.Proofs.Asm.Aliasing
import Chordal.Proofs.Ssa.ProperBuilder
import Chordal.Proofs.Ssa.Conditionals
import Chordal.Proofs.Ssa.Rebinding
import Chordal.Proofs.Ssa.LoopCarried
