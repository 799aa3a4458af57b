/-
# Failures behind the checker

What can go wrong once a program has been checked, or in a flow graph made by
hand. A program that the checker accepts meets none of these. The wording of
every failure is in one function.

Key definitions: `Failure`, `Failure.message`.
-/
namespace Chordal

/-- Text of a value with number `id`. -/
def valueText (id : Nat) : String := "%" ++ toString id

/-- Text of a block with number `id`. -/
def blockText (id : Nat) : String := "bb" ++ toString id

/-- The stages that cannot treat a phi. -/
inductive Stage where
  | liveness
  | codeGeneration
deriving DecidableEq, Repr

/-- The name of a stage in messages. -/
def Stage.text : Stage → String
  | .liveness => "liveness"
  | .codeGeneration => "code generation"

/-- What went wrong behind the checker. Blocks in messages go by their labels. -/
inductive Failure where
  | unboundVariable (name block : String)
  | breakOutsideLoop
  | continueOutsideLoop
  | missingReturn (function : String)
  | unresolvedPhi (stage : Stage) (value : Nat) (block : String)
  | missingPhiEntry (phi : Nat) (block predecessor : String)
  | unknownNode (value : Nat)
  | selfEdge (value : Nat)
  | unplacedValue (value : Nat)
  | unplacedBlock (block : Nat)
  | noEntryPoint
  | immediateTooWide
  | writeFailed (reason : String)
  | noSuchBlock (block : Nat)
deriving DecidableEq, Repr

namespace Failure

/-- The wording of a failure. -/
def message : Failure → String
  | .unboundVariable name block =>
    "variable `" ++ name ++ "` has no reaching binding in block " ++ block
  | .breakOutsideLoop => "`break` outside of any loop context"
  | .continueOutsideLoop => "`continue` outside of any loop context"
  | .missingReturn function =>
    "function `" ++ function ++ "` can fall off its end without returning"
  | .unresolvedPhi stage value block =>
    "phi defining " ++ valueText value ++ " in block " ++ block ++ " reached " ++ stage.text
  | .missingPhiEntry phi block predecessor =>
    "phi " ++ valueText phi ++ " in block " ++ block ++ " has no incoming value for predecessor "
      ++ predecessor
  | .unknownNode value => "value " ++ valueText value ++ " is not a node of the interference graph"
  | .selfEdge value => "refusing to add a self-edge on " ++ valueText value
  | .unplacedValue value => "value " ++ valueText value ++ " has no register or stack slot"
  | .unplacedBlock block => "value " ++ blockText block ++ " has no register or stack slot"
  | .noEntryPoint => "no function is flagged as the program entry point"
  | .immediateTooWide => "instruction encoding failed: Invalid signed immediate"
  | .writeFailed reason => "failed to write assembly: " ++ reason
  | .noSuchBlock block => "there is no block " ++ blockText block

end Failure
end Chordal
