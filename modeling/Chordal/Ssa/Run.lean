/-
# Running flow graphs

A machine that runs a flow graph one instruction at a time, with or without
phis. Going to a block reads all its leading phis at once, by the block that
control came from, and takes no step; every other instruction is one step. A
run has a step limit. The limit is a natural number, and the steps that are left are
counted down from it: the number of steps taken never passes the limit, so a counter
of 64 bits holds it for every limit below 2^64.

Key definitions: `Store`, `State`, `Func.enter`, `Func.step`, `Func.run`.
-/
import Chordal.Ssa.Func

namespace Chordal.Ssa

/-- Why a run ends without a result. Blocks in messages go by their labels. -/
inductive RunError where
  | division (fault : DivisionFault)
  | undefinedValue (value : Nat)
  | missingPhiEntry (block : String)
  | missingTerminator (block : String)
  | stepLimit (limit : Nat)
  | noSuchBlock (block : BlockId)
deriving DecidableEq, Repr

/-- The wording of a failed division. -/
def divisionMessage : DivisionFault → String
  | .byZero => "division by zero"
  | .overflow => "division overflow"

/-- The wording of a run's error. -/
def RunError.message : RunError → String
  | .division fault => divisionMessage fault
  | .undefinedValue value => "value " ++ valueText value ++ " read before it was defined"
  | .missingPhiEntry block =>
    "block " ++ block ++ " has no incoming phi value for its predecessor"
  | .missingTerminator block => "block " ++ block ++ " does not end in a terminator"
  | .stepLimit limit => "step limit of " ++ toString limit ++ " instructions exceeded"
  | .noSuchBlock block => "there is no block " ++ blockText block

/-- The contents of the values, by their numbers. -/
abbrev Store := Array (Option Word)

namespace Store

/-- A store in which no value is defined yet. -/
def undefined (size : Nat) : Store := Array.replicate size none

/-- The content of a value, if it is defined. -/
def get? (s : Store) (id : Nat) : Option Word := s[id]?.join

/-- Reads a value. -/
def read (s : Store) (v : Value) : Except RunError Word :=
  match s.get? v.id with
  | some w => .ok w
  | none => .error (.undefinedValue v.id)

/-- Writes a value; the store grows if it has to. -/
def write (s : Store) (v : Value) (w : Word) : Store :=
  if h : v.id < s.size then s.set v.id (some w)
  else (s ++ Array.replicate (v.id - s.size) none).push (some w)

/-- Writes values one after another. -/
def writeAll (s : Store) (assignments : List (Value × Word)) : Store :=
  assignments.foldl (fun s p => s.write p.1 p.2) s

end Store

/-- A point of a run: the block, what is left of its code, and the store. -/
structure State where
  block : BlockId
  code : List Instr
  store : Store
deriving DecidableEq, Repr

/-- What one step leads to. -/
inductive Next where
  | state (s : State)
  | result (w : Word)
deriving DecidableEq, Repr

/-- The contents that phis choose when control comes from `origin`. All of them
read the same store. -/
def readPhis (origin : Option BlockId) (label : String) (store : Store) :
    List Instr → Except RunError (List (Value × Word))
  | .phi target entries :: rest =>
    match entries.find? fun e => some e.2 == origin with
    | none => .error (.missingPhiEntry label)
    | some e => do
      let w ← store.read e.1
      let others ← readPhis origin label store rest
      return (target, w) :: others
  | _ => .ok []

namespace Func

/-- Control comes from `origin` to the block `b`. -/
def enter (f : Func) (origin : Option BlockId) (b : BlockId) (store : Store) :
    Except RunError State :=
  match f.block? b with
  | none => .error (.noSuchBlock b)
  | some blk => do
    let assignments ← readPhis origin (f.label b) store blk.phis
    return ⟨b, blk.body, store.writeAll assignments⟩

/-- Runs one instruction of the block `b`; `rest` is the code behind it. A phi
that is not at the head of its block does nothing. -/
def step (f : Func) (b : BlockId) (store : Store) (rest : List Instr) :
    Instr → Except RunError Next
  | .const target value => .ok (.state ⟨b, rest, store.write target value⟩)
  | .bool target value => .ok (.state ⟨b, rest, store.write target (Word.ofBool value)⟩)
  | .move target source => do
    let w ← store.read source
    return .state ⟨b, rest, store.write target w⟩
  | .unary target op operand => do
    let w ← store.read operand
    return .state ⟨b, rest, store.write target (op.apply w)⟩
  | .binary target op left right => do
    let l ← store.read left
    let r ← store.read right
    match op.apply l r with
    | .ok w => return .state ⟨b, rest, store.write target w⟩
    | .error fault => .error (.division fault)
  | .phi _ _ => .ok (.state ⟨b, rest, store⟩)
  | .jump target => do
    let s ← f.enter (some b) target store
    return .state s
  | .branch condition ifTrue ifFalse => do
    let w ← store.read condition
    let s ← f.enter (some b) (if w != 0 then ifTrue else ifFalse) store
    return .state s
  | .ret value => do
    let w ← store.read value
    return .result w

/-- Goes on for at most `left` steps. -/
def runFrom (f : Func) (limit : Nat) : (left : Nat) → State → Except RunError Word
  | _, ⟨b, [], _⟩ => .error (.missingTerminator (f.label b))
  | 0, ⟨_, _ :: _, _⟩ => .error (.stepLimit limit)
  | left + 1, ⟨b, i :: rest, store⟩ =>
    match f.step b store rest i with
    | .error e => .error e
    | .ok (.result w) => .ok w
    | .ok (.state s) => f.runFrom limit left s

/-- The result of a function, found in at most `limit` steps. -/
def run (f : Func) (limit : Nat) : Except RunError Word := do
  let s ← f.enter none f.start (.undefined f.valueCount)
  f.runFrom limit limit s

/-- The step limit of a run for which none is given. -/
def defaultStepLimit : Nat := 10000000

end Func
end Chordal.Ssa
