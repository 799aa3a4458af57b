/-
# Statistics of a compilation

Counts that are kept while functions are compiled. The name of the largest
function is that of the last one among functions of the same size.

Key definitions: `Statistics`, `Statistics.text`.
-/
namespace Chordal

/-- Counts over the functions of a program. -/
structure Statistics where
  functions : Nat
  instrs : Nat
  phis : Nat
  registers : Nat
  slots : Nat
  machineInstrs : Nat
  largestSize : Nat
  largestName : String
deriving DecidableEq, Repr

namespace Statistics

/-- The counts before anything was compiled. -/
def zero : Statistics := ⟨0, 0, 0, 0, 0, 0, 0, ""⟩

/-- Counts a function with `size` instructions. -/
def countFunction (s : Statistics) (name : String) (size : Nat) : Statistics :=
  let s := { s with functions := s.functions + 1, instrs := s.instrs + size }
  if s.largestSize ≤ size then { s with largestSize := size, largestName := name } else s

/-- Counts phis that were taken out. -/
def countPhis (s : Statistics) (n : Nat) : Statistics := { s with phis := s.phis + n }

/-- Counts the registers and slots of a function. -/
def countPlaces (s : Statistics) (registers slots : Nat) : Statistics :=
  { s with registers := s.registers + registers, slots := s.slots + slots }

/-- Counts machine instructions. -/
def countMachineInstrs (s : Statistics) (n : Nat) : Statistics :=
  { s with machineInstrs := s.machineInstrs + n }

/-- A line with a count. -/
def countLine (what : String) (n : Nat) : String := "  " ++ what ++ ": " ++ toString n ++ "\n"

/-- The text of the counts. The largest function has a line if it has a name. -/
def text (s : Statistics) : String :=
  "Compilation Session Statistics:\n"
    ++ countLine "Functions compiled" s.functions
    ++ countLine "IR instructions" s.instrs
    ++ countLine "PHI nodes resolved" s.phis
    ++ countLine "Registers allocated" s.registers
    ++ countLine "Spill slots" s.slots
    ++ countLine "Machine instructions" s.machineInstrs
    ++ (if s.largestName = "" then ""
        else "  Largest function: " ++ s.largestName ++ " (" ++ toString s.largestSize
          ++ " IR instructions)\n")

end Statistics
end Chordal
