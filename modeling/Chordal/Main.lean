/-
# The program

The command line on the files of the machine it runs on. No other program is
started, so assembly stays where it was written when there is more to do.
-/
import Chordal.CommandLine.Host

namespace Chordal

open CommandLine (FileFault)

/-- The reason why a file could not be read or written. -/
def fileReason : IO.Error → String
  | .noFileOrDirectory .. => FileFault.message .notFound
  | .inappropriateType .. => FileFault.message .isDirectory
  | e => toString e

/-- The files of the machine. -/
def machineHost : CommandLine.Host IO where
  readText path := do
    try
      match String.fromUTF8? (← IO.FS.readBinFile path) with
      | some text => return .ok text
      | none => return .error (FileFault.message .notText)
    catch e => return .error (fileReason e)
  writeText path text := do
    try
      IO.FS.writeFile path text
      return .ok ()
    catch e => return .error (fileReason e)
  remove path := IO.FS.removeFile path
  link _ _ _ := return none

end Chordal

def main (args : List String) : IO UInt32 := do
  let report ← Chordal.machineHost.run args
  IO.print report.stdout
  IO.eprint report.stderr
  return report.exitCode.toUInt32
