/-
# The command line

What the program does with its arguments, on a host that reads and writes files
and runs other programs. Assembly goes to the output itself if it is all that is
wanted. Otherwise it goes next to the output, under a name that ends in `.s`,
and a linker makes the output of it; it is removed if that works.

Key definitions: `Host`, `Report`, `run`.
-/
import Chordal.CommandLine.Arguments
import Chordal.CommandLine.Path
import Chordal.Compiler

namespace Chordal.CommandLine

/-- Why a file cannot be read or written. -/
inductive FileFault where
  | notFound
  | notDirectory
  | isDirectory
  | notText
deriving DecidableEq, Repr

/-- The wording of a fault. -/
def FileFault.message : FileFault → String
  | .notFound => "No such file or directory (os error 2)"
  | .notDirectory => "Not a directory (os error 20)"
  | .isDirectory => "Is a directory (os error 21)"
  | .notText => "stream did not contain valid UTF-8"

/-- How a program ended: with a status, or without one. -/
inductive Ending where
  | status (code : Nat)
  | killed
deriving DecidableEq, Repr

/-- What the program needs of its surroundings. Reading and writing give the
reason if they fail; `link` runs the program of that name on an output and its
assembly, if there is one. -/
structure Host (m : Type → Type) where
  readText : (path : String) → m (Except String String)
  writeText : (path content : String) → m (Except String Unit)
  remove : (path : String) → m Unit
  link : (program output assembly : String) → m (Option Ending)

/-- How a run of the program ends. -/
structure Report where
  exitCode : Nat
  stdout : String
  stderr : String
deriving DecidableEq, Repr

namespace Report

/-- A run that went well, with something on the error output. -/
def success (stderr : String) : Report := ⟨0, "", stderr⟩

/-- A run that failed, with a message behind what was on the error output. -/
def failure (exitCode : Nat) (stderr message : String) : Report :=
  ⟨exitCode, "", stderr ++ "chordc: " ++ message ++ "\n"⟩

end Report

/-- The line that says how the program is called. -/
def usage : String := "Usage: chordc [OPTIONS] <INPUT> <OUTPUT>\n"

/-- The text that help shows. -/
def helpText : String :=
  "Compile a C0-like program to x86-64\n\n" ++ usage
    ++ "\nArguments:\n"
    ++ "  <INPUT>   Source file to compile\n"
    ++ "  <OUTPUT>  Executable to produce\n"
    ++ "\nOptions:\n"
    ++ "      --emit-asm       Write the assembly to OUTPUT and stop\n"
    ++ "      --registers <N>  Use at most N allocatable registers\n"
    ++ "      --dump-ir        Print the SSA form to stderr\n"
    ++ "  -v, --verbose        Enable debug logging\n"
    ++ "  -h, --help           Print help\n"
    ++ "  -V, --version        Print version\n"

/-- The text that tells the version. -/
def versionText : String := "chordc 0.1.0\n"

/-- Statuses have eight bits. -/
def statusOf (code : Nat) : Nat := code % 256

/-- The linkers, in the order they are tried. -/
def linkers : List String := ["cc", "gcc"]

/-- The path of the assembly for an output. -/
def assemblyPath (output : String) : String := output ++ ".s"

/-- The options of the compilation that is asked for. -/
def Request.options (r : Request) : Options := ⟨r.registers, Path.fileName? r.input, r.dumpIr⟩

namespace Host

variable {m : Type → Type} [Monad m]

/-- Links with the first of some linkers that there is. -/
def linkWith (host : Host m) (output stderr : String) : (programs : List String) → m Report
  | [] => return .failure 1 stderr "no C compiler driver found to assemble the output"
  | program :: rest => do
    match ← host.link program output (assemblyPath output) with
    | none => host.linkWith output stderr rest
    | some .killed => return ⟨1, "", stderr⟩
    | some (.status code) =>
      if statusOf code = 0 then host.remove (assemblyPath output)
      return ⟨statusOf code, "", stderr⟩

/-- Writes the assembly and links it if that is wanted. -/
def finish (host : Host m) (r : Request) (c : Compiled) : m Report := do
  let stderr := c.dump.getD ""
  let path := if r.emitAsm then r.output else assemblyPath r.output
  match ← host.writeText path c.assembly with
  | .error reason => return .failure 1 stderr ("cannot write " ++ path ++ ": " ++ reason)
  | .ok _ =>
    if r.emitAsm then return .success stderr
    else host.linkWith r.output stderr linkers

/-- Carries out a request. -/
def compile (host : Host m) (r : Request) : m Report := do
  match ← host.readText r.input with
  | .error reason => return .failure 1 "" ("cannot read " ++ r.input ++ ": " ++ reason)
  | .ok source =>
    match compileSource r.options source with
    | .error e => return .failure (statusOf e.exitCode) "" e.message
    | .ok c => host.finish r c

/-- Runs the program on its arguments. -/
def run (host : Host m) (args : List String) : m Report :=
  match readArguments args with
  | .error .help => return ⟨0, helpText, ""⟩
  | .error .version => return ⟨0, versionText, ""⟩
  | .error (.misuse cause) => return ⟨3, "", "error: " ++ cause.message ++ "\n\n" ++ usage⟩
  | .ok r => host.compile r

end Host
end Chordal.CommandLine
