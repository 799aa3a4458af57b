/-
# Arguments

The arguments of the command line: two paths, and options before, between or
behind them. An option may be given once. What follows `--` is a path whatever
it looks like. Arguments are read from left to right, and the first one that
asks for help or for the version, or that is wrong, decides.

Key definitions: `Request`, `Stop`, `readArguments`.
-/
namespace Chordal.CommandLine

/-- A compilation that the arguments ask for. -/
structure Request where
  input : String
  output : String
  emitAsm : Bool
  registers : Option Nat
  dumpIr : Bool
  verbose : Bool
deriving DecidableEq, Repr

/-- What is wrong with the arguments. -/
inductive Misuse where
  | unknownOption (text : String)
  | repeatedOption (name : String)
  | unneededValue (name : String)
  | missingValue (name : String)
  | badNumber (text : String)
  | emptyPath
  | surplusPath (path : String)
  | missingPath
deriving DecidableEq, Repr

/-- The wording of what is wrong. -/
def Misuse.message : Misuse → String
  | .unknownOption text => "unexpected argument '" ++ text ++ "' found"
  | .repeatedOption name => "the argument '" ++ name ++ "' cannot be used multiple times"
  | .unneededValue name => "unexpected value for '" ++ name ++ "' found"
  | .missingValue name => "a value is required for '" ++ name ++ "' but none was supplied"
  | .badNumber text => "invalid value '" ++ text ++ "' for '--registers <N>'"
  | .emptyPath => "a path must not be empty"
  | .surplusPath path => "unexpected argument '" ++ path ++ "' found"
  | .missingPath => "the following required arguments were not provided: <INPUT> <OUTPUT>"

/-- Why reading arguments stops without a request. -/
inductive Stop where
  | help
  | version
  | misuse (cause : Misuse)
deriving DecidableEq, Repr

/-- Options without a value. -/
inductive Switch where
  | emitAsm
  | dumpIr
  | verbose
  | help
  | version
deriving DecidableEq, Repr

/-- The option with a long name. -/
def Switch.ofName? : String → Option Switch
  | "emit-asm" => some .emitAsm
  | "dump-ir" => some .dumpIr
  | "verbose" => some .verbose
  | "help" => some .help
  | "version" => some .version
  | _ => none

/-- The option with a letter for its name. -/
def Switch.ofLetter? : Char → Option Switch
  | 'v' => some .verbose
  | 'h' => some .help
  | 'V' => some .version
  | _ => none

/-- What has been read so far. -/
structure Draft where
  paths : List String
  emitAsm : Bool
  registers : Option Nat
  dumpIr : Bool
  verbose : Bool
deriving DecidableEq, Repr

/-- Numbers of registers are below this, `2 ^ 64`. -/
def limitBound : Nat := 0x10000000000000000

/-- The number that decimal digits stand for; there is at least one digit. -/
def digitsValue? : List Char → Option Nat
  | [] => none
  | digits =>
    if digits.all Char.isDigit then
      some (digits.foldl (fun n c => 10 * n + (c.toNat - '0'.toNat)) 0)
    else none

/-- A number of registers: decimal digits, with or without a plus before them. -/
def readLimit? (text : String) : Option Nat :=
  let digits := match text.toList with
    | '+' :: rest => rest
    | cs => cs
  (digitsValue? digits).filter (· < limitBound)

namespace Draft

/-- Nothing has been read. -/
def empty : Draft := ⟨[], false, none, false, false⟩

/-- Takes an option without a value. -/
def takeSwitch (d : Draft) : Switch → Except Stop Draft
  | .help => .error .help
  | .version => .error .version
  | .emitAsm =>
    if d.emitAsm then .error (.misuse (.repeatedOption "--emit-asm"))
    else .ok { d with emitAsm := true }
  | .dumpIr =>
    if d.dumpIr then .error (.misuse (.repeatedOption "--dump-ir"))
    else .ok { d with dumpIr := true }
  | .verbose =>
    if d.verbose then .error (.misuse (.repeatedOption "--verbose"))
    else .ok { d with verbose := true }

/-- Takes the number of registers. -/
def takeLimit (d : Draft) (text : String) : Except Stop Draft :=
  if d.registers.isSome then .error (.misuse (.repeatedOption "--registers <N>"))
  else match readLimit? text with
    | some n => .ok { d with registers := some n }
    | none => .error (.misuse (.badNumber text))

/-- Takes a path. -/
def takePath (d : Draft) (path : String) : Except Stop Draft :=
  if 2 ≤ d.paths.length then .error (.misuse (.surplusPath path))
  else if path = "" then .error (.misuse .emptyPath)
  else .ok { d with paths := d.paths ++ [path] }

/-- Takes options that are given by letters. -/
def takeLetters (d : Draft) : List Char → Except Stop Draft
  | [] => .ok d
  | c :: rest =>
    match Switch.ofLetter? c with
    | none => .error (.misuse (.unknownOption (String.ofList ['-', c])))
    | some s => do
      let d ← d.takeSwitch s
      d.takeLetters rest

/-- Takes paths only. -/
def takePaths (d : Draft) : List String → Except Stop Draft
  | [] => .ok d
  | path :: rest => do
    let d ← d.takePath path
    d.takePaths rest

/-- The request, once everything has been read. -/
def finish (d : Draft) : Except Stop Request :=
  match d.paths with
  | [input, output] => .ok ⟨input, output, d.emitAsm, d.registers, d.dumpIr, d.verbose⟩
  | _ => .error (.misuse .missingPath)

end Draft

/-- The forms of an argument. A lone hyphen is a path. -/
inductive Form where
  | separator
  | long (name : List Char) (value : Option (List Char))
  | letters (cs : List Char)
  | path
deriving DecidableEq, Repr

/-- The form of an argument. -/
def formOf (arg : String) : Form :=
  match arg.toList with
  | ['-', '-'] => .separator
  | '-' :: '-' :: cs =>
    match cs.dropWhile (· != '=') with
    | _ :: value => .long (cs.takeWhile (· != '=')) (some value)
    | [] => .long cs none
  | ['-'] => .path
  | '-' :: cs => .letters cs
  | _ => .path

/-- Takes an option with a long name, other than the number of registers. -/
def Draft.takeLong (d : Draft) (name : String) (value : Option (List Char)) : Except Stop Draft :=
  match Switch.ofName? name with
  | none => .error (.misuse (.unknownOption ("--" ++ name)))
  | some s =>
    if value.isSome then .error (.misuse (.unneededValue ("--" ++ name))) else d.takeSwitch s

/-- Reads arguments after those in the draft. The number of registers may stand
in the next argument, if that one has the form of a path. -/
def readFrom : Draft → List String → Except Stop Draft
  | d, [] => .ok d
  | d, arg :: rest =>
    match formOf arg with
    | .separator => d.takePaths rest
    | .letters cs => do
      let d ← d.takeLetters cs
      readFrom d rest
    | .path => do
      let d ← d.takePath arg
      readFrom d rest
    | .long name value =>
      if String.ofList name = "registers" then
        match value, rest with
        | some text, rest => do
          let d ← d.takeLimit (String.ofList text)
          readFrom d rest
        | none, text :: rest =>
          if formOf text = .path then do
            let d ← d.takeLimit text
            readFrom d rest
          else .error (.misuse (.missingValue "--registers <N>"))
        | none, [] => .error (.misuse (.missingValue "--registers <N>"))
      else do
        let d ← d.takeLong (String.ofList name) value
        readFrom d rest

/-- What the arguments ask for. -/
def readArguments (args : List String) : Except Stop Request := do
  let d ← readFrom .empty args
  d.finish

end Chordal.CommandLine
