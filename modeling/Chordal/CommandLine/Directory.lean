/-
# A directory as a host

A host that is a value: files below a working directory, and perhaps one linker
that does nothing but end in a given way.

Key definitions: `Directory`, `Directory.read`, `Directory.write`, `Directory.host`.
-/
import Chordal.CommandLine.Host

namespace Chordal.CommandLine

/-- Files by the parts of their paths below the working directory. -/
structure Directory where
  files : List (List String × ByteArray)

/-- A place that a path leads to. What lies outside the working directory is not
known, but for directories above it. -/
inductive Spot where
  | inside (names : List String)
  | outside
deriving DecidableEq, Repr

namespace Directory

/-- The content of a file. -/
def content? (d : Directory) (names : List String) : Option ByteArray :=
  (d.files.find? fun f => f.1 == names).map (·.2)

/-- Whether there are files below a place, or it is the working directory. -/
def isDirectory (d : Directory) (names : List String) : Bool :=
  names.isEmpty || d.files.any fun f => names.isPrefixOf f.1 && f.1 != names

/-- Goes from a directory to one of its parts. -/
def enter (d : Directory) (spot : Spot) (part : String) : Except FileFault Spot :=
  match spot with
  | .outside => if part = "" ∨ part = "." ∨ part = ".." then .ok .outside else .error .notFound
  | .inside names =>
    if (d.content? names).isSome then .error .notDirectory
    else if !d.isDirectory names then .error .notFound
    else if part = "" ∨ part = "." then .ok spot
    else if part = ".." then .ok (if names.isEmpty then .outside else .inside names.dropLast)
    else .ok (.inside (names ++ [part]))

/-- Goes along the parts of a path. -/
def follow (d : Directory) : Spot → List String → Except FileFault Spot
  | spot, [] => .ok spot
  | spot, part :: rest => do
    let spot ← d.enter spot part
    d.follow spot rest

/-- Where a path starts, and its parts. -/
def origin (path : String) : Spot × List String :=
  match Path.parts path with
  | "" :: rest => (.outside, rest)
  | parts => (.inside [], parts)

/-- The text of a file. -/
def read (d : Directory) (path : String) : Except FileFault String := do
  let (spot, parts) := origin path
  match ← d.follow spot parts with
  | .outside => .error .isDirectory
  | .inside names =>
    match d.content? names with
    | some bytes =>
      match String.fromUTF8? bytes with
      | some text => .ok text
      | none => .error .notText
    | none => .error (if d.isDirectory names then .isDirectory else .notFound)

/-- The directory without a file. -/
def erase (d : Directory) (names : List String) : Directory :=
  ⟨d.files.filter fun f => f.1 != names⟩

/-- Writes a file, which need not exist. A path that ends in a slash names no
file. -/
def write (d : Directory) (path text : String) : Except FileFault Directory := do
  let (spot, parts) := origin path
  let named := parts.reverse.dropWhile (· = "")
  match named with
  | [] => .error .isDirectory
  | last :: before =>
    match ← d.follow spot before.reverse >>= (d.enter · last) with
    | .outside => .error .isDirectory
    | .inside names =>
      if named.length < parts.length ∨ d.isDirectory names then .error .isDirectory
      else .ok ⟨(d.erase names).files ++ [(names, text.toUTF8)]⟩

/-- Removes a file, if the path leads to one. -/
def remove (d : Directory) (path : String) : Directory :=
  let (spot, parts) := origin path
  match d.follow spot parts with
  | .ok (.inside names) => d.erase names
  | _ => d

/-- A host with the files of a directory. The linker, if there is one, has a
name and ends in the given way. -/
def host (linker : Option (String × Ending)) : Host (StateM Directory) where
  readText path := return ((← get).read path).mapError FileFault.message
  writeText path text := do
    match (← get).write path text with
    | .ok d => set d; return .ok ()
    | .error e => return .error e.message
  remove path := modify (·.remove path)
  link program _ _ := return linker.bind fun l => if l.1 = program then some l.2 else none

end Directory
end Chordal.CommandLine
