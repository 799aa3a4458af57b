/-
# Paths

The parts of a path, divided by slashes.

Key definitions: `Path.parts`, `Path.fileName?`.
-/
namespace Chordal.CommandLine.Path

/-- The parts of a path between slashes. -/
def parts (path : String) : List String := path.splitOn "/"

/-- The parts that name something; empty ones and single dots do not. -/
def names (path : String) : List String := (parts path).filter fun p => p != "" && p != "."

/-- The name of the file that a path leads to. -/
def fileName? (path : String) : Option String := (names path).getLast?.filter (· != "..")

end Chordal.CommandLine.Path
