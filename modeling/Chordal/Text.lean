/-
# Pieces of text

Spellings that several printers share.

Key definitions: `Text.ofBool`, `Text.bracketed`.
-/
namespace Chordal.Text

/-- The text of a truth value. -/
def ofBool (b : Bool) : String := if b then "true" else "false"

/-- Texts in brackets, with a blank between them. -/
def bracketed (items : List String) : String := "[" ++ " ".intercalate items ++ "]"

/-- Texts with a comma and a blank between them. -/
def commaSeparated (items : List String) : String := ", ".intercalate items

end Chordal.Text
