/-
# Written flow graphs

Flow graphs as text: a line for each instruction, blocks in the order of their
layout.

Key definitions: `Instr.text`, `Func.dump`.
-/
import Chordal.Ssa.Layout
import Chordal.Text

namespace Chordal.Ssa

/-- The text of a value. -/
def Value.text (v : Value) : String := valueText v.id

/-- The text of a value with its type. -/
def Value.typedText (v : Value) : String := v.text ++ ":" ++ v.ty.text

/-- The text of an entry of a phi. -/
def entryText (e : Value × BlockId) : String := "[" ++ e.1.text ++ ", " ++ blockText e.2 ++ "]"

/-- The text of the entries of a phi, with a blank before them if there are any. -/
def entriesText : List (Value × BlockId) → String
  | [] => ""
  | entries => " " ++ Text.commaSeparated (entries.map entryText)

/-- The text of an instruction. -/
def Instr.text : Instr → String
  | .const target value => target.text ++ " = const " ++ Word.text value
  | .bool target value => target.text ++ " = const " ++ Text.ofBool value
  | .move target source => target.text ++ " = mov " ++ source.text
  | .unary target op operand => target.text ++ " = " ++ op.symbol ++ operand.text
  | .binary target op left right =>
    target.text ++ " = " ++ left.text ++ " " ++ op.symbol ++ " " ++ right.text
  | .phi target entries => target.text ++ " = phi" ++ entriesText entries
  | .jump target => "jmp " ++ blockText target
  | .branch condition ifTrue ifFalse =>
    "br " ++ condition.text ++ ", " ++ blockText ifTrue ++ ", " ++ blockText ifFalse
  | .ret value => "ret " ++ value.text

namespace Func

/-- The list of predecessors at the head of a block's text. -/
def predsText : List BlockId → String
  | [] => ""
  | preds => "  ; preds " ++ Text.commaSeparated (preds.map blockText)

/-- The lines of a block. -/
def blockLines (f : Func) (b : BlockId) : String :=
  match f.block? b with
  | none => ""
  | some blk =>
    blockText b ++ " (" ++ blk.label ++ "):" ++ predsText blk.preds ++ "\n"
      ++ String.join (blk.code.map fun i => "    " ++ i.text ++ "\n")

/-- The text of a function; blocks that cannot be reached are left out. -/
def dump (f : Func) : Except Failure String := do
  let order ← f.layout
  return "function " ++ f.name ++ "() -> " ++ f.returns.text ++ (if f.isEntry then " entry" else "")
    ++ " \x7b\n" ++ String.join (order.map f.blockLines) ++ "\x7d\n"

end Func
end Chordal.Ssa
