import StackScript.Code.Instruction
import StackScript.Text.Quoted

-- Listings: one line for each instruction of a code. An unknown byte has a line of its own and the listing goes on
-- after it; an instruction that the end cuts off closes the listing.
namespace StackScript

structure ListingLine where
  offset : Nat
  item : Code.Item
deriving DecidableEq

namespace Code

def linesFrom (code : Code) (offset : Nat) (lines : Array ListingLine) : Array ListingLine :=
  if offset < code.size then
    let item := code.itemAt offset
    match item with
    | .nothing => lines
    | .truncated _ => lines.push ⟨offset, item⟩
    | .unknown _ => linesFrom code (offset + 1) (lines.push ⟨offset, item⟩)
    | .instruction i => linesFrom code (offset + i.opcode.width) (lines.push ⟨offset, item⟩)
  else lines
termination_by code.size - offset
decreasing_by all_goals (try have := i.opcode.width_pos); omega

def lines (code : Code) : Array ListingLine := linesFrom code 0 #[]

end Code

def ListingLine.text (line : ListingLine) : String :=
  let offset := Text.padded 4 line.offset
  match line.item with
  | .nothing => ""
  | .unknown byte => s!"{offset} ERROR: unknown opcode 0x{Text.hex 2 byte.toNat}\n"
  | .truncated op => s!"{offset} ERROR: truncated {op.name}\n"
  | .instruction i => i.operands.foldl (fun text n => s!"{text} {n}") s!"{offset} {i.opcode.name}" ++ "\n"

def Code.listing (code : Code) : String := code.lines.foldl (fun text line => text ++ line.text) ""

end StackScript
