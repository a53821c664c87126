import StackScript.Code.OpCode

-- Instructions and their bytes: the byte of the opcode, then each operand with its most significant byte first.
namespace StackScript

abbrev Code := Array UInt8

structure Instruction where
  opcode : OpCode
  operands : List Nat
deriving DecidableEq

inductive Misfit where
  | operandCount (opcode : OpCode) (given : Nat)
  | operandRange (opcode : OpCode) (operand width : Nat)
deriving DecidableEq

def Misfit.message : Misfit → String
  | operandCount op given =>
    let takes := op.operandWidths.length
    s!"assertion `left == right` failed: {op.name} takes {takes} operand(s), got {given}\n  left: {takes}\n right: {given}"
  | operandRange op operand width => s!"operand {operand} does not fit in {width} byte(s) of {op.name}"

-- How many numbers `width` bytes can tell apart.
def byteRange : (width : Nat) → Nat
  | 0 => 1
  | width + 1 => byteRange width * 256

-- The `width` low bytes of a number, the most significant first.
def bigEndian : (width : Nat) → Nat → List UInt8
  | 0, _ => []
  | width + 1, n => (n / byteRange width).toUInt8 :: bigEndian width n

-- The number that bytes stand for, the most significant first.
def ofBigEndian (bytes : List UInt8) : Nat := bytes.foldl (fun n b => 256 * n + b.toNat) 0

namespace Instruction

-- Operand bytes. The first operand that its width cannot hold is refused.
def encodeOperands (op : OpCode) : List Nat → List Nat → Except Misfit (List UInt8)
  | operand :: operands, width :: widths =>
    if operand < byteRange width then do
      let rest ← encodeOperands op operands widths
      return bigEndian width operand ++ rest
    else throw (.operandRange op operand width)
  | _, _ => return []

def encode (i : Instruction) : Except Misfit (List UInt8) :=
  if i.operands.length = i.opcode.operandWidths.length then do
    let bytes ← encodeOperands i.opcode i.operands i.opcode.operandWidths
    return i.opcode.byte :: bytes
  else throw (.operandCount i.opcode i.operands.length)

end Instruction

namespace Code

-- The number in `width` bytes from `offset` on, after `n`.
def numberAt (code : Code) : (offset width n : Nat) → Nat
  | _, 0, n => n
  | offset, width + 1, n => numberAt code (offset + 1) width (256 * n + (code[offset]?.getD 0).toNat)

-- An operand of `width` bytes. Operands are 64-bit numbers, so that of a longer one only the last eight bytes
-- count.
def operandAt? (code : Code) (width offset : Nat) : Option Nat :=
  if offset + width ≤ code.size then some (numberAt code (offset + (width - 8)) (min width 8) 0) else none

def operandsAt? (code : Code) : (widths : List Nat) → (offset : Nat) → Option (List Nat)
  | [], _ => some []
  | width :: widths, offset =>
    match operandAt? code width offset, operandsAt? code widths (offset + width) with
    | some operand, some operands => some (operand :: operands)
    | _, _ => none

inductive Item where
  | nothing
  | unknown (byte : UInt8)
  | truncated (opcode : OpCode)
  | instruction (i : Instruction)
deriving DecidableEq

def itemAt (code : Code) (offset : Nat) : Item :=
  match code[offset]? with
  | none => .nothing
  | some byte =>
    match OpCode.ofByte? byte with
    | none => .unknown byte
    | some op =>
      match operandsAt? code op.operandWidths (offset + 1) with
      | none => .truncated op
      | some operands => .instruction ⟨op, operands⟩

def append (code : Code) (bytes : List UInt8) : Code := bytes.foldl Array.push code

def write (code : Code) (offset : Nat) : List UInt8 → Code
  | [] => code
  | b :: bytes => write (code.setIfInBounds offset b) (offset + 1) bytes

-- Replaces bytes in place, if they all lie inside the code.
def overwrite? (code : Code) (offset : Nat) (bytes : List UInt8) : Option Code :=
  if offset + bytes.length ≤ code.size then some (write code offset bytes) else none

def truncate (code : Code) (size : Nat) : Code := code.take size

end Code
end StackScript
