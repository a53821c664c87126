import StackScript.Proofs.Code.Digits

-- What stands at an offset of a code, by the bytes that follow there. An instruction that is read was written with just
-- these bytes.
namespace StackScript

namespace OpCode

def operandBytes (op : OpCode) : Nat := op.operandWidths.foldr (· + ·) 0

theorem byte_ofByte? {b : UInt8} {op : OpCode} (known : ofByte? b = some op) : op.byte = b := by
  have each : ∀ i : Fin all.size, (all[i]).byte.toNat = i := by decide
  obtain ⟨below, rfl⟩ := Array.getElem?_eq_some_iff.mp known
  exact UInt8.toNat_inj.mp (each ⟨b.toNat, below⟩)

end OpCode

namespace Code

variable {code : Code} {offset : Nat}

def after (code : Code) (offset : Nat) : List UInt8 := code.toList.drop offset

theorem length_after : (code.after offset).length = code.size - offset := by
  simp only [after, List.length_drop, Array.length_toList]

theorem after_add (n : Nat) : code.after (offset + n) = (code.after offset).drop n := List.drop_drop.symm

theorem getElem?_after (i : Nat) : code[offset + i]? = (code.after offset)[i]? := by
  simp only [after, List.getElem?_drop, Array.getElem?_toList]

theorem numberAt_after {bytes rest : List UInt8} (m : Nat) (here : code.after offset = bytes ++ rest) :
    code.numberAt offset bytes.length m = byteRange bytes.length * m + ofBigEndian bytes := by
  induction bytes generalizing offset m with
  | nil => simp [numberAt, byteRange, ofBigEndian]
  | cons b bytes ih =>
    have first : code[offset]? = some b := by
      have found := @getElem?_after code offset 0
      simpa only [Nat.add_zero, here, List.cons_append, List.getElem?_cons_zero] using found
    have others : code.after (offset + 1) = bytes ++ rest := by
      simp only [after_add, here, List.cons_append, List.drop_succ_cons, List.drop_zero]
    have value := ih (256 * m + b.toNat) others
    simp only [List.length_cons, numberAt, first, Option.getD_some, value, ofBigEndian_cons, byteRange, Nat.mul_add,
      Nat.mul_assoc, Nat.add_assoc]

-- An operand is the number that its bytes stand for, unless the end of the code cuts it off.
theorem operandAt?_eq {width : Nat} (narrow : width ≤ 8) : code.operandAt? width offset =
    if offset + width ≤ code.size then some (ofBigEndian ((code.after offset).take width)) else none := by
  unfold operandAt?
  split
  · rename_i inside
    have length : ((code.after offset).take width).length = width := by
      simp only [List.length_take, length_after]
      omega
    have read := numberAt_after 0 (List.take_append_drop width (code.after offset)).symm
    simp only [length, Nat.mul_zero, Nat.zero_add] at read
    simp only [Nat.sub_eq_zero_of_le narrow, Nat.min_eq_left narrow, Nat.add_zero, read]
  · rfl

theorem operandsAt?_written (op : OpCode) {widths operands : List Nat} (narrow : ∀ width ∈ widths, width ≤ 8)
    (inside : offset ≤ code.size) (read : code.operandsAt? widths offset = some operands) :
    operands.length = widths.length ∧ offset + widths.foldr (· + ·) 0 ≤ code.size ∧
      Instruction.encodeOperands op operands widths = .ok ((code.after offset).take (widths.foldr (· + ·) 0)) := by
  induction widths generalizing offset operands with
  | nil =>
    cases read
    exact ⟨rfl, inside, rfl⟩
  | cons width widths ih =>
    obtain ⟨here, others⟩ := List.forall_mem_cons.mp narrow
    simp only [operandsAt?, operandAt?_eq here] at read
    split at read
    · rename_i n rest first second
      cases read
      split at first
      · rename_i fits
        cases first
        obtain ⟨count, further, written⟩ := ih others fits second
        have length : ((code.after offset).take width).length = width := by
          simp only [List.length_take, length_after]
          omega
        have small := ofBigEndian_lt ((code.after offset).take width)
        have digits := bigEndian_ofBigEndian ((code.after offset).take width)
        simp only [length] at small digits
        have joined : (code.after offset).take (width + widths.foldr (· + ·) 0) =
            (code.after offset).take width ++ (code.after (offset + width)).take (widths.foldr (· + ·) 0) := by
          simp only [after_add, List.take_add]
        refine ⟨congrArg Nat.succ count, by simpa only [List.foldr_cons, Nat.add_assoc] using further, ?_⟩
        simp only [Instruction.encodeOperands, small, if_true, written, List.foldr_cons, joined, digits]
        rfl
      · cases first
    · cases read

theorem operandsAt?_short {widths : List Nat} (narrow : ∀ width ∈ widths, width ≤ 8)
    (cut : code.operandsAt? widths offset = none) : code.size < offset + widths.foldr (· + ·) 0 := by
  induction widths generalizing offset with
  | nil => cases cut
  | cons width widths ih =>
    obtain ⟨here, others⟩ := List.forall_mem_cons.mp narrow
    simp only [List.foldr_cons]
    by_cases inside : offset + width ≤ code.size
    · simp only [operandsAt?, operandAt?_eq here, inside, if_true] at cut
      split at cut
      · cases cut
      · rename_i absent
        cases rest : code.operandsAt? widths (offset + width) with
        | none =>
          have short := ih others rest
          omega
        | some operands => exact absurd rest (absent _ operands rfl)
    · omega

-- What the bytes from an offset on begin with: a byte of no opcode, too few bytes for an instruction, or the encoding of one.
inductive Begins (code : Code) (offset : Nat) : Item → Prop where
  | unknown {byte : UInt8} {rest : List UInt8} : code.after offset = byte :: rest → OpCode.ofByte? byte = none →
      Begins code offset (.unknown byte)
  | truncated {op : OpCode} {rest : List UInt8} : code.after offset = op.byte :: rest → rest.length < op.operandBytes →
      Begins code offset (.truncated op)
  | instruction {i : Instruction} {bytes rest : List UInt8} : code.after offset = bytes ++ rest → i.encode = .ok bytes →
      Begins code offset (.instruction i)

theorem itemAt_begins {item : Item} (inside : offset < code.size) (known : code.itemAt offset = item) :
    Begins code offset item := by
  subst known
  have here : code.after offset = code[offset] :: code.after (offset + 1) :=
    List.drop_eq_getElem_cons (l := code.toList) inside
  have found : code[offset]? = some code[offset] := Array.getElem?_eq_getElem inside
  simp only [itemAt, found]
  split
  · rename_i unknown
    exact .unknown here unknown
  · rename_i op known
    have narrow : ∀ width ∈ op.operandWidths, width ≤ 8 := fun width present => (op.operandWidths_small width present).2
    simp only [← OpCode.byte_ofByte? known] at here
    split
    · rename_i cut
      have short := operandsAt?_short narrow cut
      refine .truncated here ?_
      simp only [length_after, OpCode.operandBytes]
      omega
    · rename_i operands read
      obtain ⟨count, -, written⟩ := operandsAt?_written op narrow inside read
      have front : code.after offset =
          (op.byte :: (code.after (offset + 1)).take op.operandBytes) ++ (code.after (offset + 1)).drop op.operandBytes := by
        simp only [here, List.cons_append, List.take_append_drop]
      refine .instruction front ?_
      simp only [Instruction.encode, count, if_true, written]
      rfl

end Code
end StackScript
