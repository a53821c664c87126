import StackScript.Proofs.Code.Bytes

-- Reading an instruction where its bytes were written gives it back.
namespace StackScript

@[simp] theorem length_bigEndian (width n : Nat) : (bigEndian width n).length = width := by
  induction width generalizing n with
  | zero => rfl
  | succ width ih => rw [bigEndian, List.length_cons, ih]

namespace Code

-- The high digits are those of the quotient, so the low ones are read as those of the remainder.
theorem numberAt_holds {code : Code} {offset width : Nat} (n m : Nat) (held : code.Holds offset (bigEndian width n)) :
    code.numberAt offset width m = byteRange width * m + n % byteRange width := by
  induction width generalizing offset m with
  | zero => simp [numberAt, byteRange, Nat.mod_one]
  | succ width ih =>
    rw [bigEndian] at held
    have digit : (code[offset]?.getD 0).toNat = n / byteRange width % 256 := by
      rw [held.head]
      simp [Nat.toUInt8, UInt8.toNat_ofNat']
    rw [numberAt, ih _ held.tail, digit, byteRange, Nat.mod_mul, Nat.mul_add, Nat.mul_comm 256 m,
      ← Nat.mul_assoc, Nat.mul_right_comm]
    omega

theorem operandAt?_holds {code : Code} {offset width n : Nat} (narrow : width ≤ 8) (positive : 0 < width)
    (fits : n < byteRange width) (held : code.Holds offset (bigEndian width n)) :
    code.operandAt? width offset = .some n := by
  have inside : offset + width ≤ code.size := by
    have := held.inside (by
      intro empty
      have := congrArg List.length empty
      simp at this
      omega)
    simpa using this
  rw [operandAt?, if_pos inside, Nat.min_eq_left narrow, Nat.sub_eq_zero_of_le narrow, Nat.add_zero,
    numberAt_holds n 0 held, Nat.mul_zero, Nat.zero_add, Nat.mod_eq_of_lt fits]

end Code

namespace Instruction

-- What encoding needs: as many operands as the opcode takes, each within its width.
def Fits : List Nat → List Nat → Prop
  | [], [] => True
  | operand :: operands, width :: widths => operand < byteRange width ∧ Fits operands widths
  | _, _ => False

theorem encode_fits {i : Instruction} (fits : Fits i.operands i.opcode.operandWidths) :
    ∃ bytes, i.encode = .ok bytes := by
  have each (op : OpCode) (operands widths : List Nat) (fits : Fits operands widths) :
      operands.length = widths.length ∧ ∃ bytes, encodeOperands op operands widths = .ok bytes := by
    induction operands generalizing widths with
    | nil =>
      cases widths with
      | nil => exact ⟨rfl, [], rfl⟩
      | cons width widths => exact fits.elim
    | cons operand operands ih =>
      cases widths with
      | nil => exact fits.elim
      | cons width widths =>
        obtain ⟨count, rest, encoded⟩ := ih widths fits.2
        refine ⟨by simp [count], bigEndian width operand ++ rest, ?_⟩
        rw [encodeOperands, if_pos fits.1, encoded]
        rfl
  obtain ⟨count, bytes, encoded⟩ := each i.opcode _ _ fits
  refine ⟨i.opcode.byte :: bytes, ?_⟩
  rw [encode, if_pos count, encoded]
  rfl

theorem encodeOperands_length {op : OpCode} {operands widths : List Nat} {bytes : List UInt8}
    (encoded : encodeOperands op operands widths = .ok bytes) (count : operands.length = widths.length) :
    bytes.length = widths.foldr (· + ·) 0 := by
  induction operands generalizing widths bytes with
  | nil =>
    cases widths with
    | nil => cases encoded; rfl
    | cons width widths => cases count
  | cons operand operands ih =>
    cases widths with
    | nil => cases count
    | cons width widths =>
      rw [encodeOperands] at encoded
      split at encoded
      · cases rest : encodeOperands op operands widths with
        | error m => rw [rest] at encoded; cases encoded
        | ok tail =>
          rw [rest] at encoded
          cases encoded
          rw [List.length_append, length_bigEndian, ih rest (by simpa using count), List.foldr_cons]
      · cases encoded

theorem encode_length {i : Instruction} {bytes : List UInt8} (encoded : i.encode = .ok bytes) :
    bytes.length = i.opcode.width := by
  rw [encode] at encoded
  split at encoded
  · rename_i count
    cases rest : encodeOperands i.opcode i.operands i.opcode.operandWidths with
    | error m => rw [rest] at encoded; cases encoded
    | ok tail =>
      rw [rest] at encoded
      cases encoded
      rw [List.length_cons, encodeOperands_length rest count, OpCode.width, Nat.add_comm]
  · cases encoded

end Instruction

theorem OpCode.operandWidths_small (op : OpCode) : ∀ width ∈ op.operandWidths, 0 < width ∧ width ≤ 8 := by
  cases op <;> decide

namespace Code

theorem operandsAt?_holds {code : Code} {op : OpCode} {operands widths : List Nat} {bytes : List UInt8} {offset : Nat}
    (small : ∀ width ∈ widths, 0 < width ∧ width ≤ 8) (count : operands.length = widths.length)
    (encoded : Instruction.encodeOperands op operands widths = .ok bytes) (held : code.Holds offset bytes) :
    code.operandsAt? widths offset = some operands := by
  induction operands generalizing widths bytes offset with
  | nil =>
    cases widths with
    | nil => rfl
    | cons width widths => cases count
  | cons operand operands ih =>
    cases widths with
    | nil => cases count
    | cons width widths =>
      rw [Instruction.encodeOperands] at encoded
      split at encoded
      · rename_i fits
        cases rest : Instruction.encodeOperands op operands widths with
        | error m => rw [rest] at encoded; cases encoded
        | ok tail =>
          rw [rest] at encoded
          cases encoded
          obtain ⟨positive, narrow⟩ := small width List.mem_cons_self
          have first := operandAt?_holds narrow positive fits held.left
          have others := ih (fun w present => small w (List.mem_cons_of_mem _ present)) (by simpa using count) rest
            (by simpa using held.right)
          rw [operandsAt?, first, others]
      · cases encoded

theorem itemAt_holds {code : Code} {i : Instruction} {bytes : List UInt8} {offset : Nat}
    (encoded : i.encode = .ok bytes) (held : code.Holds offset bytes) : code.itemAt offset = .instruction i := by
  rw [Instruction.encode] at encoded
  split at encoded
  · rename_i count
    cases rest : Instruction.encodeOperands i.opcode i.operands i.opcode.operandWidths with
    | error m => rw [rest] at encoded; cases encoded
    | ok tail =>
      rw [rest] at encoded
      cases encoded
      have operands := operandsAt?_holds i.opcode.operandWidths_small count rest held.tail
      simp only [itemAt, held.head, OpCode.ofByte?_byte, operands]
  · cases encoded

-- What the end of a code cuts off nowhere begins with the byte of its opcode.
theorem byte_of_itemAt {code : Code} {i : Instruction} {offset : Nat} (item : code.itemAt offset = .instruction i) :
    (code[offset]?).bind OpCode.ofByte? = some i.opcode := by
  rw [itemAt] at item
  cases byte : code[offset]? with
  | none => simp [byte] at item
  | some b =>
    simp only [byte] at item
    cases found : OpCode.ofByte? b with
    | none => simp [found] at item
    | some op =>
      simp only [found] at item
      split at item
      · cases item
      · cases item; exact found

theorem numberAt_lt (code : Code) (offset width n : Nat) : code.numberAt offset width n < (n + 1) * byteRange width := by
  induction width generalizing offset n with
  | zero => simp [numberAt, byteRange]
  | succ width ih =>
    rw [numberAt]
    have byte := (code[offset]?.getD 0).toNat_lt
    have rest := ih (offset + 1) (256 * n + (code[offset]?.getD 0).toNat)
    have bound : (256 * n + (code[offset]?.getD 0).toNat + 1) * byteRange width ≤ (256 * (n + 1)) * byteRange width :=
      Nat.mul_le_mul_right _ (by omega)
    rw [byteRange, Nat.mul_comm (byteRange width), ← Nat.mul_assoc, Nat.mul_comm (n + 1)]
    exact Nat.lt_of_lt_of_le rest bound

theorem operands_small {code : Code} {widths operands : List Nat} {offset : Nat} (narrow : ∀ width ∈ widths, width ≤ 2)
    (read : code.operandsAt? widths offset = some operands) : ∀ n ∈ operands, n < 65536 := by
  induction widths generalizing offset operands with
  | nil =>
    cases read
    exact List.forall_mem_nil _
  | cons width rest ih =>
    rw [operandsAt?] at read
    split at read
    · rename_i first others here behind
      cases read
      have byte := narrow width List.mem_cons_self
      intro n present
      rcases List.mem_cons.mp present with rfl | later
      · unfold operandAt? at here
        split at here
        · cases here
          have below := numberAt_lt code (offset + (width - 8)) (min width 8) 0
          have range : byteRange (min width 8) ≤ 65536 := by
            obtain rfl | rfl | rfl : width = 0 ∨ width = 1 ∨ width = 2 := by omega
            all_goals decide
          omega
        · cases here
      · exact ih (fun w inside => narrow w (List.mem_cons_of_mem _ inside)) behind n later
    · cases read

theorem operand_small {code : Code} {i : Instruction} {offset : Nat} (item : code.itemAt offset = .instruction i) :
    ∀ n ∈ i.operands, n < 65536 := by
  rw [itemAt] at item
  split at item
  · cases item
  · split at item
    · cases item
    · rename_i op found
      split at item
      · cases item
      · rename_i operands read
        cases item
        have narrow : ∀ width ∈ op.operandWidths, width ≤ 2 := by cases op <;> decide
        exact operands_small narrow read

end Code
end StackScript
