import StackScript.Proofs.Code.Assembly
import StackScript.Proofs.Code.Printed
import StackScript.Proofs.Code.Reading

-- A listing says what its code is made of. The lines stand for the bytes of the code, one line behind the other, up to an
-- instruction that the end cuts off; instructions in a row are listed one by one.
namespace StackScript

-- The bytes that a line stands for. An instruction that is cut off stands for none.
def ListingLine.bytes (line : ListingLine) : Except Misfit (List UInt8) :=
  match line.item with
  | .instruction i => i.encode
  | .unknown byte => .ok [byte]
  | .truncated _ | .nothing => .ok []

-- Lines from an offset on, the bytes that each stands for, and the bytes left behind them.
inductive Listed : (offset : Nat) → (parts : List (List UInt8)) → (left : List UInt8) → List ListingLine → Prop where
  | nothing {offset : Nat} : Listed offset [] [] []
  | truncated {offset : Nat} {op : OpCode} {rest : List UInt8} : rest.length < op.operandBytes →
      Listed offset [[]] (op.byte :: rest) [⟨offset, .truncated op⟩]
  | unknown {offset : Nat} {byte : UInt8} {parts : List (List UInt8)} {left : List UInt8} {lines : List ListingLine} :
      OpCode.ofByte? byte = none → Listed (offset + 1) parts left lines →
      Listed offset ([byte] :: parts) left (⟨offset, .unknown byte⟩ :: lines)
  | instruction {offset : Nat} {i : Instruction} {bytes : List UInt8} {parts : List (List UInt8)} {left : List UInt8}
      {lines : List ListingLine} : i.encode = .ok bytes → Listed (offset + bytes.length) parts left lines →
      Listed offset (bytes :: parts) left (⟨offset, .instruction i⟩ :: lines)

namespace Listed

variable {offset k : Nat} {parts : List (List UInt8)} {left : List UInt8} {lines : List ListingLine}

theorem bytes (listed : Listed offset parts left lines) : lines.mapM ListingLine.bytes = .ok parts := by
  induction listed with
  | nothing | truncated => rfl
  | unknown _ _ ih =>
    simp only [List.mapM_cons, ih]
    rfl
  | instruction encoded _ ih =>
    simp only [List.mapM_cons, ListingLine.bytes, encoded, ih]
    rfl

theorem proper (listed : Listed offset parts left lines) : ∀ line ∈ lines, line.item ≠ .nothing := by
  induction listed with
  | nothing => simp
  | truncated => simp
  | unknown _ _ ih => simpa using ih
  | instruction _ _ ih => simpa using ih

theorem offsets {line : ListingLine} (listed : Listed offset parts left lines) (here : lines[k]? = some line) :
    line.offset = offset + (parts.take k).flatten.length := by
  induction listed generalizing k with
  | nothing => cases here
  | truncated =>
    cases k with
    | zero =>
      cases here
      rfl
    | succ k => cases here
  | unknown _ _ ih =>
    cases k with
    | zero =>
      cases here
      rfl
    | succ k =>
      simp only [ih here, List.take_succ_cons, List.flatten_cons, List.length_append, List.length_singleton, Nat.add_assoc]
  | instruction _ _ ih =>
    cases k with
    | zero =>
      cases here
      rfl
    | succ k => simp only [ih here, List.take_succ_cons, List.flatten_cons, List.length_append, Nat.add_assoc]

theorem no_opcode {byte : UInt8} {a : Nat} (listed : Listed offset parts left lines)
    (here : ⟨a, .unknown byte⟩ ∈ lines) : OpCode.ofByte? byte = none := by
  induction listed with
  | nothing | truncated => simp at here
  | unknown unlisted _ ih =>
    rcases List.mem_cons.mp here with first | later
    · cases first
      exact unlisted
    · exact ih later
  | instruction _ _ ih => exact ih (by simpa using here)

-- Only the last line can be one of an instruction that is cut off, and that one is what is left.
theorem cut_off {op : OpCode} {a : Nat} (listed : Listed offset parts left lines)
    (here : lines[k]? = some ⟨a, .truncated op⟩) : k + 1 = lines.length ∧ a = offset + parts.flatten.length ∧
      ∃ rest, left = op.byte :: rest ∧ rest.length < op.operandBytes := by
  induction listed generalizing k with
  | nothing => cases here
  | truncated short =>
    cases k with
    | zero =>
      cases here
      exact ⟨rfl, rfl, _, rfl, short⟩
    | succ k => cases here
  | unknown _ _ ih | instruction _ _ ih =>
    cases k with
    | zero => cases here
    | succ k =>
      obtain ⟨last, place, cut⟩ := ih here
      refine ⟨congrArg Nat.succ last, ?_, cut⟩
      simp only [place, List.flatten_cons, List.length_append, List.length_singleton, Nat.add_assoc]

theorem nothing_left (listed : Listed offset parts left lines) (whole : ∀ line ∈ lines, ∀ op, line.item ≠ .truncated op) :
    left = [] := by
  induction listed with
  | nothing => rfl
  | truncated => simp at whole
  | unknown _ _ ih | instruction _ _ ih => exact ih fun line present => whole line (List.mem_cons_of_mem _ present)

end Listed

namespace Code

theorem linesFrom_listed (code : Code) (offset : Nat) (lines : Array ListingLine) :
    ∃ more parts left, (code.linesFrom offset lines).toList = lines.toList ++ more ∧ Listed offset parts left more ∧
      code.after offset = parts.flatten ++ left := by
  fun_induction linesFrom code offset lines with
  | case1 offset lines inside item known =>
    cases itemAt_begins inside known
  | case2 offset lines inside item op known =>
    cases itemAt_begins inside known with
    | truncated here short =>
      exact ⟨_, _, _, by simp only [Array.toList_push, known], .truncated short, here⟩
  | case3 offset lines inside item byte known ih =>
    obtain ⟨more, parts, left, rest, listed, behind⟩ := ih
    cases itemAt_begins inside known with
    | @unknown _ others here unlisted =>
      have tail : code.after (offset + 1) = others := by
        simp only [after_add, here, List.drop_succ_cons, List.drop_zero]
      refine ⟨⟨offset, item⟩ :: more, [byte] :: parts, left, ?_, ?_, ?_⟩
      · simp only [rest, Array.toList_push, List.append_assoc, List.singleton_append]
      · rw [known]
        exact .unknown unlisted listed
      · simp only [here, ← tail, behind, List.flatten_cons, List.cons_append, List.nil_append]
  | case4 offset lines inside item i known ih =>
    obtain ⟨more, parts, left, rest, listed, behind⟩ := ih
    cases itemAt_begins inside known with
    | @instruction _ bytes others here encoded =>
      have length := Instruction.encode_length encoded
      have tail : code.after (offset + bytes.length) = others := by
        simp only [after_add, here, List.drop_left]
      rw [← length] at listed behind
      refine ⟨⟨offset, item⟩ :: more, bytes :: parts, left, ?_, ?_, ?_⟩
      · simp only [rest, Array.toList_push, List.append_assoc, List.singleton_append]
      · rw [known]
        exact .instruction encoded listed
      · simp only [here, ← tail, behind, List.flatten_cons, List.append_assoc]
  | case5 offset lines outside =>
    refine ⟨[], [], [], by simp only [List.append_nil], .nothing, ?_⟩
    exact List.drop_of_length_le (Nat.not_lt.mp outside)

theorem lines_listed (code : Code) :
    ∃ parts left, Listed 0 parts left code.lines.toList ∧ code.toList = parts.flatten ++ left := by
  obtain ⟨lines, parts, left, same, listed, whole⟩ := code.linesFrom_listed 0 #[]
  rw [List.nil_append] at same
  exact ⟨parts, left, same ▸ listed, whole⟩

theorem listing_texts (code : Code) : code.listing = String.join (code.lines.toList.map ListingLine.text) := by
  simp only [listing, String.join, List.foldl_map, ← Array.foldl_toList]

theorem linesFrom_assembled {code : Code} {is : List Instruction} {bytes : List UInt8} {offset : Nat}
    (lines : Array ListingLine) (assembled : Instruction.assemble is = .ok bytes) (held : code.Holds offset bytes)
    (whole : offset + bytes.length = code.size) :
    (code.linesFrom offset lines).toList.map ListingLine.item =
      lines.toList.map ListingLine.item ++ is.map Item.instruction := by
  induction is generalizing bytes offset lines with
  | nil =>
    cases assembled
    have outside : ¬ offset < code.size := by simpa using Nat.le_of_eq whole.symm
    rw [linesFrom, if_neg outside]
    simp
  | cons i is ih =>
    obtain ⟨front, rest, encoded, others, rfl⟩ := Instruction.assemble_cons.mp assembled
    have item := itemAt_holds encoded held.left
    have later := held.right
    have length := Instruction.encode_length encoded
    rw [List.length_append, ← Nat.add_assoc] at whole
    rw [length] at later whole
    have more := ih (lines.push ⟨offset, .instruction i⟩) others later whole
    rw [linesFrom, if_pos (itemAt_inside item)]
    simp only [item, more, Array.toList_push, List.map_append, List.map_cons, List.map_nil, List.append_assoc,
      List.singleton_append]

end Code

theorem Instruction.assemble_fits {is : List Instruction} (fits : ∀ i ∈ is, Fits i.operands i.opcode.operandWidths) :
    ∃ bytes, assemble is = .ok bytes := by
  induction is with
  | nil => exact ⟨[], rfl⟩
  | cons i is ih =>
    obtain ⟨one, others⟩ := List.forall_mem_cons.mp fits
    obtain ⟨front, encoded⟩ := encode_fits one
    obtain ⟨rest, assembled⟩ := ih others
    exact ⟨front ++ rest, assemble_cons.mpr ⟨front, rest, encoded, assembled, rfl⟩⟩

-- What the lines of a listing tell of the code. Each stands for some bytes.
structure Code.Told (code : Code) (lines : List ListingLine) (parts : List (List UInt8)) : Prop where
  bytes : lines.mapM ListingLine.bytes = .ok parts
  -- a line begins where the bytes of those before it end
  offsets : ∀ k line, lines[k]? = some line → line.offset = (parts.take k).flatten.length
  -- a byte is unknown if no opcode has it
  unknown : ∀ offset byte, ⟨offset, .unknown byte⟩ ∈ lines → OpCode.ofByte? byte = none
  -- an instruction that the end cuts off has the last line, and only its bytes are missing
  truncated : ∀ k offset op, lines[k]? = some ⟨offset, .truncated op⟩ → k + 1 = lines.length ∧
    code[offset]? = some op.byte ∧ code.size < offset + op.width ∧ parts.flatten = code.toList.take offset
  whole : (∀ line ∈ lines, ∀ op, line.item ≠ .truncated op) → parts.flatten = code.toList
  -- the text of the listing is that of these lines and of no others
  proper : ∀ line ∈ lines, line.item ≠ .nothing
  text : ∀ others : List ListingLine, (∀ line ∈ others, line.item ≠ .nothing) →
    (String.join (others.map ListingLine.text) = code.listing ↔ others = lines)

-- The lines of a listing are found in its text. They begin where the bytes end that the earlier lines stand for, and their
-- bytes are those of the code, up to an instruction that the end cuts off. Any instructions in a row, if each operand fits
-- its width, are listed as just these instructions.
theorem listing_tells : (∀ code : Code, ∃ parts, code.Told code.lines.toList parts) ∧
    ∀ is : List Instruction, (∀ i ∈ is, Instruction.Fits i.operands i.opcode.operandWidths) →
      ∃ bytes, Instruction.assemble is = .ok bytes ∧
        (Code.lines bytes.toArray).toList.map ListingLine.item = is.map Code.Item.instruction := by
  refine ⟨fun code => ?_, fun is fits => ?_⟩
  · obtain ⟨parts, left, listed, whole⟩ := code.lines_listed
    refine ⟨parts, listed.bytes, fun k line here => ?_, fun offset byte => listed.no_opcode, fun k offset op here => ?_,
      fun uncut => ?_, listed.proper, fun others proper => ?_⟩
    · simpa only [Nat.zero_add] using listed.offsets here
    · obtain ⟨last, place, rest, rfl, short⟩ := listed.cut_off here
      rw [Nat.zero_add] at place
      have size := congrArg List.length whole
      simp only [Array.length_toList, List.length_append, List.length_cons, ← place] at size
      refine ⟨last, ?_, ?_, ?_⟩
      · rw [← Array.getElem?_toList, whole, place, List.getElem?_append_right (Nat.le_refl _), Nat.sub_self]
        rfl
      · simp only [OpCode.operandBytes] at short
        simp only [OpCode.width]
        omega
      · rw [whole, place, List.take_left]
    · rw [whole, listed.nothing_left uncut, List.append_nil]
    · rw [Code.listing_texts]
      refine ⟨ListingLine.texts_unique proper listed.proper, fun same => ?_⟩
      rw [same]
  · obtain ⟨bytes, assembled⟩ := Instruction.assemble_fits fits
    have held : Code.Holds bytes.toArray 0 bytes := by
      intro i _
      rw [Nat.zero_add, List.getElem?_toArray]
    refine ⟨bytes, assembled, ?_⟩
    exact Code.linesFrom_assembled #[] assembled held (by simp)

-- A byte of no opcode with an instruction behind it that is cut off, and two instructions in a row.
theorem listing_tells_flagged : (Code.lines #[250, 0, 0]).toList = [⟨0, .unknown 250⟩, ⟨1, .truncated .constant⟩] ∧
    (∃ parts, Code.Told #[250, 0, 0] [⟨0, .unknown 250⟩, ⟨1, .truncated .constant⟩] parts ∧ parts.flatten = [250]) ∧
    (∀ i ∈ [(⟨.closure, [65535, 255]⟩ : Instruction), ⟨.add, []⟩], Instruction.Fits i.operands i.opcode.operandWidths) ∧
    ∃ bytes, Instruction.assemble [⟨.closure, [65535, 255]⟩, ⟨.add, []⟩] = .ok bytes ∧
      (Code.lines bytes.toArray).toList.map ListingLine.item =
        [.instruction ⟨.closure, [65535, 255]⟩, .instruction ⟨.add, []⟩] := by
  have lines : (Code.lines #[250, 0, 0]).toList = [⟨0, .unknown 250⟩, ⟨1, .truncated .constant⟩] := by cbv
  have fits : ∀ i ∈ [(⟨.closure, [65535, 255]⟩ : Instruction), ⟨.add, []⟩],
      Instruction.Fits i.operands i.opcode.operandWidths := by
    simp [Instruction.Fits, OpCode.operandWidths, byteRange]
  obtain ⟨told, listed⟩ := listing_tells
  obtain ⟨parts, told⟩ := told #[250, 0, 0]
  rw [lines] at told
  obtain ⟨-, -, -, front⟩ := told.truncated 1 1 .constant rfl
  exact ⟨lines, ⟨parts, told, front⟩, fits, listed _ fits⟩

example : Code.listing #[250, 0, 0] = "0000 ERROR: unknown opcode 0xfa\n0001 ERROR: truncated Constant\n" := by cbv

end StackScript
