import StackScript.Proofs.Code.Encoding
import StackScript.Proofs.Code.Walk

-- Instructions in a row, and what becomes of their jumps when they are moved.
namespace StackScript

namespace Instruction

def raise (n : Nat) (i : Instruction) : Instruction :=
  match i.opcode with
  | .jump | .jumpUnless => ⟨i.opcode, i.operands.map (· + n)⟩
  | _ => i

@[simp] theorem raise_opcode (n : Nat) (i : Instruction) : (i.raise n).opcode = i.opcode := by
  unfold raise
  split <;> rfl

theorem raise_zero (i : Instruction) : i.raise 0 = i := by
  unfold raise
  split <;> simp

theorem raise_straight {i : Instruction} (jump : i.opcode ≠ .jump) (unless_ : i.opcode ≠ .jumpUnless) (n : Nat) :
    i.raise n = i := by
  unfold raise
  split
  · contradiction
  · contradiction
  · rfl

def assemble : List Instruction → Except Misfit (List UInt8)
  | [] => .ok []
  | i :: is =>
    match i.encode, assemble is with
    | .ok bytes, .ok rest => .ok (bytes ++ rest)
    | .error m, _ => .error m
    | _, .error m => .error m

end Instruction

def OpCode.widths : List OpCode → Nat
  | [] => 0
  | op :: ops => op.width + widths ops

namespace Instruction

theorem assemble_cons {i : Instruction} {is : List Instruction} {bytes : List UInt8} :
    assemble (i :: is) = .ok bytes ↔
      ∃ front rest, i.encode = .ok front ∧ assemble is = .ok rest ∧ bytes = front ++ rest := by
  rw [assemble]
  cases i.encode <;> cases assemble is <;> simp [eq_comm]

theorem assemble_append {is js : List Instruction} {bytes : List UInt8} : assemble (is ++ js) = .ok bytes ↔
    ∃ front rest, assemble is = .ok front ∧ assemble js = .ok rest ∧ bytes = front ++ rest := by
  induction is generalizing bytes with
  | nil => simp [assemble]
  | cons i is ih =>
    rw [List.cons_append, assemble_cons]
    simp only [ih, assemble_cons]
    constructor
    · rintro ⟨first, _, one, ⟨middle, last, two, three, rfl⟩, rfl⟩
      exact ⟨first ++ middle, last, ⟨first, middle, one, two, rfl⟩, three, (List.append_assoc ..).symm⟩
    · rintro ⟨_, last, ⟨first, middle, one, two, rfl⟩, three, rfl⟩
      exact ⟨first, middle ++ last, one, ⟨middle, last, two, three, rfl⟩, List.append_assoc ..⟩

theorem assemble_one {i : Instruction} {bytes : List UInt8} : assemble [i] = .ok bytes ↔ i.encode = .ok bytes := by
  rw [assemble_cons]
  simp [assemble, eq_comm]

theorem assemble_length {is : List Instruction} {bytes : List UInt8} (assembled : assemble is = .ok bytes) :
    bytes.length = OpCode.widths (is.map opcode) := by
  induction is generalizing bytes with
  | nil =>
    cases assembled
    rfl
  | cons i is ih =>
    obtain ⟨front, rest, one, others, rfl⟩ := assemble_cons.mp assembled
    rw [List.length_append, encode_length one, ih others]
    rfl

theorem assembled_count {front back : List Instruction} {i : Instruction} {bytes : List UInt8}
    (assembled : assemble (front ++ i :: back) = .ok bytes) : i.operands.length = i.opcode.operandWidths.length := by
  obtain ⟨-, rest, -, others, -⟩ := assemble_append.mp assembled
  obtain ⟨bytes, -, encoded, -, -⟩ := assemble_cons.mp others
  rw [encode] at encoded
  split at encoded
  · assumption
  · cases encoded

end Instruction

namespace Code

theorem write_between {code : Code} {front old bytes back : List UInt8} (same : old.length = bytes.length)
    (here : code.toList = front ++ (old ++ back)) : (code.write front.length bytes).toList = front ++ (bytes ++ back) := by
  induction bytes generalizing code front old with
  | nil =>
    cases List.length_eq_zero_iff.mp same
    rw [write, here]
  | cons b bytes ih =>
    cases old with
    | nil => cases same
    | cons a old =>
      have step : (Array.setIfInBounds code front.length b).toList = (front ++ [b]) ++ (old ++ back) := by
        rw [Array.toList_setIfInBounds, here, List.set_append_right _ _ (Nat.le_refl _), Nat.sub_self]
        simp
      have rest := ih (by simpa using same) step
      rw [List.length_append, List.length_singleton] at rest
      rw [write, rest]
      simp

theorem holds_between {code : Code} {front bytes back : List UInt8} (here : code.toList = front ++ (bytes ++ back)) :
    code.Holds front.length bytes := by
  intro i below
  rw [← Array.getElem?_toList, here, List.getElem?_append_right (Nat.le_add_right ..), Nat.add_sub_cancel_left,
    List.getElem?_append_left below]

theorem itemAt_assembled {code : Code} {front back : List Instruction} {i : Instruction} {bytes : List UInt8} {a : Nat}
    (assembled : Instruction.assemble (front ++ i :: back) = .ok bytes) (held : code.Holds a bytes) :
    code.itemAt (a + OpCode.widths (front.map Instruction.opcode)) = .instruction i := by
  obtain ⟨left, rest, first, others, rfl⟩ := Instruction.assemble_append.mp assembled
  obtain ⟨bytes, right, encoded, -, rfl⟩ := Instruction.assemble_cons.mp others
  rw [← Instruction.assemble_length first]
  exact itemAt_holds encoded held.right.left

-- What decoding comes to among instructions in a row is one of them or the end behind them.
theorem assembled_at {code : Code} {is : List Instruction} {bytes : List UInt8} {a b : Nat}
    (assembled : Instruction.assemble is = .ok bytes) (held : code.Holds a bytes) (reached : code.Walk a b)
    (inside : b ≤ a + bytes.length) :
    ∃ front back, is = front ++ back ∧ b = a + OpCode.widths (front.map Instruction.opcode) := by
  induction is generalizing a bytes with
  | nil =>
    cases assembled
    have := reached.le
    exact ⟨[], [], rfl, by simp only [List.length_nil] at inside; simp [OpCode.widths]; omega⟩
  | cons i is ih =>
    obtain ⟨front, rest, one, others, rfl⟩ := Instruction.assemble_cons.mp assembled
    have item := itemAt_holds one held.left
    cases reached with
    | here => exact ⟨[], i :: is, rfl, rfl⟩
    | next first _ further =>
      rw [item] at first
      cases first
      have length := Instruction.encode_length one
      have later := held.right
      rw [length] at later
      rw [List.length_append, length, ← Nat.add_assoc] at inside
      obtain ⟨before, after, rfl, rfl⟩ := ih others later further inside
      refine ⟨i :: before, after, rfl, ?_⟩
      simp [OpCode.widths, Nat.add_assoc]

end Code
end StackScript
