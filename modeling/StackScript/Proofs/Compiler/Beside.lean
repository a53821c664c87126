import StackScript.Proofs.Code.Assembly
import StackScript.Proofs.Compiler.Functions

-- Two compilers side by side: one begins with nothing written, the other has written some bytes before.
namespace StackScript

open Instruction (assemble)

-- What two fragments remember of the last of some instructions. If that is none, the one with `n` bytes more may
-- remember something among them.
def Remembers (n : Nat) (ops : List OpCode) (whole alone : Option Emitted) : Prop :=
  (alone = none ∧ ∀ e, whole = some e → e.position < n) ∨
  ∃ front op, ops = front ++ [op] ∧ alone = some ⟨op, OpCode.widths front⟩ ∧ whole = some ⟨op, n + OpCode.widths front⟩

-- The first fragment has some bytes and then the instructions `js`, the second only the instructions `is`.
structure Fragment.Beside (before : List UInt8) (js is : List Instruction) (f g : Fragment) : Prop where
  whole : ∃ bytes, assemble js = .ok bytes ∧ f.code.toList = before ++ bytes
  alone : assemble is = .ok g.code.toList
  opcodes : js.map Instruction.opcode = is.map Instruction.opcode
  last : Remembers before.length (is.map Instruction.opcode) f.last g.last
  previous : Remembers before.length (is.map Instruction.opcode).dropLast f.previous g.previous

structure Compiler.Beside (before : List UInt8) (js is : List Instruction) (c d : Compiler) : Prop where
  constants : c.constants = d.constants
  symbols : c.symbols = d.symbols
  fragment : c.fragment.Beside before js is d.fragment

@[simp] theorem OpCode.widths_append (xs ys : List OpCode) : widths (xs ++ ys) = widths xs + widths ys := by
  induction xs with
  | nil => simp [widths]
  | cons op xs ih => simp [widths, ih, Nat.add_assoc]

@[simp] theorem OpCode.widths_one (op : OpCode) : widths [op] = op.width := by simp [widths]

theorem OpCode.widths_dropLast (ops : List OpCode) : widths ops.dropLast ≤ widths ops := by
  rcases List.eq_nil_or_concat ops with rfl | ⟨front, op, rfl⟩
  · exact Nat.le_refl _
  · rw [List.concat_eq_append, List.dropLast_concat, widths_append]
    exact Nat.le_add_right ..

namespace Fragment

variable {before : List UInt8} {js is : List Instruction} {f g : Fragment}

theorem Beside.size_alone (beside : f.Beside before js is g) : g.code.size = OpCode.widths (is.map Instruction.opcode) := by
  rw [← Array.length_toList, Instruction.assemble_length beside.alone]

theorem Beside.size (beside : f.Beside before js is g) : f.code.size = before.length + g.code.size := by
  obtain ⟨bytes, assembled, code⟩ := beside.whole
  rw [beside.size_alone, ← Array.length_toList, code, List.length_append, Instruction.assemble_length assembled,
    beside.opcodes]

theorem Beside.append {op : OpCode} {xs ys : List Nat} {bytes others : List UInt8} (beside : f.Beside before js is g)
    (one : Instruction.encode ⟨op, xs⟩ = .ok bytes) (two : Instruction.encode ⟨op, ys⟩ = .ok others) :
    (f.append op bytes).Beside before (js ++ [⟨op, xs⟩]) (is ++ [⟨op, ys⟩]) (g.append op others) := by
  obtain ⟨written, assembled, code⟩ := beside.whole
  refine ⟨⟨written ++ bytes, ?_, ?_⟩, ?_, by simp [beside.opcodes], .inr ?_, ?_⟩
  · exact Instruction.assemble_append.mpr ⟨_, _, assembled, Instruction.assemble_one.mpr one, rfl⟩
  · simp [Fragment.append, Code.append_eq, code]
  · refine Instruction.assemble_append.mpr ⟨_, _, beside.alone, Instruction.assemble_one.mpr two, ?_⟩
    simp [Fragment.append, Code.append_eq]
  · refine ⟨is.map Instruction.opcode, op, by simp, ?_, ?_⟩
    · simp only [Fragment.append, beside.size_alone]
    · simp only [Fragment.append, beside.size, beside.size_alone]
  · simpa [Fragment.append] using beside.last

theorem Beside.endsWith (beside : f.Beside before js is g) (op : OpCode) (since : Nat) :
    f.endsWith op (before.length + since) = g.endsWith op since := by
  rcases beside.last with ⟨alone, whole⟩ | ⟨front, last, -, alone, whole⟩
  · cases known : f.last with
    | none => simp [Fragment.endsWith, alone, known]
    | some e =>
      have early := whole e known
      simp only [Fragment.endsWith, alone, known]
      simp
      omega
  · simp [Fragment.endsWith, alone, whole]

theorem Beside.dropLast (beside : f.Beside before js is g) {op : OpCode} {since : Nat} (ends : g.endsWith op since = true) :
    f.dropLast.Beside before js.dropLast is.dropLast g.dropLast := by
  rcases beside.last with ⟨alone, -⟩ | ⟨front, last, shape, alone, whole⟩
  · simp [Fragment.endsWith, alone] at ends
  · obtain ⟨written, assembled, code⟩ := beside.whole
    have cut {xs : List Instruction} {bytes : List UInt8} (opcodes : xs.map Instruction.opcode = front ++ [last])
        (assembled : assemble xs = .ok bytes) : assemble xs.dropLast = .ok (bytes.take (OpCode.widths front)) := by
      rcases List.eq_nil_or_concat xs with rfl | ⟨ys, i, rfl⟩
      · simp at opcodes
      · rw [List.concat_eq_append] at opcodes assembled ⊢
        rw [List.map_append, List.map_singleton] at opcodes
        obtain ⟨opcodes, -⟩ := List.append_inj' opcodes rfl
        obtain ⟨ahead, rest, first, -, rfl⟩ := Instruction.assemble_append.mp assembled
        rw [List.dropLast_concat, first, ← opcodes, ← Instruction.assemble_length first, List.take_left]
    have opcodes : is.dropLast.map Instruction.opcode = front := by rw [List.map_dropLast, shape, List.dropLast_concat]
    refine ⟨⟨_, cut (beside.opcodes.trans shape) assembled, ?_⟩, ?_, ?_, ?_, .inl ?_⟩
    · simp [Fragment.dropLast, whole, code, List.take_append, List.take_of_length_le]
    · simpa [Fragment.dropLast, alone] using cut shape beside.alone
    · rw [List.map_dropLast, List.map_dropLast, beside.opcodes]
    · simpa [Fragment.dropLast, alone, whole, List.map_dropLast] using beside.previous
    · simp [Fragment.dropLast, alone, whole]

theorem Beside.same (beside : f.Beside [] is is g) : f = g := by
  obtain ⟨written, assembled, code⟩ := beside.whole
  have remembered {ops : List OpCode} {a b : Option Emitted} (remembers : Remembers 0 ops a b) : a = b := by
    rcases remembers with ⟨rfl, early⟩ | ⟨front, op, -, rfl, rfl⟩
    · cases a with
      | none => rfl
      | some e => exact absurd (early e rfl) (Nat.not_lt_zero _)
    · rw [Nat.zero_add]
  have bytes : f.code = g.code := by
    apply Array.toList_inj.mp
    rw [beside.alone] at assembled
    cases assembled
    exact code
  obtain ⟨x, a, b⟩ := f
  obtain ⟨y, u, v⟩ := g
  cases bytes
  cases remembered beside.last
  cases remembered beside.previous
  rfl

theorem beside_empty : Fragment.empty.Beside [] [] [] Fragment.empty :=
  ⟨⟨[], rfl, rfl⟩, rfl, rfl, .inl ⟨rfl, by simp [Fragment.empty]⟩, .inl ⟨rfl, by simp [Fragment.empty]⟩⟩

theorem Beside.items {i j : Instruction} {js₁ js₂ is₁ is₂ : List Instruction}
    (beside : f.Beside before (js₁ ++ j :: js₂) (is₁ ++ i :: is₂) g) :
    f.code.itemAt (before.length + OpCode.widths (js₁.map Instruction.opcode)) = .instruction j ∧
      g.code.itemAt (OpCode.widths (is₁.map Instruction.opcode)) = .instruction i := by
  obtain ⟨written, assembled, code⟩ := beside.whole
  have here : f.code.toList = before ++ (written ++ []) := by rw [code, List.append_nil]
  have whole : g.code.toList = [] ++ (g.code.toList ++ []) := by simp
  refine ⟨Code.itemAt_assembled assembled (Code.holds_between here), ?_⟩
  have alone := Code.itemAt_assembled beside.alone (Code.holds_between whole)
  rwa [List.length_nil, Nat.zero_add] at alone

theorem Beside.write {op : OpCode} {xs ys xs' ys' : List Nat} {js₁ js₂ is₁ is₂ : List Instruction}
    {bytes others : List UInt8} (beside : f.Beside before (js₁ ++ ⟨op, xs⟩ :: js₂) (is₁ ++ ⟨op, ys⟩ :: is₂) g)
    (front : js₁.map Instruction.opcode = is₁.map Instruction.opcode)
    (one : Instruction.encode ⟨op, xs'⟩ = .ok bytes) (two : Instruction.encode ⟨op, ys'⟩ = .ok others) :
    Fragment.Beside before (js₁ ++ ⟨op, xs'⟩ :: js₂) (is₁ ++ ⟨op, ys'⟩ :: is₂)
      { f with code := f.code.write (before.length + OpCode.widths (is₁.map Instruction.opcode)) bytes }
      { g with code := g.code.write (OpCode.widths (is₁.map Instruction.opcode)) others } := by
  -- The bytes around the instruction, in either code.
  have around {ks₁ ks₂ : List Instruction} {zs zs' : List Nat} {written new : List UInt8}
      (assembled : assemble (ks₁ ++ ⟨op, zs⟩ :: ks₂) = .ok written) (encoded : Instruction.encode ⟨op, zs'⟩ = .ok new) :
      ∃ left old right, old.length = new.length ∧ left.length = OpCode.widths (ks₁.map Instruction.opcode) ∧
        written = left ++ (old ++ right) ∧ assemble (ks₁ ++ ⟨op, zs'⟩ :: ks₂) = .ok (left ++ (new ++ right)) := by
    obtain ⟨left, rest, first, others, rfl⟩ := Instruction.assemble_append.mp assembled
    obtain ⟨old, right, replaced, last, rfl⟩ := Instruction.assemble_cons.mp others
    refine ⟨left, old, right, ?_, Instruction.assemble_length first, rfl, ?_⟩
    · rw [Instruction.encode_length replaced, Instruction.encode_length encoded]
    · exact Instruction.assemble_append.mpr ⟨_, _, first, Instruction.assemble_cons.mpr ⟨_, _, encoded, last, rfl⟩, rfl⟩
  obtain ⟨written, assembled, code⟩ := beside.whole
  obtain ⟨left, old, right, same, length, rfl, whole⟩ := around assembled one
  obtain ⟨left', old', right', same', length', alone', alone⟩ := around beside.alone two
  have last := beside.last
  have previous := beside.previous
  have opcodes := beside.opcodes
  simp only [List.map_append, List.map_cons] at last previous opcodes
  refine ⟨⟨_, whole, ?_⟩, ?_, by simpa using opcodes, by simpa using last, by simpa using previous⟩
  · have split : f.code.toList = (before ++ left) ++ (old ++ right) := by rw [code, List.append_assoc]
    have place := Code.write_between same split
    rw [List.length_append, length, front] at place
    rw [place, List.append_assoc]
  · have place := Code.write_between same' alone'
    rw [length'] at place
    rw [place]
    exact alone

end Fragment
end StackScript
