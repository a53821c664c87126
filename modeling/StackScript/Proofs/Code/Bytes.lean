import StackScript.Code.Instruction

-- Where bytes stand in a code, and what stands where the bytes of an instruction do.
namespace StackScript

def Code.Same (x y : Code) (a b : Nat) : Prop := ∀ i, a ≤ i → i < b → x[i]? = y[i]?

def Code.Holds (code : Code) (offset : Nat) (bytes : List UInt8) : Prop :=
  ∀ i, i < bytes.length → code[offset + i]? = bytes[i]?

namespace Code

theorem Same.refl (x : Code) (a b : Nat) : x.Same x a b := fun _ _ _ => rfl

theorem Same.trans {x y z : Code} {a b : Nat} (left : x.Same y a b) (right : y.Same z a b) : x.Same z a b :=
  fun i low high => (left i low high).trans (right i low high)

theorem Same.within {x y : Code} {a b c d : Nat} (same : x.Same y a b) (low : a ≤ c) (high : d ≤ b) :
    x.Same y c d :=
  fun i above below => same i (Nat.le_trans low above) (Nat.lt_of_lt_of_le below high)

theorem Holds.of_same {x y : Code} {a b offset : Nat} {bytes : List UInt8} (same : x.Same y a b)
    (low : a ≤ offset) (high : offset + bytes.length ≤ b) (held : y.Holds offset bytes) : x.Holds offset bytes := by
  intro i below
  rw [same (offset + i) (by omega) (by omega)]
  exact held i below

theorem Holds.head {code : Code} {offset : Nat} {b : UInt8} {bytes : List UInt8}
    (held : code.Holds offset (b :: bytes)) : code[offset]? = some b := by
  simpa using held 0 (by simp)

theorem Holds.tail {code : Code} {offset : Nat} {b : UInt8} {bytes : List UInt8}
    (held : code.Holds offset (b :: bytes)) : code.Holds (offset + 1) bytes := by
  intro i below
  have next := held (i + 1) (by simpa using below)
  rwa [List.getElem?_cons_succ, show offset + (i + 1) = offset + 1 + i by omega] at next

theorem Holds.left {code : Code} {offset : Nat} {xs ys : List UInt8} (held : code.Holds offset (xs ++ ys)) :
    code.Holds offset xs := by
  intro i below
  rw [held i (by rw [List.length_append]; omega), List.getElem?_append_left below]

theorem Holds.right {code : Code} {offset : Nat} {xs ys : List UInt8} (held : code.Holds offset (xs ++ ys)) :
    code.Holds (offset + xs.length) ys := by
  intro i below
  have here := held (xs.length + i) (by rw [List.length_append]; omega)
  rwa [← Nat.add_assoc, List.getElem?_append_right (Nat.le_add_right _ _), Nat.add_sub_cancel_left] at here

theorem Holds.inside {code : Code} {offset : Nat} {bytes : List UInt8} (held : code.Holds offset bytes)
    (filled : bytes ≠ []) : offset + bytes.length ≤ code.size := by
  have length := List.length_pos_iff.mpr filled
  have last := held (bytes.length - 1) (by omega)
  rw [List.getElem?_eq_getElem (by omega)] at last
  obtain ⟨below, -⟩ := Array.getElem?_eq_some_iff.mp last
  omega

theorem append_eq (code : Code) (bytes : List UInt8) : code.append bytes = code ++ bytes.toArray := by
  induction bytes generalizing code with
  | nil => simp [append]
  | cons b bytes ih =>
    have step : code.append (b :: bytes) = Code.append (code.push b) bytes := rfl
    rw [step, ih]
    apply Array.toList_inj.mp
    simp

@[simp] theorem size_append (code : Code) (bytes : List UInt8) : (code.append bytes).size = code.size + bytes.length := by
  simp [append_eq]

theorem append_same (code : Code) (bytes : List UInt8) : (code.append bytes).Same code 0 code.size := by
  intro i _ below
  rw [append_eq, Array.getElem?_append_left below]

theorem append_holds (code : Code) (bytes : List UInt8) : (code.append bytes).Holds code.size bytes := by
  intro i _
  rw [append_eq, Array.getElem?_append_right (Nat.le_add_right _ _), Nat.add_sub_cancel_left, List.getElem?_toArray]

@[simp] theorem size_write (code : Code) (offset : Nat) (bytes : List UInt8) :
    (code.write offset bytes).size = code.size := by
  induction bytes generalizing code offset with
  | nil => rfl
  | cons b bytes ih => rw [write, ih, Array.size_setIfInBounds]

theorem write_before (code : Code) (offset : Nat) (bytes : List UInt8) :
    (code.write offset bytes).Same code 0 offset := by
  induction bytes generalizing code offset with
  | nil => exact Same.refl _ _ _
  | cons b bytes ih =>
    intro i low below
    rw [write, ih (code.setIfInBounds offset b) (offset + 1) i low (by omega)]
    exact Array.getElem?_setIfInBounds_ne (by omega)

theorem write_behind (code : Code) (offset : Nat) (bytes : List UInt8) (i : Nat) (behind : offset + bytes.length ≤ i) :
    (code.write offset bytes)[i]? = code[i]? := by
  induction bytes generalizing code offset with
  | nil => rfl
  | cons b bytes ih =>
    rw [List.length_cons] at behind
    rw [write, ih (code.setIfInBounds offset b) (offset + 1) (by omega)]
    exact Array.getElem?_setIfInBounds_ne (by omega)

theorem write_holds (code : Code) (offset : Nat) (bytes : List UInt8) (inside : offset + bytes.length ≤ code.size) :
    (code.write offset bytes).Holds offset bytes := by
  induction bytes generalizing code offset with
  | nil => intro i below; simp at below
  | cons b bytes ih =>
    rw [List.length_cons] at inside
    intro i below
    cases i with
    | zero =>
      rw [Nat.add_zero, write, write_before (code.setIfInBounds offset b) (offset + 1) bytes offset (by omega) (by omega)]
      simp [show offset < code.size by omega]
    | succ i =>
      have rest := ih (code.setIfInBounds offset b) (offset + 1) (by rw [Array.size_setIfInBounds]; omega) i
        (by simpa using below)
      rw [write, List.getElem?_cons_succ, ← rest, show offset + (i + 1) = offset + 1 + i by omega]

end Code
end StackScript
