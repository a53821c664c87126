import StackScript.Code.Instruction

-- Walks through a code, from one instruction to the next.
namespace StackScript.Code

-- Whole instructions of some kind fill the code from one offset to another.
inductive WalkAll (code : Code) (P : Nat → Instruction → Prop) : Nat → Nat → Prop where
  | here {a : Nat} : WalkAll code P a a
  | next {a b : Nat} {i : Instruction} : code.itemAt a = .instruction i → P a i →
      WalkAll code P (a + i.opcode.width) b → WalkAll code P a b

def Walk (code : Code) : Nat → Nat → Prop := code.WalkAll fun _ _ => True

def Has (code : Code) (offset : Nat) (i : Instruction) : Prop := code.Walk 0 offset ∧ code.itemAt offset = .instruction i

variable {code : Code} {P Q : Nat → Instruction → Prop} {a b c : Nat}

theorem WalkAll.append (left : code.WalkAll P a b) (right : code.WalkAll P b c) : code.WalkAll P a c := by
  induction left with
  | here => exact right
  | next item good _ ih => exact .next item good (ih right)

theorem WalkAll.mono (each : ∀ offset i, P offset i → Q offset i) (walk : code.WalkAll P a b) : code.WalkAll Q a b := by
  induction walk with
  | here => exact .here
  | next item good _ ih => exact .next item (each _ _ good) ih

theorem WalkAll.walk (walk : code.WalkAll P a b) : code.Walk a b := walk.mono fun _ _ _ => trivial

theorem WalkAll.one {i : Instruction} (item : code.itemAt a = .instruction i) (good : P a i) :
    code.WalkAll P a (a + i.opcode.width) := .next item good .here

theorem Walk.le (walk : code.Walk a b) : a ≤ b := by
  induction walk with
  | here => exact Nat.le_refl _
  | next _ _ _ ih => omega

-- Walks from one offset go the same way, so what one passes before it ends the other passes too.
theorem WalkAll.at_offset {i : Instruction} {offset : Nat} (walk : code.WalkAll P a b) (reached : code.Walk a offset)
    (before : offset < b) (item : code.itemAt offset = .instruction i) : P offset i := by
  induction walk with
  | here =>
    have := reached.le
    omega
  | next first good _ ih =>
    cases reached with
    | here =>
      rw [item] at first
      cases first
      exact good
    | next first' _ rest =>
      rw [first] at first'
      cases first'
      exact ih rest before

theorem itemAt_inside {i : Instruction} (item : code.itemAt a = .instruction i) : a < code.size := by
  rw [itemAt] at item
  cases byte : code[a]? with
  | none => simp [byte] at item
  | some b =>
    obtain ⟨below, -⟩ := Array.getElem?_eq_some_iff.mp byte
    exact below

theorem Walk.onward (whole : code.Walk a code.size) (reached : code.Walk a b) : code.Walk b code.size := by
  induction reached with
  | here => exact whole
  | next item _ _ ih =>
    cases whole with
    | here => exact absurd (itemAt_inside item) (Nat.lt_irrefl _)
    | next first _ rest =>
      rw [item] at first
      cases first
      exact ih rest

theorem Walk.follows (rest : code.Walk a code.size) :
    (a = code.size ∧ code.itemAt a = .nothing) ∨ ∃ i, code.itemAt a = .instruction i := by
  cases rest with
  | here => exact .inl ⟨rfl, by simp [itemAt]⟩
  | next item _ _ => exact .inr ⟨_, item⟩

end StackScript.Code
