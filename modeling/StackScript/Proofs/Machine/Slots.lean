import StackScript.Proofs.Machine.Moves

-- The slots that code gives values. Code only leads forward, so that from a place on it can give a slot only so many.
namespace StackScript

-- Where the value of a name is kept: among the globals, or among the locals of a function.
inductive Slot where
  | global (n : Nat)
  | frame (n : Nat)
deriving DecidableEq

-- The slot of a function as a place on the stack, where its locals begin at `base`.
def Slot.above (base : Nat) : Slot → Slot
  | global n => global n
  | frame n => frame (base + n)

def Instruction.writes? (i : Instruction) : Option Slot :=
  match i.opcode with
  | .setGlobal | .assignGlobal => some (.global (i.operands[0]?.getD 0))
  | .setLocal | .assignLocal => some (.frame (i.operands[0]?.getD 0))
  | _ => none

-- The slot that an instruction gives a value where its name is declared.
def Instruction.sets? : Instruction → Option Slot
  | ⟨.setGlobal, [n]⟩ => some (.global n)
  | ⟨.setLocal, [n]⟩ => some (.frame n)
  | _ => none

theorem Instruction.sets_writes {i : Instruction} {s : Slot} (sets : i.sets? = some s) : i.writes? = some s := by
  unfold sets? at sets
  split at sets <;> cases sets <;> rfl

theorem Instruction.GoesOn.behind {i : Instruction} {a b : Nat} (goes : i.GoesOn a b) (jump : i.opcode ≠ .jump)
    (test : i.opcode ≠ .jumpUnless) : b = a + i.opcode.width := by
  unfold GoesOn at goes
  split at goes
  · contradiction
  · contradiction
  · exact goes.elim
  · exact goes.elim
  · exact goes

namespace Code

def writeAt? (code : Code) (a : Nat) : Option Slot :=
  match code.itemAt a with
  | .instruction i => i.writes?
  | _ => none

theorem writeAt_instruction {code : Code} {a : Nat} {i : Instruction} (item : code.itemAt a = .instruction i) :
    code.writeAt? a = i.writes? := by rw [writeAt?, item]

-- On no way from a place on does a slot get more than so many values, and all of them where its name is declared.
inductive AtMost (code : Code) (s : Slot) : Nat → Nat → Prop where
  | other {count a : Nat} : code.writeAt? a ≠ some s → (∀ b, code.Follows a b → AtMost code s count b) →
      AtMost code s count a
  | here {count a : Nat} {i : Instruction} : code.itemAt a = .instruction i → i.sets? = some s →
      (∀ b, code.Follows a b → AtMost code s count b) → AtMost code s (count + 1) a

namespace AtMost

variable {code : Code} {s : Slot} {count more a : Nat} {i : Instruction}

theorem mono (most : code.AtMost s count a) (le : count ≤ more) : code.AtMost s more a := by
  induction most generalizing more with
  | other quiet _ ih => exact .other quiet fun b follows => ih b follows le
  | here item sets _ ih =>
    obtain ⟨more, rfl⟩ := Nat.exists_eq_add_one_of_ne_zero (Nat.ne_of_gt (Nat.lt_of_lt_of_le (Nat.succ_pos _) le))
    exact .here item sets fun b follows => ih b follows (Nat.le_of_succ_le_succ le)

theorem spend (most : code.AtMost s count a) : ∃ left, (if code.writeAt? a = some s then 1 else 0) + left = count ∧
    ∀ b, code.Follows a b → code.AtMost s left b := by
  cases most with
  | other quiet rest => exact ⟨count, by rw [if_neg quiet, Nat.zero_add], rest⟩
  | @here left _ i item sets rest =>
    have written : code.writeAt? a = some s := (writeAt_instruction item).trans (Instruction.sets_writes sets)
    exact ⟨left, by rw [if_pos written, Nat.add_comm], rest⟩

theorem writer (most : code.AtMost s count a) (written : code.writeAt? a = some s) :
    0 < count ∧ ∃ i, code.itemAt a = .instruction i ∧ i.sets? = some s := by
  cases most with
  | other quiet => exact absurd written quiet
  | here item sets => exact ⟨Nat.succ_pos _, _, item, sets⟩

theorem last (quiet : code.writeAt? a ≠ some s) (ends : ∀ b, ¬ code.Follows a b) : code.AtMost s count a :=
  .other quiet fun b follows => absurd follows (ends b)

theorem ends (item : code.itemAt a = .nothing) : code.AtMost s count a := by
  refine .last (by simp [writeAt?, item]) ?_
  rintro b ⟨i, here, -⟩
  cases item.symm.trans here

theorem returns (item : code.itemAt a = .instruction i) (ends : i.opcode = .returnValue ∨ i.opcode = .returnNull) :
    code.AtMost s count a := by
  apply last
  · rw [writeAt_instruction item]
    rcases ends with op | op <;> simp [Instruction.writes?, op]
  · rintro b ⟨j, here, goes⟩
    cases item.symm.trans here
    rcases ends with op | op <;> simp [Instruction.GoesOn, op] at goes

theorem straight (item : code.itemAt a = .instruction i) (jump : i.opcode ≠ .jump) (test : i.opcode ≠ .jumpUnless)
    (declares : i.writes? = some s → i.sets? = some s) (rest : code.AtMost s count (a + i.opcode.width)) :
    code.AtMost s (count + if i.writes? = some s then 1 else 0) a := by
  have next : ∀ b, code.Follows a b → code.AtMost s count b := by
    rintro b ⟨j, here, goes⟩
    cases item.symm.trans here
    rw [goes.behind jump test]
    exact rest
  by_cases written : i.writes? = some s
  · rw [if_pos written]
    exact .here item (declares written) next
  · rw [if_neg written]
    apply AtMost.other
    · rw [writeAt_instruction item]
      exact written
    · exact next

theorem pass (item : code.itemAt a = .instruction i) (jump : i.opcode ≠ .jump) (test : i.opcode ≠ .jumpUnless)
    (quiet : i.writes? ≠ some s) (rest : code.AtMost s count (a + i.opcode.width)) : code.AtMost s count a := by
  have here := straight item jump test (fun written => absurd written quiet) rest
  rwa [if_neg quiet] at here

theorem jump {t : Nat} (item : code.itemAt a = .instruction ⟨.jump, [t]⟩) (rest : code.AtMost s count t) :
    code.AtMost s count a := by
  apply AtMost.other
  · rw [writeAt_instruction item]
    exact Option.some_ne_none s ∘ Eq.symm
  · rintro b ⟨j, here, goes⟩
    cases item.symm.trans here
    cases goes
    exact rest

theorem jumpUnless {t : Nat} (item : code.itemAt a = .instruction ⟨.jumpUnless, [t]⟩) (rest : code.AtMost s count t)
    (taken : code.AtMost s count (a + OpCode.jumpUnless.width)) : code.AtMost s count a := by
  apply AtMost.other
  · rw [writeAt_instruction item]
    exact Option.some_ne_none s ∘ Eq.symm
  · rintro b ⟨j, here, goes⟩
    cases item.symm.trans here
    rcases goes with rfl | rfl
    · exact rest
    · exact taken

end AtMost
end Code
end StackScript
