import StackScript.Proofs.Machine.Retaining
import StackScript.Proofs.Machine.Written
import StackScript.Proofs.Meaning.Instructions

-- A step changes no global but the one that it gives a value, however it ends.
namespace StackScript.Running

variable {m : Machine} {i n : Nat}

def held (i : Nat) (m : Machine) : Value := m.globals[i]?.getD .null

theorem held_blind (i : Nat) : Machine.Blind (held i) := fun _ _ _ _ _ => rfl

theorem setGlobal_held (op : OpCode) (v : Value) (other : n ≠ i) : Retains (held i) (setGlobal op n v) := by
  intro m
  unfold setGlobal
  split
  · simp only [reached, held]
    rw [Activation.set_global, if_neg other.symm]
  · rfl

theorem leave_held (v : Value) : Retains (held i) (leave v) := by
  intro m
  by_cases main : m.callers = #[]
  · simp [leave, main, reached, held]
  · exact leave_retains (held_blind i) v main

theorem execute_held {op : OpCode} {x y : Nat} (other : op = .setGlobal ∨ op = .assignGlobal → x ≠ i) :
    Retains (held i) (execute op x y) := by
  by_cases special : op = .pop ∨ op = .returnValue ∨ op = .returnNull
  · rcases special with rfl | rfl | rfl
    · exact retains_bind (x := drop) (fun _ => rfl) fun _ => retains_pure _
    · exact retains_bind (pop_retains (held_blind i)) fun v => leave_held v
    · exact leave_held _
  · obtain ⟨drops, returns⟩ := not_or.mp special
    obtain ⟨value, null⟩ := not_or.mp returns
    exact execute_retains (held_blind i) (fun sets v => setGlobal_held _ v (other sets)) drops value null

theorem step_leaves (quiet : m.written? ≠ some (.global i)) :
    (reached (step m)).globals[i]?.getD .null = m.globals[i]?.getD .null := by
  cases item : m.frame.routine.code.itemAt m.frame.next with
  | nothing =>
    by_cases main : m.callers = #[]
    · rw [step_end item main]
      rfl
    · rw [step_back item main]
      exact leave_held _ m
  | unknown byte =>
    rw [step_unknown item]
    rfl
  | truncated op =>
    rw [step_truncated item]
    rfl
  | instruction j =>
    rw [Machine.step_at item]
    apply execute_held
    rintro global rfl
    apply quiet
    rw [Machine.written?, Code.writeAt_instruction item]
    rcases global with op | op <;> simp [Instruction.writes?, op, Slot.above]

theorem run_leaves {budget : Nat} (quiet : ∀ q ∈ m.trail 0 budget, q.written? ≠ some (.global i)) :
    (m.run budget).2.globals[i]?.getD .null = m.globals[i]?.getD .null := by
  induction budget generalizing m with
  | zero => rfl
  | succ budget ih =>
    rw [Machine.trail, if_neg (Nat.not_lt_zero _)] at quiet
    have here := step_leaves (quiet m List.mem_cons_self)
    rw [Machine.run]
    cases run : step m with
    | error f n =>
      rw [run] at here
      exact here
    | ok signal n =>
      rw [run] at here quiet
      cases signal with
      | halt => exact here
      | next => exact (ih fun q later => quiet q (List.mem_cons_of_mem m later)).trans here

end StackScript.Running
