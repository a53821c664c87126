import StackScript.Proofs.Machine.Passing
import StackScript.Proofs.Machine.Retaining
import StackScript.Proofs.Machine.Written

-- The values of expression statements are dropped, and a machine keeps the one that was dropped last, in whatever function.
namespace StackScript

theorem Safe.takes {pool : Array Value} {r : Region} {a h takes gives : Nat} {i : Instruction} (safe : Safe pool r a h)
    (item : r.code.itemAt a = .instruction i) (known : i.usage? = some (takes, gives)) : takes ≤ h := by
  have same {j : Instruction} (other : r.code.itemAt a = .instruction j) : i = j := by
    rw [item] at other
    cases other
    rfl
  have only {b c : Nat} (usage : i.usage? = some (b, c)) : takes = b := by
    rw [known] at usage
    cases usage
    rfl
  cases safe with
  | ends => simp [Code.itemAt] at item
  | plain item effect other =>
    cases same item
    have call : i.opcode ≠ .call := by
      intro call
      rw [Instruction.usage?, call] at known
      cases known
    have := only (Instruction.effect_usage effect call other)
    omega
  | read item reads =>
    cases same item
    rcases reads.known with usage | ⟨rfl, -⟩
    · rw [only usage]
      exact Nat.zero_le _
    · cases known
  | write item writes =>
    cases same item
    have := only writes.usage
    omega
  | literal item | function item =>
    cases same item
    cases known
    exact Nat.zero_le _
  | closure item =>
    cases same item
    cases known
    exact Nat.le_add_left _ _
  | jump item | jumpUnless item | returnValue item | returnNull item =>
    cases same item
    cases known

namespace Machine

open Running (step goto bind_ok)

def dropped? (m : Machine) : Option Value :=
  match m.frame.routine.code.itemAt m.frame.next with
  | .instruction i => if i.opcode = .pop then m.stack.back? else none
  | _ => none

def drops (budget : Nat) (m : Machine) : List Value := (m.trail 0 budget).filterMap dropped?

variable {pool : Array Value} {budget : Nat} {m n : Machine}

theorem drops_next (step : Running.step m = .ok .next n) (budget : Nat) :
    m.drops (budget + 1) = m.dropped?.toList ++ n.drops budget := by
  rw [drops, trail, if_neg (Nat.not_lt_zero _), step]
  show List.filterMap dropped? (m :: n.trail 0 budget) = _
  cases dropped : m.dropped? with
  | none => exact List.filterMap_cons_none dropped
  | some v => exact List.filterMap_cons_some dropped

theorem drops_nothing (item : m.frame.routine.code.itemAt m.frame.next = .nothing) (main : m.callers = #[]) (budget : Nat) :
    m.drops budget = [] := by
  have undropped : m.dropped? = none := by rw [dropped?, item]
  cases budget with
  | zero => rfl
  | succ budget =>
    rw [drops, trail, if_neg (Nat.not_lt_zero _), Running.step_end item main]
    rw [List.filterMap_cons_none undropped, List.filterMap_nil]

theorem last_blind : Blind last := fun _ _ _ _ _ => rfl

theorem setGlobal_last (op : OpCode) (i : Nat) (v : Value) : Running.Retains last (Running.setGlobal op i v) := by
  intro m
  unfold Running.setGlobal
  split <;> rfl

theorem leave_last {v : Value} (run : Running.leave v m = .ok .next n) : n.last = m.last := by
  have called : m.callers ≠ #[] := by
    obtain ⟨callers, -⟩ := Running.leave_moves run
    simp [callers]
  have retained := Running.leave_retains last_blind v called
  rw [run] at retained
  exact retained

theorem Sound.drops_something {i : Instruction} (sound : m.Sound pool)
    (item : m.frame.routine.code.itemAt m.frame.next = .instruction i) (drops : i.opcode = .pop) :
    ∃ v, m.stack.back? = some v := by
  obtain ⟨nested, h, size, good, -⟩ := sound.chain.move
  have known : i.usage? = some (1, 0) := by rw [Instruction.usage?, drops]; rfl
  have enough := good.safe.takes item known
  exact ⟨m.stack[m.stack.size - 1], by rw [Array.back?_eq_getElem?]; exact Array.getElem?_eq_getElem (by omega)⟩

-- A step changes the value that was dropped last only by dropping another.
theorem Sound.step_last (sound : m.Sound pool) (run : step m = .ok .next n) : n.last = m.dropped?.or m.last := by
  rw [dropped?]
  rcases Running.step_ok run with ⟨-, -, ended, -⟩ | ⟨item, -, left⟩ | ⟨i, item, run⟩
  · cases ended
  · simp only [item]
    exact leave_last left
  · simp only [item]
    by_cases drops : i.opcode = .pop
    · obtain ⟨v, top⟩ := sound.drops_something item drops
      rw [drops] at run
      cases run
      simp only [drops, if_true, top]
      exact top
    · simp only [drops, if_false, Option.none_or]
      by_cases value : i.opcode = .returnValue
      · rw [value] at run
        obtain ⟨v, o, popped, left⟩ := bind_ok.mp run
        obtain ⟨-, rfl⟩ := Running.pop_ok popped
        exact (leave_last left).trans rfl
      · by_cases null : i.opcode = .returnNull
        · rw [null] at run
          exact (leave_last (m := goto m (m.frame.next + OpCode.returnNull.width)) run).trans rfl
        · have retained := Running.execute_retains last_blind (x := i.operands[0]?.getD 0) (y := i.operands[1]?.getD 0)
            (fun _ v => setGlobal_last i.opcode _ v) drops value null (goto m (m.frame.next + i.opcode.width))
          rw [run] at retained
          exact retained

theorem Sound.run_last (sound : m.Sound pool) (run : m.run budget = (.halted, n)) (stays : ¬ m.ReturnsFromMain) :
    n.last = (m.drops budget).getLast?.or m.last := by
  induction budget generalizing m with
  | zero => cases run
  | succ budget ih =>
    rw [Machine.run] at run
    cases step : step m with
    | error f o =>
      rw [step] at run
      cases run
    | ok signal o =>
      rw [step] at run
      cases signal with
      | halt =>
        cases run
        obtain ⟨main, item, same⟩ := stays_halts stays step
        rw [drops_nothing item main, same]
        rfl
      | next =>
        rw [ih (sound.after_step step) run (stays_next stays step), sound.step_last step, drops_next step]
        cases m.dropped? with
        | none => rfl
        | some v =>
          rw [Option.toList_some, List.singleton_append, List.getLast?_cons]
          cases (o.drops budget).getLast? <;> rfl

theorem Main.ends {code : Code} {a h : Nat} (main : m.Main pool code a h) (last : code.size = a) : m.drops budget = [] := by
  refine drops_nothing ?_ main.callers budget
  rw [main.code, main.next, ← last]
  simp [Code.itemAt]

-- A value that the main program drops is what a run has at its end, unless it drops others later.
theorem Main.run_drops {code : Code} {a : Nat} (main : m.Main pool code a 1)
    (item : code.itemAt a = .instruction ⟨.pop, []⟩) (run : m.run budget = (.halted, n)) (stays : ¬ m.ReturnsFromMain) :
    ∃ v others, m.stack = #[v] ∧ m.drops budget = v :: others ∧ n.last = some (others.getLastD v) ∧
      (code.size = a + OpCode.pop.width → others = []) := by
  obtain ⟨v, single⟩ := Array.size_eq_one_iff.mp main.size
  have here := main.item item
  have dropped : m.dropped? = some v := by simp [dropped?, here, single]
  cases budget with
  | zero => cases run
  | succ budget =>
    obtain ⟨o, step, next⟩ : ∃ o, step m = .ok .next o ∧ o.Main pool code (a + OpCode.pop.width) 0 := by
      have step : step m =
          .ok .next { goto m (a + OpCode.pop.width) with stack := m.stack.pop, last := m.stack.back? } := by
        rw [step_at here, main.next]
        rfl
      exact ⟨_, step, main.moved step ⟨rfl, rfl, rfl⟩ (by rw [Array.size_pop, main.size])⟩
    have drops : m.drops (budget + 1) = v :: o.drops budget := by rw [drops_next step, dropped]; rfl
    refine ⟨v, o.drops budget, single, drops, ?_, fun last => next.ends last⟩
    rw [main.sound.run_last run stays, drops, List.getLast?_cons, List.getLastD_eq_getLast?]
    rfl

end Machine
end StackScript
