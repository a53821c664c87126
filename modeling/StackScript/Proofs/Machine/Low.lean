import StackScript.Proofs.Machine.Moves
import StackScript.Proofs.Machine.Safe

-- Safe code keeps the stack of the main program as low as it says, whatever is called on the way. A function may be anything
-- at all: what it leaves of the stack below itself, with its value, is no higher than before.
namespace StackScript

namespace Instruction

-- The operands of an instruction with what they mean for the stack.
def usage? (i : Instruction) : Option (Nat × Nat) :=
  Running.usage i.opcode (i.operands[0]?.getD 0) (i.operands[1]?.getD 0)

theorem effect_usage {i : Instruction} {takes gives : Nat} (effect : i.effect? = some (takes, gives))
    (call : i.opcode ≠ .call) (returns : i.opcode ≠ .returnValue) : i.usage? = some (takes, gives) := by
  unfold effect? at effect
  split at effect <;> cases effect <;> first | rfl | contradiction

end Instruction

theorem Region.Reads.known {r : Region} {i : Instruction} (reads : r.Reads i) :
    i.usage? = some (0, 1) ∨ (i = ⟨.currentClosure, []⟩ ∧ r.nested = true) := by
  unfold Reads at reads
  split at reads
  case h_5 => exact .inr ⟨rfl, reads⟩
  case h_6 => exact reads.elim
  all_goals exact .inl rfl

theorem Region.Reads.usage {r : Region} {i : Instruction} (reads : r.Reads i) (main : r.nested = false) :
    i.usage? = some (0, 1) := by
  refine reads.known.resolve_right ?_
  rintro ⟨-, nested⟩
  rw [main] at nested
  cases nested

theorem Region.Writes.usage {r : Region} {i : Instruction} (writes : r.Writes i) : i.usage? = some (1, 0) := by
  unfold Writes at writes
  split at writes
  case h_5 => exact writes.elim
  all_goals rfl

namespace Machine

open Running (step goto bind_ok)

-- The stack is no higher than the main program needs it where it goes on. While it calls a function, that one has so much
-- below itself.
inductive Low (pool : Array Value) (r : Region) (m : Machine) : Prop where
  | main {h : Nat} : m.callers = #[] → m.frame.routine.code = r.code → Safe pool r m.frame.next h → m.stack.size ≤ h →
      Low pool r m
  | called {f : Frame} {base h : Nat} : m.callers[0]? = some f → f.routine.code = r.code → Safe pool r f.next h →
      (m.callers.push m.frame)[1]?.map Frame.base = some base → 0 < base → base ≤ h → Low pool r m

variable {pool : Array Value} {r : Region} {m n : Machine}

theorem Low.behind {i : Instruction} {takes gives h : Nat} (main : m.callers = #[]) (code : m.frame.routine.code = r.code)
    (item : m.frame.routine.code.itemAt m.frame.next = .instruction i) (known : i.usage? = some (takes, gives))
    (safe : Safe pool r (m.frame.next + i.opcode.width) (h + gives)) (low : m.stack.size ≤ h + takes)
    (run : step m = .ok .next n) : n.Low pool r := by
  rw [step_at item] at run
  have acts := Running.execute_acts known
  have keeps := acts.keeps run
  refine .main (keeps.callers.trans main) ?_ ?_ (acts.low run h low)
  · rw [keeps.frame]
    exact code
  · rw [keeps.frame]
    exact safe

theorem Low.call {h given : Nat} (main : m.callers = #[]) (code : m.frame.routine.code = r.code)
    (item : m.frame.routine.code.itemAt m.frame.next = .instruction ⟨.call, [given]⟩)
    (safe : Safe pool r (m.frame.next + OpCode.call.width) (h + 1)) (low : m.stack.size ≤ h + (given + 1))
    (run : step m = .ok .next n) : n.Low pool r := by
  rw [step_at item] at run
  obtain ⟨u, o, called, ended⟩ := bind_ok.mp run
  cases ended
  rcases Running.call_ways called with ⟨keeps, lower⟩ | ⟨-, callers, -, above, size⟩
  · refine .main (keeps.callers.trans main) ?_ ?_ (lower h low)
    · rw [keeps.frame]
      exact code
    · rw [keeps.frame]
      exact safe
  · have first : n.callers = #[(goto m (m.frame.next + OpCode.call.width)).frame] := by
      rw [callers]
      show m.callers.push _ = _
      rw [main]
      rfl
    have below : n.frame.base + given = m.stack.size := size
    refine .called (f := (goto m (m.frame.next + OpCode.call.width)).frame) ?_ code safe ?_ above (by omega)
    · rw [first]
      rfl
    · rw [first]
      rfl

theorem Low.along {h : Nat} (outside : r.nested = false) (main : m.callers = #[]) (code : m.frame.routine.code = r.code)
    (safe : Safe pool r m.frame.next h) (low : m.stack.size ≤ h) (run : step m = .ok .next n) : n.Low pool r := by
  have behind {i : Instruction} {takes gives g : Nat} (item : r.code.itemAt m.frame.next = .instruction i)
      (known : i.usage? = some (takes, gives)) (safe : Safe pool r (m.frame.next + i.opcode.width) (g + gives))
      (low : m.stack.size ≤ g + takes) : n.Low pool r := .behind main code (by rw [code]; exact item) known safe low run
  have back {i : Instruction} (item : r.code.itemAt m.frame.next = .instruction i)
      (returns : i = ⟨.returnValue, []⟩ ∨ i = ⟨.returnNull, []⟩) : False := by
    rw [← code] at item
    rw [step_at item] at run
    rcases returns with rfl | rfl
    · obtain ⟨v, o, popped, run⟩ := bind_ok.mp run
      obtain ⟨callers, -⟩ := Running.leave_moves run
      rw [(Running.pop_acts.keeps popped).callers] at callers
      have called := main.symm.trans callers
      simp at called
    · obtain ⟨callers, -⟩ := Running.leave_moves run
      have called := main.symm.trans callers
      simp at called
  generalize place : m.frame.next = a at safe behind back
  cases safe with
  | ends _ =>
    have item : m.frame.routine.code.itemAt m.frame.next = .nothing := by
      rw [code, place]
      simp [Code.itemAt]
    rw [Running.step_end item main] at run
    cases run
  | @plain r a takes gives h i item effect other safe =>
    by_cases called : i.opcode = .call
    · obtain ⟨given, rfl, rfl, rfl⟩ := Instruction.effect_call effect called
      exact .call main code (by rw [code, place]; exact item) (by rw [place]; exact safe) low run
    · exact behind item (Instruction.effect_usage effect called other) safe low
  | read item reads safe => exact behind item (reads.usage outside) safe low
  | write item writes safe => exact behind item writes.usage safe low
  | literal item _ _ safe => exact behind item rfl safe low
  | function item _ _ _ _ safe => exact behind item rfl safe low
  | closure item _ _ _ _ safe => exact behind item rfl safe low
  | @jump r a t h item safe =>
    rw [← code, ← place] at item
    rw [step_at item] at run
    cases run
    exact .main main code safe low
  | @jumpUnless r a t h item safe taken =>
    rw [← code, ← place] at item
    rw [step_at item] at run
    obtain ⟨-, condition, -, rfl⟩ := Running.jumpUnless_ok run
    have lower : m.stack.pop.size ≤ h := by
      rw [Array.size_pop]
      omega
    rw [← place] at taken
    split
    · exact .main main code taken lower
    · exact .main main code safe lower
  | returnValue item => exact (back item (.inl rfl)).elim
  | returnNull item => exact (back item (.inr rfl)).elim

-- Above the main program the frame that it called stays as it is, until that one goes back.
theorem Low.step (outside : r.nested = false) (low : m.Low pool r) (run : step m = .ok .next n) : n.Low pool r := by
  cases low with
  | main main code safe low => exact .along outside main code safe low run
  | @called f base h first code safe second above low =>
    obtain ⟨inside, -⟩ := Array.getElem?_eq_some_iff.mp first
    cases Running.step_moves run with
    | along _ callers frame =>
      refine .called (callers ▸ first) code safe ?_ above low
      rw [callers, frame]
      grind
    | into _ _ _ callers =>
      refine .called (f := f) ?_ code safe ?_ above low
      · rw [callers]
        grind
      · rw [callers]
        grind
    | back callers size =>
      by_cases last : n.callers.size = 0
      · have main := Array.eq_empty_of_size_eq_zero last
        rw [callers, main] at first second
        cases first
        have same : m.frame.base = base := by simpa using second
        exact .main main code safe (by omega)
      · exact .called (f := f) (by grind) code safe (by grind) above low

theorem Low.ends (low : m.Low pool r) (main : m.callers = #[])
    (item : m.frame.routine.code.itemAt m.frame.next = .nothing) : m.stack = #[] := by
  cases low with
  | called first => simp [main] at first
  | @main h _ code safe low =>
    rw [code] at item
    generalize m.frame.next = a at safe item
    cases safe with
    | ends _ => exact Array.eq_empty_of_size_eq_zero (Nat.le_zero.mp low)
    | plain other | read other | write other | literal other | function other | closure other | jump other
    | jumpUnless other | returnValue other | returnNull other =>
      rw [item] at other
      cases other

end Machine
end StackScript
