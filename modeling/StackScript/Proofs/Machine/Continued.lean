import StackScript.Proofs.Machine.Displaced
import StackScript.Proofs.Machine.Low

-- Whole runs of a main program by itself and inside other code.
namespace StackScript

namespace Machine

def returnsNext (m : Machine) : Bool := m.callers.isEmpty &&
  match m.frame.routine.code.itemAt m.frame.next with
  | .instruction i => i.opcode = .returnValue || i.opcode = .returnNull
  | _ => false

-- A `return` of the main program is carried out.
def ReturnsFromMain (m : Machine) : Prop := ∃ budget n, m.run budget = (.unfinished, n) ∧ n.returnsNext = true

variable {m n o : Machine} {budget : Nat} {ending : Ending}

theorem stays_next (stays : ¬ m.ReturnsFromMain) (step : Running.step m = .ok .next o) : ¬ o.ReturnsFromMain := by
  rintro ⟨budget, e, ran, returns⟩
  exact stays ⟨budget + 1, e, (run_step step budget).trans ran, returns⟩

theorem stays_halts (stays : ¬ m.ReturnsFromMain) (step : Running.step m = .ok .halt o) :
    m.callers = #[] ∧ m.frame.routine.code.itemAt m.frame.next = .nothing ∧ o = m := by
  obtain ⟨main, ⟨item, same⟩ | ⟨i, item, returns⟩⟩ := Running.step_halts step
  · exact ⟨main, item, same⟩
  · have next : m.returnsNext = true := by simpa [returnsNext, main, item] using returns
    exact absurd ⟨0, m, rfl, next⟩ stays

theorem stays_of_run (run : m.run budget = (ending, n)) (stopped : ending ≠ .unfinished)
    (each : ∀ early < budget, (m.run early).2.returnsNext = false) : ¬ m.ReturnsFromMain := by
  rintro ⟨early, o, unfinished, returns⟩
  by_cases before : early < budget
  · have stays := each early before
    rw [unfinished, returns] at stays
    cases stays
  · obtain ⟨more, rfl⟩ := Nat.exists_eq_add_of_le (Nat.le_of_not_lt before)
    rw [run_longer run stopped more] at unfinished
    cases unfinished
    exact stopped rfl

end Machine

namespace Displacement

open Machine (Shows)
open Running

variable {k : Displacement} {m n w z : Machine}

theorem Stands.frames (stands : k.Stands m w) (main : m.callers = #[]) : k.Frames m.frame w.frame := by
  cases stands with
  | main _ _ frames => exact frames
  | called alone => simp [main] at alone

theorem Stands.follows (stands : k.Stands m w) (whole : k.inner.Walk 0 k.inner.size) (main : m.callers = #[]) :
    (m.frame.next = k.inner.size ∧ m.frame.routine.code.itemAt m.frame.next = .nothing) ∨
      ∃ i, m.frame.routine.code.itemAt m.frame.next = .instruction i := by
  have frames := stands.frames main
  rw [frames.alone]
  exact (whole.onward frames.reached).follows

-- Where the second code ends with the first one, both runs come to the same end.
theorem run_twins (sound : k.Sound) (all : k.same) (whole : k.inner.Walk 0 k.inner.size)
    (last : k.outer.size = k.offset + k.inner.size) {budget : Nat} {ending : Ending} (beside : k.Beside m w)
    (run : m.run budget = (ending, n)) : ∃ z, w.run budget = (ending, z) ∧ Shows k.printed n z := by
  induction budget generalizing m w with
  | zero =>
    cases run
    exact ⟨w, rfl, beside.toShows⟩
  | succ budget ih =>
    rw [Machine.run] at run ⊢
    by_cases done : m.callers = #[] ∧ m.frame.routine.code.itemAt m.frame.next = .nothing
    · obtain ⟨main, item⟩ := done
      have frames := beside.stands.frames main
      have nothing : w.frame.routine.code.itemAt w.frame.next = .nothing := by
        rcases beside.stands.follows whole main with ⟨here, -⟩ | ⟨i, other⟩
        · rw [frames.whole, frames.next, here, ← last]
          simp [Code.itemAt]
        · rw [item] at other
          cases other
      rw [step_end item main] at run
      rw [step_end nothing (beside.stands.empty.mpr main)]
      cases run
      exact ⟨w, rfl, beside.toShows⟩
    · have inside (main : m.callers = #[]) : ∃ i, m.frame.routine.code.itemAt m.frame.next = .instruction i := by
        refine (beside.stands.follows whole main).resolve_left ?_
        rintro ⟨-, item⟩
        exact done ⟨main, item⟩
      have twins := step_twins sound beside inside
      unfold Twins at twins
      cases step : Running.step m with
      | error f o =>
        rw [step] at run twins
        cases run
        obtain ⟨z, failed, shows⟩ := twins all
        exact ⟨z, by rw [failed], shows⟩
      | ok signal o =>
        rw [step] at run twins
        obtain ⟨z, stepped, after⟩ := twins
        rw [stepped]
        cases signal with
        | next => exact ih after run
        | halt =>
          cases run
          exact ⟨z, rfl, after⟩

-- Where the first run comes to the end of its code, the second one is behind what it has of that.
theorem run_until {pool : Array Value} {r : Region} {budget : Nat} (sound : k.Sound) (whole : k.inner.Walk 0 k.inner.size)
    (outside : r.nested = false) (beside : k.Beside m w) (low : m.Low pool r) (run : m.run budget = (.halted, n))
    (stays : ¬ m.ReturnsFromMain) : ∃ steps z, (∀ more, w.run (steps + more) = z.run more) ∧ k.Beside n z ∧
      n.callers = #[] ∧ n.stack = #[] ∧ n.frame.routine.code.itemAt n.frame.next = .nothing := by
  induction budget generalizing m w with
  | zero => cases run
  | succ budget ih =>
    rw [Machine.run] at run
    cases step : Running.step m with
    | error stop o =>
      rw [step] at run
      cases run
    | ok signal o =>
      rw [step] at run
      cases signal with
      | halt =>
        cases run
        obtain ⟨main, item, rfl⟩ := Machine.stays_halts stays step
        exact ⟨0, w, fun more => by rw [Nat.zero_add], beside, main, low.ends main item, item⟩
      | next =>
        have inside (main : m.callers = #[]) : ∃ i, m.frame.routine.code.itemAt m.frame.next = .instruction i := by
          refine (beside.stands.follows whole main).resolve_left ?_
          rintro ⟨-, item⟩
          rw [step_end item main] at step
          cases step
        have twins := step_twins sound beside inside
        unfold Twins at twins
        rw [step] at twins
        obtain ⟨y, stepped, after⟩ := twins
        obtain ⟨steps, z, runs, others⟩ := ih after (low.step outside step) run (Machine.stays_next stays step)
        refine ⟨steps + 1, z, fun more => ?_, others⟩
        rw [Nat.add_right_comm, Machine.run, stepped]
        exact runs more

end Displacement
end StackScript
