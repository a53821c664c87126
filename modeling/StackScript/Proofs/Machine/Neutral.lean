import StackScript.Proofs.Machine.Continued
import StackScript.Proofs.Machine.Spared

-- A call is neutral: when the function comes back, its value stands where itself and its arguments stood, and nothing
-- else has changed for the one that called it but where it goes on.
namespace StackScript

theorem Chain.base_le {pool : Array Value} {callers : List Frame} {f : Frame} {size : Nat} (chain : Chain pool callers f size) :
    ∀ g ∈ callers, g.base + g.routine.locals ≤ f.base := by
  induction chain with
  | main => exact fun g present => absurd present List.not_mem_nil
  | @called f caller callers h good above outer ih =>
    obtain ⟨-, k, size, -⟩ := outer.move
    intro g present
    rcases List.mem_cons.mp present with rfl | further
    · omega
    · have := ih g further
      omega

namespace Machine

open Running (step goto bind_ok)

variable {pool : Array Value} {m n q o : Machine}

-- Steps from one machine to another, with at least so many callers all the way.
inductive Onward (depth : Nat) : Machine → Machine → Prop where
  | here {m : Machine} : depth ≤ m.callers.size → Onward depth m m
  | step {m n o : Machine} : depth ≤ m.callers.size → step m = .ok .next n → Onward depth n o → Onward depth m o

theorem Onward.sound {depth : Nat} (onward : Onward depth m n) (sound : m.Sound pool) : n.Sound pool := by
  induction onward with
  | here => exact sound
  | step _ run _ ih => exact ih (sound.after_step run)

theorem onward_of_run {budget : Nat} (run : m.run budget = (.unfinished, n)) : Onward 0 m n := by
  induction budget generalizing m with
  | zero =>
    cases run
    exact .here (Nat.zero_le _)
  | succ budget ih =>
    rw [Machine.run] at run
    split at run
    · rename_i o step
      exact .step (Nat.zero_le _) step (ih run)
    · cases run
    · cases run

theorem step_of_run {budget : Nat} (run : m.run budget = (.unfinished, n)) (more : m.run (budget + 1) = (.unfinished, o)) :
    step n = .ok .next o := by
  induction budget generalizing m with
  | zero =>
    cases run
    rw [Machine.run] at more
    split at more
    · rename_i step
      cases more
      exact step
    · cases more
    · cases more
  | succ budget ih =>
    rw [Machine.run] at run more
    split at run
    · rename_i step
      rw [step] at more
      exact ih run more
    · cases run
    · cases run

-- A function that was called with `low` values below itself is still running, or one that it calls is.
structure Inside (callers : Array Frame) (low : Nat) (m q : Machine) : Prop where
  outer : ∀ i, i < callers.size → q.callers[i]? = callers[i]?
  base : (q.callers.push q.frame)[callers.size]?.map Frame.base = some (low + 1)
  shares : Shares low m q

variable {callers : Array Frame} {low : Nat}

theorem Inside.above (inside : Inside callers low m q) (sound : q.Sound pool) (deep : callers.size ≤ q.callers.size) :
    low + 1 ≤ q.frame.base := by
  have base := inside.base
  by_cases top : callers.size = q.callers.size
  · rw [top, Array.getElem?_push_size, Option.map_some, Option.some.injEq] at base
    exact Nat.le_of_eq base.symm
  · have below : callers.size < q.callers.size := Nat.lt_of_le_of_ne deep top
    rw [Array.getElem?_push_lt below, Option.map_some, Option.some.injEq] at base
    rw [← base]
    have above := sound.chain.base_le _ (List.mem_reverse.mpr (Array.mem_toList_iff.mpr (Array.getElem_mem below)))
    exact Nat.le_trans (Nat.le_add_right _ _) above

theorem Inside.step (inside : Inside callers low m q) (sound : q.Sound pool) (run : step q = .ok .next o)
    (deep : callers.size ≤ q.callers.size) (still : callers.size ≤ o.callers.size) : Inside callers low m o := by
  have above := inside.above sound deep
  obtain ⟨-, h, size, -⟩ := sound.chain.move
  cases sound.step_turns run with
  | along same base shares =>
    refine ⟨by rw [same]; exact inside.outer, ?_, inside.shares.trans (shares.lower (by omega))⟩
    rw [← inside.base, same]
    grind
  | into _ pushed high base shares =>
    refine ⟨fun i below => ?_, ?_, inside.shares.trans (shares.lower (by omega))⟩
    · rw [← inside.outer i below, pushed]
      grind
    · rw [← inside.base, pushed]
      grind
  | back _ popped stack =>
    refine ⟨fun i below => ?_, ?_, inside.shares.trans fun i below => ?_⟩
    · rw [← inside.outer i below, popped]
      grind
    · rw [← inside.base, ← popped]
      rw [popped] at deep ⊢
      grind
    · rw [stack, Array.getElem?_push_lt (by rw [Array.size_shrink]; omega), ← Array.getElem?_eq_getElem]
      exact Running.shrink_below q.stack (by omega)

theorem Inside.back (inside : Inside callers low m q) (run : Running.step q = .ok .next o) (sound : q.Sound pool)
    (deep : callers.size ≤ q.callers.size) (done : o.callers.size < callers.size) :
    ∃ v, q.Returning v ∧ o.stack = (m.stack.shrink low).push v ∧ callers = o.callers.push o.frame := by
  cases sound.step_turns run with
  | along same => exact absurd deep (by rw [← same]; exact Nat.not_le_of_lt done)
  | into _ pushed => 
    rw [pushed, Array.size_push] at done
    omega
  | @back v returning popped stack =>
    have count : q.callers.size = o.callers.size + 1 := by rw [popped, Array.size_push]
    have size : callers.size = q.callers.size := by omega
    have same : callers = q.callers := by
      apply Array.ext_getElem?
      intro i
      by_cases below : i < callers.size
      · exact (inside.outer i below).symm
      · rw [Array.getElem?_eq_none (by omega), Array.getElem?_eq_none (by omega)]
    have base := inside.base
    rw [size, Array.getElem?_push_size] at base
    have base : q.frame.base = low + 1 := by simpa using base
    have shrunk : q.stack.shrink low = m.stack.shrink low := by
      apply Array.ext_getElem?
      intro i
      by_cases below : i < low
      · rw [Running.shrink_below _ below, Running.shrink_below _ below]
        exact inside.shares i below
      · rw [Array.getElem?_eq_none (by simp; omega), Array.getElem?_eq_none (by simp; omega)]
    refine ⟨v, returning, ?_, same.trans popped⟩
    rw [stack, base, Nat.add_sub_cancel, shrunk]

theorem Onward.deep {depth : Nat} (onward : Onward depth m n) : depth ≤ m.callers.size := by
  cases onward with
  | here deep => exact deep
  | step deep _ _ => exact deep

-- All the way to the step with which it comes back, by induction on the steps.
theorem Inside.until_back (inside : Inside callers low m n) (sound : n.Sound pool) (during : n.Onward callers.size q)
    (last : Running.step q = .ok .next o) (done : o.callers.size < callers.size) :
    ∃ v, q.Returning v ∧ o.stack = (m.stack.shrink low).push v ∧ callers = o.callers.push o.frame := by
  induction during with
  | here deep => exact inside.back last sound deep done
  | step deep run onward ih => exact ih (inside.step sound run deep onward.deep) (sound.after_step run) last

theorem call_enters {given k : Nat} {callee : Value} {f : Routine} (sound : m.Sound pool)
    (item : m.frame.routine.code.itemAt m.frame.next = .instruction ⟨.call, [given]⟩)
    (here : m.stack[m.stack.size - (given + 1)]? = some callee) (called : callee.callee? = some (f, k))
    (run : Running.step m = .ok .next n) :
    (n.callers = m.callers.push { m.frame with next := m.frame.next + OpCode.call.width } ∧ n.frame.routine = f) ∧
      Inside (m.callers.push { m.frame with next := m.frame.next + OpCode.call.width }) (m.stack.size - (given + 1)) m n := by
  have entered : n.callers = m.callers.push { m.frame with next := m.frame.next + OpCode.call.width } ∧
      n.frame.routine = f := by
    rw [step_at item] at run
    obtain ⟨u, o, done, ended⟩ := bind_ok.mp run
    cases ended
    by_cases enough : given + 1 ≤ m.stack.size
    · have done := (Running.call_run (m := goto m (m.frame.next + OpCode.call.width)) enough here).symm.trans done
      have invoked {captured : List Value}
          (run : Running.invoke f captured given (goto m (m.frame.next + OpCode.call.width)) = .ok u n) :
          n.callers = m.callers.push { m.frame with next := m.frame.next + OpCode.call.width } ∧ n.frame.routine = f := by
        obtain ⟨-, callers, frame⟩ := Running.invoke_moves run
        exact ⟨callers, by rw [frame]⟩
      cases callee <;> cases called
      · exact invoked done
      · exact invoked done
    · have short := Running.call_short (m := goto m (m.frame.next + OpCode.call.width)) (Nat.lt_of_not_le enough)
      cases short.symm.trans done
  obtain ⟨pushed, routine⟩ := entered
  refine ⟨⟨pushed, routine⟩, ?_⟩
  cases sound.step_turns run with
  | along same => exact absurd (congrArg Array.size (pushed.symm.trans same)) (by simp)
  | back _ popped =>
    rw [popped] at pushed
    exact absurd (congrArg Array.size pushed) (by simp; omega)
  | @into other at_ _ high base shares =>
    rw [item] at at_
    cases at_
    refine ⟨fun i below => by rw [pushed], ?_, shares.lower (by omega)⟩
    rw [← pushed, Array.getElem?_push_size, Option.map_some, Option.some.injEq]
    omega

-- As long as the function runs, what lies below it stays, and then its value takes the place of the call.
theorem Sound.call_neutral {given k : Nat} {callee : Value} {f : Routine} (sound : m.Sound pool)
    (item : m.frame.routine.code.itemAt m.frame.next = .instruction ⟨.call, [given]⟩)
    (here : m.stack[m.stack.size - (given + 1)]? = some callee) (called : callee.callee? = some (f, k))
    (run : Running.step m = .ok .next n) (during : n.Onward (m.callers.size + 1) q) (last : Running.step q = .ok .next o)
    (done : o.callers.size ≤ m.callers.size) :
    ∃ v, q.Returning v ∧ o.stack = (m.stack.shrink (m.stack.size - (given + 1))).push v ∧ o.callers = m.callers ∧
      o.frame = { m.frame with next := m.frame.next + OpCode.call.width } := by
  have inside := (call_enters sound item here called run).2
  have size (f : Frame) : (m.callers.push f).size = m.callers.size + 1 := Array.size_push f
  rw [← size] at during
  obtain ⟨v, returning, stack, frames⟩ := inside.until_back (sound.after_step run) during last (by rw [size]; omega)
  obtain ⟨callers, frame⟩ := Array.push_eq_push.mp frames
  exact ⟨v, returning, stack, frame.symm, callers.symm⟩

variable {r : Region} {budget : Nat}

theorem Low.run_empty (outside : r.nested = false) (low : m.Low pool r) (run : m.run budget = (.halted, n))
    (stays : ¬ m.ReturnsFromMain) : n.stack = #[] := by
  induction budget generalizing m with
  | zero => cases run
  | succ budget ih =>
    rw [Machine.run] at run
    cases step : Running.step m with
    | error f o =>
      rw [step] at run
      cases run
    | ok signal o =>
      rw [step] at run
      cases signal with
      | halt =>
        cases run
        obtain ⟨main, item, rfl⟩ := stays_halts stays step
        exact low.ends main item
      | next => exact ih (low.step outside step) run (stays_next stays step)

end Machine
end StackScript
