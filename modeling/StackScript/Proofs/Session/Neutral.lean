import StackScript.Proofs.Machine.Neutral
import StackScript.Proofs.Session.Safety

-- Calls are neutral to the stack in every program of a session, and a program that ends leaves nothing on it.
namespace StackScript.Session

open Machine (Onward)

-- When a function or a closure is called, it runs above the one that calls it. If it comes back, it does so by an
-- instruction that gives back a value: this stands where the callee and its arguments stood, everything else on the stack
-- is as it was, and so are the frames but for the caller, which goes on behind the call. A main program that ends, but not
-- by a `return`, leaves the stack empty.
theorem calls_neutral (inputs : List (Nat × String)) (p : Program) (c : Compiler)
    (compiled : (Compiler.resume (new.after inputs).symbols (new.after inputs).constants).compile p = .ok () c) :
    (∀ m, Onward 0 (Machine.start c.bytecode (new.after inputs).globals) m → ∀ given callee f k,
      m.frame.routine.code.itemAt m.frame.next = .instruction ⟨.call, [given]⟩ →
      m.stack[m.stack.size - (given + 1)]? = some callee → callee.callee? = some (f, k) →
      ∀ n, Running.step m = .ok .next n →
        (n.callers = m.callers.push { m.frame with next := m.frame.next + OpCode.call.width } ∧ n.frame.routine = f) ∧
        ∀ q o, Onward (m.callers.size + 1) n q → Running.step q = .ok .next o → o.callers.size ≤ m.callers.size →
          ∃ v, q.Returning v ∧ o.stack = (m.stack.shrink (m.stack.size - (given + 1))).push v ∧ o.callers = m.callers ∧
            o.frame = { m.frame with next := m.frame.next + OpCode.call.width }) ∧
    ∀ budget n, (Machine.start c.bytecode (new.after inputs).globals).run budget = (.halted, n) →
      ¬ (Machine.start c.bytecode (new.after inputs).globals).ReturnsFromMain → n.stack = #[] := by
  have sound := after_sound inputs
  obtain ⟨-, -, start⟩ := start_sound sound compiled
  have done := Compiler.compile_done sound.symbols sound.main compiled
  constructor
  · intro m reached given callee f k item here called n run
    have sound := reached.sound start
    refine ⟨(Machine.call_enters sound item here called run).1, ?_⟩
    intro q o during last back
    exact sound.call_neutral item here called run during last back
  · intro budget n run stays
    have low : (Machine.start c.bytecode (new.after inputs).globals).Low c.constants ⟨c.fragment.code, 0, 0, false⟩ := by
      rw [done.bytecode]
      exact .main rfl rfl done.safe (Nat.le_refl 0)
    exact low.run_empty rfl run stays

-- 1 + fn(x) { return x; }(5)
def calling : Program :=
  ⟨[.expression .unknown (.binary .unknown "+" (.integer .unknown 1) (.call .unknown
    (.function .unknown none ["x"] [.returns .unknown (.identifier .unknown "x")]) [.integer .unknown 5]))], none⟩

theorem calls_neutral_calling : ∃ (c : Compiler) (m o n : Machine) (v : Value), Compiler.new.compile calling = .ok () c ∧
    Onward 0 (Machine.start c.bytecode #[]) m ∧ m.stack.size = 3 ∧ o.stack = (m.stack.shrink 1).push v ∧
    (Machine.start c.bytecode #[]).run 9 = (.halted, n) ∧ n.stack = #[] := by
  obtain ⟨c, compiled⟩ : calling.Compiles := by decide +kernel
  have facts : (match Compiler.new.compile calling with
      | .ok _ c =>
        let go (budget : Nat) := (Machine.start c.bytecode #[]).run budget
        ((List.range 9).all fun budget => (go budget).1 = .unfinished && !(go budget).2.returnsNext) &&
          (go 9).1 = .halted && (go 3).2.stack.size = 3 && (go 3).2.callers.size = 0 && (go 4).2.callers.size = 1 &&
          (go 5).2.callers.size = 1 && (go 6).2.callers.size = 0 &&
          (go 3).2.frame.routine.code.itemAt (go 3).2.frame.next = .instruction ⟨.call, [1]⟩ &&
          ((go 3).2.stack[1]?.bind Value.callee?).isSome
      | .error _ _ => false) = true := by decide +kernel
  rw [compiled] at facts
  simp only [Bool.and_eq_true, decide_eq_true_eq, List.all_eq_true, List.mem_range, Bool.not_eq_true'] at facts
  generalize start : Machine.start c.bytecode #[] = s at facts
  obtain ⟨⟨⟨⟨⟨⟨⟨⟨each, halts⟩, high⟩, outer⟩, first⟩, second⟩, back⟩, item⟩, callee⟩ := facts
  have goes (budget : Nat) (early : budget < 9) : s.run budget = (.unfinished, (s.run budget).2) :=
    Prod.ext (each budget early).1 rfl
  have reached (budget : Nat) (early : budget < 9) : Onward 0 s (s.run budget).2 := Machine.onward_of_run (goes budget early)
  have steps (budget : Nat) (early : budget + 1 < 9) : Running.step (s.run budget).2 = .ok .next (s.run (budget + 1)).2 :=
    Machine.step_of_run (goes budget (by omega)) (goes (budget + 1) early)
  obtain ⟨⟨f, k⟩, called⟩ := Option.isSome_iff_exists.mp callee
  obtain ⟨callee, here, called⟩ := Option.bind_eq_some_iff.mp called
  obtain ⟨neutral, empty⟩ := calls_neutral [] calling c compiled
  rw [show Machine.start c.bytecode (new.after []).globals = s from start] at neutral empty
  have during : Onward ((s.run 3).2.callers.size + 1) (s.run 4).2 (s.run 5).2 :=
    .step (by omega) (steps 4 (by decide)) (.here (show _ ≤ (s.run 5).2.callers.size by omega))
  obtain ⟨-, returns⟩ := neutral (s.run 3).2 (reached 3 (by decide)) 1 callee f k item (by simp only [high]; exact here) called _
    (steps 3 (by decide))
  obtain ⟨v, -, stack, -⟩ := returns _ _ during (steps 5 (by decide)) (show (s.run 6).2.callers.size ≤ _ by omega)
  simp only [high] at stack
  have ends : s.run 9 = (.halted, (s.run 9).2) := Prod.ext halts rfl
  have stays : ¬ s.ReturnsFromMain := Machine.stays_of_run ends (by simp) fun early below => (each early below).2
  exact ⟨c, _, _, _, v, compiled, by rw [start]; exact reached 3 (by decide), high, stack, by rw [start]; exact ends,
    empty 9 _ ends stays⟩

end StackScript.Session
