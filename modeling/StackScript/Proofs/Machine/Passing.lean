import StackScript.Proofs.Machine.Halting
import StackScript.Proofs.Machine.Neutral

-- The main program passes through its code piece by piece: behind each piece it goes on with as many values on the stack as
-- the piece adds, unless it fails or returns on the way.
namespace StackScript

namespace Machine

open Running (step goto bind_ok)

-- The main program is at a place of its code, with so many values on the stack.
structure Main (pool : Array Value) (code : Code) (place h : Nat) (m : Machine) : Prop where
  sound : m.Sound pool
  callers : m.callers = #[]
  code : m.frame.routine.code = code
  base : m.frame.base = 0
  next : m.frame.next = place
  size : m.stack.size = h

def Passes (pool : Array Value) (code : Code) (place h : Nat) (m : Machine) : Prop :=
  m.Leads (fun o => o.Main pool code place h ∨ o.returnsNext = true) fun _ _ => True

variable {pool : Array Value} {code : Code} {a b h takes gives given : Nat} {i : Instruction} {m n : Machine}

theorem Passes.then (first : m.Passes pool code a h) (rest : ∀ o : Machine, o.Main pool code a h → o.Passes pool code b given) :
    m.Passes pool code b given := by
  refine Leads.bind first fun o reached => ?_
  rcases reached with main | returns
  · exact rest o main
  · exact .here (.inr returns)

theorem Main.item (main : m.Main pool code a h) (item : code.itemAt a = .instruction i) :
    m.frame.routine.code.itemAt m.frame.next = .instruction i := by
  rw [main.code, main.next]
  exact item

theorem Main.steps {goal : Machine → Prop} (main : m.Main pool code a h) (item : code.itemAt a = .instruction i)
    (value : i.opcode ≠ .returnValue) (null : i.opcode ≠ .returnNull)
    (next : ∀ n, step m = .ok .next n → n.Leads goal fun _ _ => True) : m.Leads goal fun _ _ => True := by
  cases run : step m with
  | error f o => exact .fail run trivial
  | ok signal o =>
    cases signal with
    | halt =>
      rw [step_at (main.item item)] at run
      exact absurd run (Running.execute_goes _ _ value null _ _)
    | next => exact .next run (next o run)

theorem Main.moved (main : m.Main pool code a h) (run : step m = .ok .next n)
    (keeps : (goto m b).Keeps n) (size : n.stack.size = given) : n.Main pool code b given := by
  refine ⟨main.sound.after_step run, keeps.callers.trans main.callers, ?_, ?_, ?_, size⟩
  · rw [keeps.frame]
    exact main.code
  · rw [keeps.frame]
    exact main.base
  · rw [keeps.frame]
    rfl

theorem Main.along (main : m.Main pool code a (h + takes)) (item : code.itemAt a = .instruction i)
    (known : i.usage? = some (takes, gives)) : m.Passes pool code (a + i.opcode.width) (h + gives) := by
  have straight (op : OpCode) (unknown : ∀ x y, Running.usage op x y = none) : i.opcode ≠ op := by
    intro same
    rw [Instruction.usage?, same, unknown] at known
    cases known
  refine main.steps item (straight _ fun _ _ => rfl) (straight _ fun _ _ => rfl) fun n run => .here (.inl ?_)
  have done := run
  rw [step_at (main.item item), main.next] at done
  have low := (Running.execute_acts known).low done h (Nat.le_of_eq main.size)
  have base : m.frame.base ≤ h := by rw [main.base]; exact Nat.zero_le h
  have high := ((Running.execute_spares known _ _ _ done).2 h base (Nat.le_of_eq main.size.symm)).1
  exact main.moved run ((Running.execute_acts known).keeps done) (Nat.le_antisymm low high)

-- A function that is called comes back, unless the run fails before.
theorem Stops.comes_back {depth : Nat} (stops : n.Stops) (deep : depth + 1 ≤ n.callers.size) :
    n.Leads (fun o => ∃ q, Onward (depth + 1) n q ∧ step q = .ok .next o ∧ o.callers.size ≤ depth) fun _ _ => True := by
  induction stops with
  | intro n _ ih =>
    cases run : step n with
    | error f o => exact .fail run trivial
    | ok signal o =>
      cases signal with
      | halt =>
        obtain ⟨main, -⟩ := Running.step_halts run
        simp [main] at deep
      | next =>
        refine .next run ?_
        by_cases done : o.callers.size ≤ depth
        · exact .here ⟨n, .here deep, run, done⟩
        · refine (ih o run (Nat.lt_of_not_le done)).mono ?_ fun _ _ _ => trivial
          rintro r ⟨q, during, last, back⟩
          exact ⟨q, .step deep run during, last, back⟩

theorem Main.calls (main : m.Main pool code a (h + (given + 1))) (item : code.itemAt a = .instruction ⟨.call, [given]⟩) :
    m.Passes pool code (a + OpCode.call.width) (h + 1) := by
  have enough : given + 1 ≤ m.stack.size := by rw [main.size]; omega
  have here : m.stack[m.stack.size - (given + 1)]? = some m.stack[m.stack.size - (given + 1)] :=
    Array.getElem?_eq_getElem (by omega)
  generalize m.stack[m.stack.size - (given + 1)] = callee at here
  refine main.steps item (by simp) (by simp) fun n run => ?_
  have done := run
  rw [step_at (main.item item), main.next] at done
  obtain ⟨u, o, called, ended⟩ := bind_ok.mp done
  cases ended
  have called := (Running.call_run (m := goto m (a + OpCode.call.width)) enough here).symm.trans called
  have comes {f : Routine} {k : Nat} (callable : callee.callee? = some (f, k)) :
      n.Passes pool code (a + OpCode.call.width) (h + 1) := by
    have item := main.item item
    have sound := main.sound.after_step run
    obtain ⟨⟨callers, -⟩, -⟩ := call_enters main.sound item here callable run
    have deep : m.callers.size + 1 ≤ n.callers.size := Nat.le_of_eq (by rw [callers, Array.size_push])
    have stops : n.Stops := (main.sound.stops main.callers).inv run
    refine (stops.comes_back deep).mono ?_ fun _ _ _ => trivial
    rintro r ⟨q, during, last, back⟩
    obtain ⟨v, -, stack, callers, frame⟩ := main.sound.call_neutral item here callable run during last back
    refine .inl ⟨(during.sound sound).after_step last, callers.trans main.callers, ?_, ?_, ?_, ?_⟩
    · rw [frame]
      exact main.code
    · rw [frame]
      exact main.base
    · rw [frame, main.next]
    · rw [stack, Array.size_push, Array.size_shrink, main.size]
      omega
  cases callee with
  | closure routine captured => exact comes rfl
  | function routine => exact comes rfl
  | builtin b =>
    have low := (Running.native_acts b given).low called h (Nat.le_of_eq main.size)
    have base : m.frame.base ≤ h := by rw [main.base]; exact Nat.zero_le h
    have high := ((Running.native_spares b given _ _ _ called).2 h base (Nat.le_of_eq main.size.symm)).1
    exact .here (.inl (main.moved run ((Running.native_acts b given).keeps called) (Nat.le_antisymm low high)))
  | _ => cases called

theorem Main.jumps (main : m.Main pool code a h) (item : code.itemAt a = .instruction ⟨.jump, [b]⟩) :
    m.Passes pool code b h := by
  refine main.steps item (by simp) (by simp) fun n run => .here (.inl ?_)
  have done := run
  rw [step_at (main.item item)] at done
  cases done
  exact main.moved run ⟨rfl, rfl, rfl⟩ main.size

theorem Main.chooses {goal : Machine → Prop} (main : m.Main pool code a (h + 1))
    (item : code.itemAt a = .instruction ⟨.jumpUnless, [b]⟩)
    (yes : ∀ n : Machine, n.Main pool code (a + OpCode.jumpUnless.width) h → n.Leads goal fun _ _ => True)
    (no : ∀ n : Machine, n.Main pool code b h → n.Leads goal fun _ _ => True) : m.Leads goal fun _ _ => True := by
  refine main.steps item (by simp) (by simp) fun n run => ?_
  have done := run
  rw [step_at (main.item item), main.next] at done
  have size : m.stack.pop.size = h := by rw [Array.size_pop, main.size, Nat.add_sub_cancel]
  obtain ⟨-, condition, -, equal⟩ := Running.jumpUnless_ok done
  split at equal
  · rw [equal] at run ⊢
    exact yes _ (main.moved run ⟨rfl, rfl, rfl⟩ size)
  · rw [equal] at run ⊢
    exact no _ (main.moved run ⟨rfl, rfl, rfl⟩ size)

theorem Passes.run {budget : Nat} (passes : m.Passes pool code a h) (run : m.run budget = (.halted, n))
    (stays : ¬ m.ReturnsFromMain) : ∃ count o, m.run count = (.unfinished, o) ∧ o.Main pool code a h ∧
      o.run budget = (.halted, n) ∧ ¬ o.ReturnsFromMain := by
  obtain ⟨count, ⟨o, reached, same⟩ | ⟨f, o, -, same⟩⟩ := Leads.run passes
  · have arrives : m.run count = (.unfinished, o) := same 0
    rcases reached with main | returns
    · refine ⟨count, o, arrives, main, ?_, ?_⟩
      · rw [← same, Nat.add_comm]
        exact run_longer run (by simp) count
      · rintro ⟨more, e, ran, returns⟩
        exact stays ⟨count + more, e, (same more).trans ran, returns⟩
    · exact absurd ⟨count, o, arrives, returns⟩ stays
  · have longer := run_longer run (by simp) count
    rw [Nat.add_comm, same] at longer
    cases longer

end Machine

theorem Symbol.reading_usage {symbol : Symbol} {k : Finished} (within : symbol.Within k) (outside : k.nested = false) :
    symbol.reading.usage? = some (0, 1) := by
  rw [Within] at within
  rw [reading]
  cases storage : symbol.storage with
  | itself =>
    rw [storage] at within
    rw [outside] at within
    cases within
  | _ => rfl

theorem Symbol.setting_usage (symbol : Symbol) : symbol.setting.usage? = some (1, 0) := by
  rw [setting]
  split <;> rfl

theorem Symbol.assigning_usage {symbol : Symbol} {i : Instruction} (assigning : symbol.assigning? = some i) :
    i.usage? = some (1, 0) := by
  rw [assigning?] at assigning
  split at assigning <;> cases assigning <;> rfl

theorem Layout.making_usage (index captured : Nat) : (making index captured).usage? = some (captured, 1) := by
  rw [making]
  split
  · rename_i captureless
    rw [captureless]
    rfl
  · rfl

theorem Layout.instruction_passes {pool : Array Value} {k : Finished} {p q : Point} {i : Instruction} {takes gives h : Nat}
    {m : Machine} (lies : Layout.instruction i k p q) (known : i.usage? = some (takes, gives))
    (main : m.Main pool k.code p.position (h + takes)) : m.Passes pool k.code q.position (h + gives) := by
  obtain ⟨item, rfl⟩ := lies
  exact main.along item known

-- Balanced code of the main program, by induction on the pieces that it is made of.
theorem Balanced.passes {pool : Array Value} {k : Finished} {p q : Point} {h g : Nat} {m : Machine}
    (balanced : Balanced k p h q g) (outside : k.nested = false) (main : m.Main pool k.code p.position h) :
    m.Passes pool k.code q.position g := by
  induction balanced generalizing m with
  | nothing => exact .here (.inl main)
  | seq _ _ first second => exact (first outside main).then fun o arrived => second outside arrived
  | @plain k p q i takes gives h effect lies =>
    obtain ⟨item, rfl⟩ := lies
    by_cases call : i.opcode = .call
    · obtain ⟨given, rfl, rfl, rfl⟩ := Instruction.effect_call effect call
      exact main.calls item
    · by_cases returns : i.opcode = .returnValue
      · refine .here (.inr ?_)
        simp [Machine.returnsNext, main.callers, main.item item, returns]
      · exact main.along item (Instruction.effect_usage effect call returns)
  | constant _ lies => exact Layout.instruction_passes lies.2 rfl main
  | resolve => exact .here (.inl main)
  | read lies => exact Layout.instruction_passes lies.2 (Symbol.reading_usage lies.1 outside) main
  | assign _ assigning _ lies => exact Layout.instruction_passes lies (Symbol.assigning_usage assigning) main
  | bind _ lies => exact Layout.instruction_passes lies.2 (Symbol.setting_usage _) main
  | bindEarly _ _ lies ih =>
    exact (ih outside main).then fun o arrived => Layout.instruction_passes lies.2 (Symbol.setting_usage _) arrived
  | choice _ skip _ leap _ tests takes skips =>
    obtain ⟨item, rfl⟩ := skip
    obtain ⟨item', rfl⟩ := leap
    refine (tests outside main).then fun o tested => tested.chooses item (fun n taken => ?_) fun n skipped => ?_
    · exact (takes outside taken).then fun r done => done.jumps item'
    · exact skips outside skipped
  | function _ _ _ _ _ _ _ _ _ _ _ _ _ making _ captures =>
    exact (captures outside main).then fun o arrived => Layout.instruction_passes making (Layout.making_usage _ _) arrived

end StackScript
