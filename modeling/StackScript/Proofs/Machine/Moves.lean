import StackScript.Proofs.Machine.Acting
import StackScript.Proofs.Meaning.Calls

-- Where a step leads: on within the running function, into one that it calls, or back to the one that called it.
namespace StackScript

-- An instruction at `a` is followed by what stands at `b`, as long as the function runs.
def Instruction.GoesOn (i : Instruction) (a b : Nat) : Prop :=
  match i.opcode with
  | .jump => b = i.operands[0]?.getD 0
  | .jumpUnless => b = i.operands[0]?.getD 0 ∨ b = a + i.opcode.width
  | .returnValue | .returnNull => False
  | _ => b = a + i.opcode.width

def Code.Follows (code : Code) (a b : Nat) : Prop := ∃ i, code.itemAt a = .instruction i ∧ i.GoesOn a b

inductive Machine.Moves (m n : Machine) : Prop where
  | along {next : Nat} : m.frame.routine.code.Follows m.frame.next next → n.callers = m.callers →
      n.frame = { m.frame with next } → Moves m n
  | into {i : Instruction} : m.frame.routine.code.itemAt m.frame.next = .instruction i → i.opcode = .call →
      m.callers.size + 1 < frameCapacity →
      n.callers = m.callers.push { m.frame with next := m.frame.next + i.opcode.width } → n.frame.next = 0 → Moves m n
  | back : m.callers = n.callers.push n.frame → n.stack.size ≤ m.frame.base - 1 + 1 → Moves m n

namespace Running

open Machine (Moves)

variable {m n o : Machine} {i : Instruction} {a b : Nat}

theorem bind_ok {α β : Type} {x : Running α} {f : α → Running β} {v : β} :
    (x >>= f) m = .ok v n ↔ ∃ u o, x m = .ok u o ∧ f u o = .ok v n := by
  simp only [bind, EStateM.bind]
  cases x m with
  | ok u o =>
    constructor
    · intro next
      exact ⟨u, o, rfl, next⟩
    · rintro ⟨_, _, equal, next⟩
      cases equal
      exact next
  | error f o => simp

theorem pop_ok {v : Value} (run : pop m = .ok v n) : m.stack.back? = some v ∧ n = { m with stack := m.stack.pop } := by
  unfold pop at run
  split at run
  · rename_i top
    cases run
    exact ⟨top, rfl⟩
  · cases run

theorem jumpUnless_ok {target y : Nat} {signal : Signal} (run : execute .jumpUnless target y m = .ok signal n) :
    signal = .next ∧ ∃ condition, m.stack.back? = some condition ∧
      n = if condition.truthy then { m with stack := m.stack.pop } else goto { m with stack := m.stack.pop } target := by
  obtain ⟨condition, o, popped, run⟩ := bind_ok.mp run
  obtain ⟨top, rfl⟩ := pop_ok popped
  by_cases truthy : condition.truthy
  · simp only [truthy, Bool.not_true, Bool.false_eq_true, if_false] at run
    cases run
    exact ⟨rfl, condition, top, by rw [if_pos truthy]⟩
  · simp only [truthy, Bool.not_false, if_true] at run
    cases run
    exact ⟨rfl, condition, top, by rw [if_neg truthy]; rfl⟩

theorem Acts.keeps {α : Type} {x : Running α} {v : α} (acts : Acts a b x) (run : x m = .ok v n) : m.Keeps n := by
  have one := acts #[] m m (.refl m)
  rw [run] at one
  exact one.1

theorem Acts.low {α : Type} {x : Running α} {v : α} (acts : Acts a b x) (run : x m = .ok v n) (h : Nat)
    (enough : m.stack.size ≤ h + a) : n.stack.size ≤ h + b := by
  have one := acts #[] m m (.refl m)
  rw [run] at one
  exact one.2.1 h enough

theorem execute_usage (op : OpCode) (x y : Nat) (straight : op ≠ .jump) (sure : op ≠ .jumpUnless) (stays : op ≠ .call)
    (value : op ≠ .returnValue) (null : op ≠ .returnNull) (other : op ≠ .currentClosure) :
    ∃ a b, usage op x y = some (a, b) := by
  cases op <;> first | exact ⟨_, _, rfl⟩ | contradiction

theorem invoke_moves {routine : Routine} {captured : List Value} {given : Nat} {u : Unit}
    (run : invoke routine captured given m = .ok u n) : m.callers.size + 1 < Machine.frameCapacity ∧
      n.callers = m.callers.push m.frame ∧ n.frame = ⟨routine, captured, 0, m.stack.size - given⟩ := by
  obtain ⟨-, shallow, -, rfl⟩ := invoke_ok run
  rw [Machine.frames, Array.size_push] at shallow
  exact ⟨shallow, rfl, rfl⟩

theorem leave_moves {v : Value} (run : leave v m = .ok .next n) :
    m.callers = n.callers.push n.frame ∧ n.stack.size ≤ m.frame.base - 1 + 1 := by
  by_cases outermost : m.callers.size = 0
  · simp [leave, Array.eq_empty_of_size_eq_zero outermost] at run
  · obtain ⟨callers, caller, called⟩ := Array.eq_push_of_size_ne_zero outermost
    rw [leave_run v called] at run
    obtain ⟨u, o, pushed, ended⟩ := bind_ok.mp run
    cases ended
    have keeps := (push_acts v).keeps pushed
    rw [keeps.callers, keeps.frame]
    refine ⟨called, (push_acts v).low pushed (m.frame.base - 1) ?_⟩
    rw [Array.size_shrink]
    omega

theorem native_acts (b : Builtin) (given : Nat) : Acts (given + 1) 1 (callOf given (.builtin b)) := by
  rw [Nat.add_comm]
  refine acts_bind (acts_above (popMany_acts given) 1) fun args => acts_bind pop_acts fun _ => ?_
  exact acts_bind (ofExcept_acts _) fun result => acts_bind (print_acts _) fun _ => push_acts _

theorem call_short {given : Nat} (few : m.stack.size < given + 1) : call given m = .error (.fault .stackUnderflow) m := by
  simp only [call, bind, EStateM.bind, get_run, few, if_true]
  rfl

theorem call_ways {given : Nat} {u : Unit} (run : call given m = .ok u n) :
    (m.Keeps n ∧ ∀ h, m.stack.size ≤ h + (given + 1) → n.stack.size ≤ h + 1) ∨
      (m.callers.size + 1 < Machine.frameCapacity ∧ n.callers = m.callers.push m.frame ∧ n.frame.next = 0 ∧
        0 < n.frame.base ∧ n.frame.base + given = m.stack.size) := by
  by_cases enough : given + 1 ≤ m.stack.size
  · have here : m.stack[m.stack.size - (given + 1)]? = some m.stack[m.stack.size - (given + 1)] :=
      Array.getElem?_eq_getElem (by omega)
    generalize m.stack[m.stack.size - (given + 1)] = v at here
    rw [call_run enough here] at run
    have invoked {routine : Routine} {captured : List Value} (run : invoke routine captured given m = .ok u n) :
        m.callers.size + 1 < Machine.frameCapacity ∧ n.callers = m.callers.push m.frame ∧ n.frame.next = 0 ∧
          0 < n.frame.base ∧ n.frame.base + given = m.stack.size := by
      obtain ⟨room, callers, frame⟩ := invoke_moves run
      have base : n.frame.base = m.stack.size - given := by rw [frame]
      exact ⟨room, callers, by rw [frame], by omega, by omega⟩
    cases v with
    | closure routine captured => exact .inr (invoked run)
    | function routine => exact .inr (invoked run)
    | builtin b => exact .inl ⟨(native_acts b _).keeps run, fun h => (native_acts b _).low run h⟩
    | _ => cases run
  · rw [call_short (by omega)] at run
    cases run

section
variable {byte : UInt8} {op : OpCode}

theorem step_unknown (item : m.frame.routine.code.itemAt m.frame.next = .unknown byte) :
    step m = .error (.fault (.unknownOpCode byte m.frame.next)) m := by
  simp only [step, bind, EStateM.bind, get_run, item]
  rfl

theorem step_truncated (item : m.frame.routine.code.itemAt m.frame.next = .truncated op) :
    step m = .error (.fault (.truncatedInstruction op m.frame.next)) m := by
  simp only [step, bind, EStateM.bind, get_run, item]
  rfl

theorem step_back (item : m.frame.routine.code.itemAt m.frame.next = .nothing) (called : m.callers ≠ #[]) :
    step m = leave .null m := by
  simp [step, bind, EStateM.bind, get_run, item, called]

theorem step_end (item : m.frame.routine.code.itemAt m.frame.next = .nothing) (main : m.callers = #[]) :
    step m = .ok .halt m := by
  simp [step, bind, EStateM.bind, get_run, pure, EStateM.pure, item, main]

end

theorem step_ok {signal : Signal} (run : step m = .ok signal n) :
    (m.frame.routine.code.itemAt m.frame.next = .nothing ∧ m.callers = #[] ∧ signal = .halt ∧ n = m) ∨
      (m.frame.routine.code.itemAt m.frame.next = .nothing ∧ m.callers ≠ #[] ∧ leave .null m = .ok signal n) ∨
      ∃ i, m.frame.routine.code.itemAt m.frame.next = .instruction i ∧
        execute i.opcode (i.operands[0]?.getD 0) (i.operands[1]?.getD 0) (goto m (m.frame.next + i.opcode.width)) =
          .ok signal n := by
  cases item : m.frame.routine.code.itemAt m.frame.next with
  | nothing =>
    by_cases main : m.callers = #[]
    · rw [step_end item main] at run
      cases run
      exact .inl ⟨rfl, main, rfl, rfl⟩
    · rw [step_back item main] at run
      exact .inr (.inl ⟨rfl, main, run⟩)
  | unknown byte =>
    rw [step_unknown item] at run
    cases run
  | truncated op =>
    rw [step_truncated item] at run
    cases run
  | instruction i =>
    rw [Machine.step_at item] at run
    exact .inr (.inr ⟨i, rfl, run⟩)

theorem execute_moves (item : m.frame.routine.code.itemAt m.frame.next = .instruction i)
    (run : execute i.opcode (i.operands[0]?.getD 0) (i.operands[1]?.getD 0) (goto m (m.frame.next + i.opcode.width)) =
      .ok .next n) : m.Moves n := by
  have along {next : Nat} (goes : i.GoesOn m.frame.next next) (callers : n.callers = m.callers)
      (frame : n.frame = { m.frame with next }) : m.Moves n := .along ⟨i, item, goes⟩ callers frame
  cases op : i.opcode with
  | jump =>
    rw [op] at run
    cases run
    exact along (by simp only [Instruction.GoesOn, op]) rfl rfl
  | jumpUnless =>
    have goes {next : Nat} (here : next = i.operands[0]?.getD 0 ∨ next = m.frame.next + i.opcode.width) :
        i.GoesOn m.frame.next next := by
      simp only [Instruction.GoesOn, op]
      rwa [op] at here
    have behind := goes (.inr rfl)
    rw [op] at run behind
    obtain ⟨-, condition, -, rfl⟩ := jumpUnless_ok run
    split
    · exact .along ⟨i, item, behind⟩ rfl rfl
    · exact .along ⟨i, item, goes (.inl rfl)⟩ rfl rfl
  | call =>
    rw [op] at run
    obtain ⟨u, o, called, ended⟩ := bind_ok.mp run
    cases ended
    rcases call_ways called with ⟨keeps, -⟩ | ⟨room, callers, next, -, -⟩
    · exact along (by simp only [Instruction.GoesOn, op]) keeps.callers keeps.frame
    · rw [← op] at callers
      exact .into item op room callers next
  | returnValue =>
    rw [op] at run
    obtain ⟨v, o, popped, run⟩ := bind_ok.mp run
    have keeps := pop_acts.keeps popped
    obtain ⟨callers, size⟩ := leave_moves run
    rw [keeps.callers] at callers
    rw [keeps.frame] at size
    exact .back callers size
  | returnNull =>
    rw [op] at run
    obtain ⟨callers, size⟩ := leave_moves run
    exact .back callers size
  | currentClosure =>
    rw [op] at run
    obtain ⟨_, _, got, run⟩ := bind_ok.mp run
    cases got
    obtain ⟨u, o, pushed, ended⟩ := bind_ok.mp run
    cases ended
    have keeps := (push_acts _).keeps pushed
    rw [← op] at keeps
    exact along (by simp only [Instruction.GoesOn, op]) keeps.callers keeps.frame
  | _ =>
    obtain ⟨a, b, known⟩ := execute_usage i.opcode (i.operands[0]?.getD 0) (i.operands[1]?.getD 0) (by simp [op])
      (by simp [op]) (by simp [op]) (by simp [op]) (by simp [op]) (by simp [op])
    have keeps := (execute_acts known).keeps run
    exact along (by simp only [Instruction.GoesOn, op]) keeps.callers keeps.frame

-- A step that goes on leads to one of three places.
theorem step_moves (run : step m = .ok .next n) : m.Moves n := by
  rcases step_ok run with ⟨-, -, ended, -⟩ | ⟨-, -, left⟩ | ⟨i, item, run⟩
  · cases ended
  · obtain ⟨callers, size⟩ := leave_moves left
    exact .back callers size
  · exact execute_moves item run

def Goes (x : Running Signal) : Prop := ∀ m n, x m ≠ .ok .halt n

theorem goes_bind {α : Type} {x : Running α} {f : α → Running Signal} (rest : ∀ v, Goes (f v)) : Goes (x >>= f) := by
  intro m n run
  obtain ⟨v, o, -, next⟩ := bind_ok.mp run
  exact rest v o n next

theorem goes_next : Goes (pure Signal.next) := by
  intro m n run
  cases run

theorem goes_fail (f : Fault) : Goes (fail f) := by
  intro m n run
  cases run

theorem goes_push {x : Running Value} : Goes (do push (← x); return Signal.next) :=
  goes_bind fun _ => goes_bind fun _ => goes_next

theorem execute_goes {op : OpCode} (x y : Nat) (value : op ≠ .returnValue) (null : op ≠ .returnNull) :
    Goes (execute op x y) := by
  cases op
  case returnValue | returnNull => contradiction
  case constant | getGlobal | getLocal | getFree => exact goes_push
  case pop | jump | call | pushTrue | pushFalse | pushNull => exact goes_bind fun _ => goes_next
  case setGlobal | assignGlobal | setLocal | assignLocal | array | currentClosure =>
    exact goes_bind fun _ => goes_bind fun _ => goes_next
  case minus | bang | hash => exact goes_bind fun _ => goes_push
  case add | sub | mul | div | equal | notEqual | greater | atLeast | index =>
    exact goes_bind fun _ => goes_bind fun _ => goes_push
  case jumpUnless =>
    refine goes_bind fun condition => ?_
    split
    · exact goes_bind fun _ => goes_next
    · exact goes_next
  case getBuiltin =>
    unfold execute
    cases Builtin.ofIndex? x with
    | some b => exact goes_bind fun _ => goes_next
    | none => exact goes_fail _
  case closure =>
    refine goes_bind fun v => ?_
    cases v with
    | function routine => exact goes_bind fun _ => goes_bind fun _ => goes_next
    | _ => exact goes_fail _

theorem leave_halts {v : Value} (run : leave v m = .ok .halt n) : m.callers = #[] := by
  by_cases outermost : m.callers.size = 0
  · exact Array.eq_empty_of_size_eq_zero outermost
  · obtain ⟨callers, caller, called⟩ := Array.eq_push_of_size_ne_zero outermost
    rw [leave_run v called] at run
    exact absurd run (goes_bind (fun _ => goes_next) _ _)

theorem step_halts (run : step m = .ok .halt n) : m.callers = #[] ∧
    ((m.frame.routine.code.itemAt m.frame.next = .nothing ∧ n = m) ∨
      ∃ i, m.frame.routine.code.itemAt m.frame.next = .instruction i ∧
        (i.opcode = .returnValue ∨ i.opcode = .returnNull)) := by
  rcases step_ok run with ⟨item, main, -, same⟩ | ⟨-, called, left⟩ | ⟨i, item, run⟩
  · exact ⟨main, .inl ⟨item, same⟩⟩
  · exact absurd (leave_halts left) called
  · by_cases returns : i.opcode = .returnValue ∨ i.opcode = .returnNull
    · refine ⟨?_, .inr ⟨i, item, returns⟩⟩
      rcases returns with op | op <;> rw [op] at run
      · obtain ⟨v, o, popped, run⟩ := bind_ok.mp run
        have keeps := pop_acts.keeps popped
        exact keeps.callers.symm.trans (leave_halts run)
      · exact leave_halts (m := goto m (m.frame.next + OpCode.returnNull.width)) run
    · obtain ⟨value, null⟩ := not_or.mp returns
      exact absurd run (execute_goes _ _ value null _ _)

end Running
end StackScript
