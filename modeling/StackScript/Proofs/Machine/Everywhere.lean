import StackScript.Machine.Request
import StackScript.Proofs.Machine.Spared

-- Where values come from: an instruction moves values, takes them apart and puts them together. A property of values that
-- goes with this holds of all values in a machine for as long as it runs, if it holds of the closures that are made.
namespace StackScript

-- A function that is running counts as a closure over what it has captured.
structure Machine.All (P : Value → Prop) (m : Machine) : Prop where
  constants : ∀ v ∈ m.constants, P v
  globals : ∀ v ∈ m.globals, P v
  stack : ∀ v ∈ m.stack, P v
  frame : P (.closure m.frame.routine m.frame.captured)
  callers : ∀ f ∈ m.callers, P (.closure f.routine f.captured)

def Machine.makes? (m : Machine) : Option Value :=
  match m.frame.routine.code.itemAt m.frame.next with
  | .instruction ⟨.closure, operands⟩ =>
    match m.constants[operands[0]?.getD 0]?, m.top? (operands[1]?.getD 0) with
    | some (Value.function routine), some captured => some (.closure routine captured)
    | _, _ => none
  | _ => none

namespace Machine

variable {m : Machine} {v : Value} {count : Nat} {vs : List Value}

theorem top_some (top : m.top? count = some vs) : vs.length = count ∧ ∀ v ∈ vs, v ∈ m.stack := by
  unfold top? at top
  split at top
  · cases top
    constructor
    · simp
      omega
    · intro v present
      obtain ⟨i, _, rfl⟩ := Array.mem_extract_iff_getElem.mp (Array.mem_toList_iff.mp present)
      exact Array.getElem_mem _
  · cases top

theorem makes_some (makes : m.makes? = some v) : ∃ operands routine captured,
    m.frame.routine.code.itemAt m.frame.next = .instruction ⟨.closure, operands⟩ ∧
      m.constants[operands[0]?.getD 0]? = some (.function routine) ∧ m.top? (operands[1]?.getD 0) = some captured ∧
      v = .closure routine captured := by
  unfold makes? at makes
  split at makes
  · rename_i operands item
    split at makes
    · rename_i routine captured present top
      cases makes
      exact ⟨operands, routine, captured, item, present, top, rfl⟩
    · cases makes
  · cases makes

end Machine

-- A property that can be followed through a run. Calling a function makes a closure that has captured nothing.
structure Value.Flows (P : Value → Prop) : Prop extends Hereditary P where
  plain : ∀ {r : Routine}, P (.function r) → P (.closure r [])

namespace Running

variable {α β : Type} {P : Value → Prop} {Q : α → Prop} {R : β → Prop} {m n : Machine}

-- A computation that leaves the property everywhere where it finds it everywhere.
def Conserves (P : Value → Prop) (x : Running α) (Q : α → Prop) : Prop :=
  ∀ m v n, m.All P → x m = .ok v n → n.All P ∧ Q v

theorem conserves_bind {x : Running α} {f : α → Running β} (first : Conserves P x Q)
    (next : ∀ v, Q v → Conserves P (f v) R) : Conserves P (x >>= f) R := by
  intro m v n all run
  obtain ⟨u, o, one, two⟩ := bind_ok.mp run
  obtain ⟨middle, known⟩ := first m u o all one
  exact next u known o v n middle two

theorem conserves_pure {v : α} (known : Q v) : Conserves P (pure v) Q := by
  intro m u n all run
  cases run
  exact ⟨all, known⟩

theorem conserves_fail (f : Fault) : Conserves P (fail f) Q := by
  intro m v n all run
  cases run

theorem push_conserves {v : Value} (holds : P v) : Conserves P (push v) fun _ => True := by
  intro m u n all run
  cases push_ok run
  refine ⟨⟨all.constants, all.globals, fun w present => ?_, all.frame, all.callers⟩, trivial⟩
  rcases Array.mem_push.mp present with old | rfl
  · exact all.stack w old
  · exact holds

theorem pop_conserves : Conserves P pop P := by
  intro m v n all run
  obtain ⟨top, rfl⟩ := pop_ok run
  have rest (w : Value) (present : w ∈ m.stack.pop) : P w := all.stack w (mem_of_mem_pop present)
  exact ⟨⟨all.constants, all.globals, rest, all.frame, all.callers⟩, all.stack v (Array.mem_of_back? top)⟩

theorem popMany_conserves (k : Nat) : Conserves P (popMany k) fun vs => ∀ v ∈ vs, P v := by
  intro m vs n all run
  unfold popMany at run
  split at run
  · cases run
    have rest (w : Value) (present : w ∈ m.stack.shrink (m.stack.size - k)) : P w :=
      all.stack w (mem_of_mem_shrink present)
    refine ⟨⟨all.constants, all.globals, rest, all.frame, all.callers⟩, fun v present => ?_⟩
    obtain ⟨i, _, rfl⟩ := Array.mem_extract_iff_getElem.mp (Array.mem_toList_iff.mp present)
    exact all.stack _ (Array.getElem_mem _)
  · cases run

theorem drop_conserves : Conserves P drop fun _ => True := by
  intro m u n all run
  cases run
  have rest (w : Value) (present : w ∈ m.stack.pop) : P w := all.stack w (mem_of_mem_pop present)
  exact ⟨⟨all.constants, all.globals, rest, all.frame, all.callers⟩, trivial⟩

theorem jump_conserves (target : Nat) : Conserves P (jump target) fun _ => True := by
  intro m u n all run
  cases run
  exact ⟨⟨all.constants, all.globals, all.stack, all.frame, all.callers⟩, trivial⟩

theorem print_conserves (lines : List String) :
    Conserves P (modify fun m => { m with output := m.output ++ lines } : Running PUnit) fun _ => True := by
  intro m u n all run
  cases run
  exact ⟨⟨all.constants, all.globals, all.stack, all.frame, all.callers⟩, trivial⟩

theorem constant_conserves (op : OpCode) (i : Nat) : Conserves P (constant op i) P := by
  intro m v n all run
  unfold constant at run
  split at run
  · rename_i found
    cases run
    exact ⟨all, all.constants v (Array.mem_of_getElem? found)⟩
  · cases run

theorem getLocal_conserves (op : OpCode) (i : Nat) : Conserves P (getLocal op i) P := by
  intro m v n all run
  unfold getLocal at run
  split at run
  · rename_i found
    cases run
    exact ⟨all, all.stack v (Array.mem_of_getElem? found)⟩
  · cases run

theorem setLocal_conserves (op : OpCode) (i : Nat) {v : Value} (holds : P v) :
    Conserves P (setLocal op i v) fun _ => True := by
  intro m u n all run
  unfold setLocal at run
  split at run
  · cases run
    refine ⟨⟨all.constants, all.globals, fun w present => ?_, all.frame, all.callers⟩, trivial⟩
    rcases Array.mem_or_eq_of_mem_setIfInBounds present with old | rfl
    · exact all.stack w old
    · exact holds
  · cases run

theorem ofExcept_conserves {r : Except Fault α} (gives : ∀ v, r = .ok v → Q v) : Conserves P (ofExcept r) Q := by
  cases r with
  | ok v => exact conserves_pure (gives v rfl)
  | error f => exact conserves_fail f

theorem pushed_conserves {v : Value} (holds : P v) : Conserves P (do push v; return Signal.next) fun _ => True :=
  conserves_bind (push_conserves holds) fun _ _ => conserves_pure trivial

theorem result_conserves {r : Except Fault Value} (gives : Value.Gives P r) :
    Conserves P (do push (← ofExcept r); return Signal.next) fun _ => True := by
  refine conserves_bind (Q := P) (ofExcept_conserves fun _ ok => ?_) fun _ holds => pushed_conserves holds
  rw [ok] at gives
  exact gives

theorem pushes_conserves {x : Running Value} (conserves : Conserves P x P) :
    Conserves P (do push (← x); return Signal.next) fun _ => True :=
  conserves_bind conserves fun _ holds => pushed_conserves holds

theorem writes_conserves {f : Value → Running Unit} (conserves : ∀ v, P v → Conserves P (f v) fun _ => True) :
    Conserves P (do let v ← pop; f v; return Signal.next) fun _ => True :=
  conserves_bind pop_conserves fun v holds => conserves_bind (conserves v holds) fun _ _ => conserves_pure trivial

theorem leave_conserves {v : Value} (holds : P v) : Conserves P (leave v) fun _ => True := by
  intro m signal n all run
  by_cases outermost : m.callers.size = 0
  · have main := Array.eq_empty_of_size_eq_zero outermost
    simp only [leave, main] at run
    cases run
    exact ⟨⟨all.constants, all.globals, all.stack, all.frame, main ▸ all.callers⟩, trivial⟩
  · obtain ⟨callers, caller, called⟩ := Array.eq_push_of_size_ne_zero outermost
    rw [leave_run v called] at run
    refine pushed_conserves holds _ _ _ ?_ run
    refine ⟨all.constants, all.globals, fun w present => all.stack w (mem_of_mem_shrink present), ?_, fun f present => ?_⟩
    · exact all.callers caller (by rw [called]; simp)
    · exact all.callers f (by rw [called]; exact Array.mem_push.mpr (.inl present))

section
variable (hereditary : Value.Hereditary P)
include hereditary

theorem global_conserves (i : Nat) : Conserves P (global i) P := by
  intro m v n all run
  cases run
  refine ⟨all, ?_⟩
  cases found : m.globals[i]? with
  | none => exact hereditary.null
  | some v => exact all.globals v (Array.mem_of_getElem? found)

theorem setGlobal_conserves (op : OpCode) (i : Nat) {v : Value} (holds : P v) :
    Conserves P (setGlobal op i v) fun _ => True := by
  intro m u n all run
  unfold setGlobal at run
  split at run
  · cases run
    refine ⟨⟨all.constants, fun w present => ?_, all.stack, all.frame, all.callers⟩, trivial⟩
    rcases Array.mem_or_eq_of_mem_setIfInBounds present with old | rfl
    · rw [← Array.mem_toList_iff, Array.toList_appendList] at old
      rcases List.mem_append.mp old with before | added
      · exact all.globals w (Array.mem_toList_iff.mp before)
      · rw [List.eq_of_mem_replicate added]
        exact hereditary.null
    · exact holds
  · cases run

theorem captured_conserves (op : OpCode) (i : Nat) : Conserves P (captured op i) P := by
  intro m v n all run
  unfold captured at run
  split at run
  · rename_i found
    cases run
    exact ⟨all, hereditary.inside all.frame v (List.mem_of_getElem? found)⟩
  · cases run

theorem invoke_conserves {routine : Routine} {captured : List Value} (given : Nat) (holds : P (.closure routine captured)) :
    Conserves P (invoke routine captured given) fun _ => True := by
  intro m u n all run
  obtain ⟨-, -, -, rfl⟩ := invoke_ok run
  refine ⟨⟨all.constants, all.globals, fun w present => ?_, holds, fun f present => ?_⟩, trivial⟩
  · rcases Machine.entering_mem present with old | rfl
    · exact all.stack w old
    · exact hereditary.null
  · rcases Array.mem_push.mp present with old | rfl
    · exact all.callers f old
    · exact all.frame

theorem native_conserves (b : Builtin) (given : Nat) : Conserves P (callOf given (.builtin b)) fun _ => True := by
  refine conserves_bind (popMany_conserves given) fun args each => conserves_bind pop_conserves fun _ _ => ?_
  have gives := Operation.call_gives hereditary (b := b) each
  refine conserves_bind (Q := fun r => P r.1) (ofExcept_conserves fun r ok => ?_) fun r holds =>
    conserves_bind (print_conserves r.2) fun _ _ => push_conserves holds
  rw [ok] at gives
  exact gives

end

theorem call_conserves (flows : Value.Flows P) (given : Nat) : Conserves P (call given) fun _ => True := by
  intro m u n all run
  by_cases enough : given + 1 ≤ m.stack.size
  · have below : m.stack.size - (given + 1) < m.stack.size := by omega
    have holds := all.stack _ (Array.getElem_mem below)
    have here := Array.getElem?_eq_getElem below
    generalize m.stack[m.stack.size - (given + 1)] = callee at holds here
    rw [call_run enough here] at run
    cases callee with
    | closure routine captured => exact invoke_conserves flows.toHereditary given holds m u n all run
    | function routine => exact invoke_conserves flows.toHereditary given (flows.plain holds) m u n all run
    | builtin b => exact native_conserves flows.toHereditary b given m u n all run
    | _ => cases run
  · rw [call_short (Nat.lt_of_not_le enough)] at run
    cases run

theorem execute_conserves (flows : Value.Flows P) {op : OpCode} (a b : Nat) (other : op ≠ .closure) :
    Conserves P (execute op a b) fun _ => True := by
  have hereditary := flows.toHereditary
  have simple {v : Value} (noFunction : v.callee? = none) (noParts : v.parts = []) :
      Conserves P (do push v; return Signal.next) fun _ => True := pushed_conserves (hereditary.simple noFunction noParts)
  cases op
  case closure => contradiction
  case constant => exact pushes_conserves (constant_conserves _ a)
  case pop => exact conserves_bind drop_conserves fun _ _ => conserves_pure trivial
  case add | sub | mul | div | equal | notEqual | greater | atLeast =>
    exact conserves_bind pop_conserves fun rhs _ => conserves_bind pop_conserves fun lhs _ =>
      result_conserves (hereditary.plain (Operation.binary_plain _ lhs rhs))
  case minus | bang =>
    exact conserves_bind pop_conserves fun operand _ => result_conserves (hereditary.plain (Operation.unary_plain _ operand))
  case pushTrue | pushFalse | pushNull => exact simple rfl rfl
  case jump => exact conserves_bind (jump_conserves a) fun _ _ => conserves_pure trivial
  case jumpUnless =>
    refine conserves_bind pop_conserves fun condition _ => ?_
    split
    · exact conserves_bind (jump_conserves a) fun _ _ => conserves_pure trivial
    · exact conserves_pure trivial
  case setGlobal | assignGlobal => exact writes_conserves fun v holds => setGlobal_conserves hereditary _ a holds
  case getGlobal => exact pushes_conserves (global_conserves hereditary a)
  case setLocal | assignLocal => exact writes_conserves fun v holds => setLocal_conserves _ a holds
  case getLocal => exact pushes_conserves (getLocal_conserves _ a)
  case array =>
    exact conserves_bind (popMany_conserves a) fun items each => pushed_conserves (hereditary.outer rfl each)
  case hash =>
    exact conserves_bind (popMany_conserves a) fun items each => result_conserves (pairUp_gives hereditary each (by simp))
  case index =>
    exact conserves_bind pop_conserves fun position _ => conserves_bind pop_conserves fun target holds =>
      result_conserves (Operation.index_gives hereditary holds)
  case call => exact conserves_bind (call_conserves flows a) fun _ _ => conserves_pure trivial
  case returnValue => exact conserves_bind pop_conserves fun v holds => leave_conserves holds
  case returnNull => exact leave_conserves hereditary.null
  case getBuiltin =>
    unfold execute
    cases Builtin.ofIndex? a with
    | some builtin => exact simple rfl rfl
    | none => exact conserves_fail _
  case getFree => exact pushes_conserves (captured_conserves hereditary _ a)
  case currentClosure =>
    intro m signal n all run
    exact pushed_conserves all.frame m signal n all run

end Running

namespace Machine

open Running (step goto bind_ok)

variable {P : Value → Prop} {m n : Machine} {signal : Signal} {operands : List Nat}

-- The instruction that makes a closure puts it in the place of what it has captured.
theorem step_closure (item : m.frame.routine.code.itemAt m.frame.next = .instruction ⟨.closure, operands⟩)
    (run : step m = .ok signal n) : ∃ routine captured, m.makes? = some (.closure routine captured) ∧
      m.top? (operands[1]?.getD 0) = some captured ∧ signal = .next ∧
      n = { goto m (m.frame.next + OpCode.closure.width) with
        stack := (m.stack.shrink (m.stack.size - operands[1]?.getD 0)).push (.closure routine captured) } := by
  rw [step_at item] at run
  obtain ⟨v, o, loaded, run⟩ := bind_ok.mp run
  unfold Running.constant at loaded
  split at loaded
  · rename_i present
    cases loaded
    cases v with
    | function routine =>
      obtain ⟨captured, o, popped, run⟩ := bind_ok.mp run
      unfold Running.popMany at popped
      split at popped
      · rename_i enough
        cases popped
        obtain ⟨u, o, pushed, ended⟩ := bind_ok.mp run
        cases ended
        cases Running.push_ok pushed
        have top : m.top? (operands[1]?.getD 0) =
            some (m.stack.extract (m.stack.size - operands[1]?.getD 0) m.stack.size).toList := if_pos enough
        have present : m.constants[operands[0]?.getD 0]? = some (.function routine) := present
        refine ⟨routine, _, ?_, top, rfl, rfl⟩
        simp only [makes?, item, present, top]
      · cases popped
    | _ => cases run
  · cases loaded

theorem All.step (all : m.All P) (flows : Value.Flows P) (made : ∀ v, m.makes? = some v → P v)
    (run : step m = .ok signal n) : n.All P := by
  rcases Running.step_ok run with ⟨-, -, -, rfl⟩ | ⟨-, -, left⟩ | ⟨i, item, executed⟩
  · exact all
  · exact (Running.leave_conserves flows.null m signal n all left).1
  · have there (t : Nat) : (goto m t).All P := ⟨all.constants, all.globals, all.stack, all.frame, all.callers⟩
    by_cases closure : i.opcode = .closure
    · obtain ⟨op, operands⟩ := i
      cases closure
      obtain ⟨routine, captured, makes, -, -, rfl⟩ := step_closure item run
      refine ⟨all.constants, all.globals, fun w present => ?_, all.frame, all.callers⟩
      rcases Array.mem_push.mp present with old | rfl
      · exact all.stack w (Running.mem_of_mem_shrink old)
      · exact made _ makes
    · exact (Running.execute_conserves flows _ _ closure _ signal n (there _) executed).1

end Machine
end StackScript
