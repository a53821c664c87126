import StackScript.Proofs.Machine.Moves
import StackScript.Proofs.Machine.Reserving

-- A call of a function as a whole: when it fails, and what it leaves of the stack where it does not.
namespace StackScript

-- The function that a value starts where it is called, and what that has captured.
def Value.starts? : Value → Option (Routine × List Value)
  | .function routine => some (routine, [])
  | .closure routine captured => some (routine, captured)
  | _ => none

namespace Machine

open Running

variable {m n : Machine} {routine : Routine} {captured : List Value} {given : Nat}

def callee? (m : Machine) (given : Nat) : Option (Routine × List Value) :=
  if given + 1 ≤ m.stack.size then m.stack[m.stack.size - (given + 1)]?.bind Value.starts? else none

-- What becomes of a call. It stops with everything as it was, or the function begins.
inductive Invokes (m : Machine) (routine : Routine) (captured : List Value) (given : Nat) :
    EStateM.Result Stop Machine Signal → Prop where
  | mismatched : given ≠ routine.parameters →
      Invokes m routine captured given (.error (.fault (.wrongArgumentCount routine.parameters given)) m)
  | deep : given = routine.parameters → frameCapacity ≤ m.frames.size →
      Invokes m routine captured given (.error (.fault .stackOverflow) m)
  | full : given = routine.parameters → m.frames.size < frameCapacity → stackCapacity < m.wanted routine →
      m.wanted routine < sizeWord → Invokes m routine captured given (.error (.fault .stackOverflow) m)
  | overflows : given = routine.parameters → m.frames.size < frameCapacity → sizeWord ≤ m.wanted routine →
      Invokes m routine captured given (.error .additionOverflow m)
  | reserves : given = routine.parameters → m.frames.size < frameCapacity → m.wanted routine ≤ stackCapacity →
      Invokes m routine captured given (.ok .next (m.entering routine captured given))

theorem invoke_invokes :
    m.Invokes routine captured given ((do invoke routine captured given; return Signal.next : Running Signal) m) := by
  simp only [bind, EStateM.bind]
  by_cases fits : given = routine.parameters
  · subst fits
    rcases Nat.lt_or_ge m.frames.size frameCapacity with shallow | deep
    · rcases Nat.lt_or_ge (m.wanted routine) sizeWord with fits | beyond
      · rcases Nat.lt_or_ge stackCapacity (m.wanted routine) with full | room
        · rw [invoke_full captured shallow full fits]
          exact .full rfl shallow full fits
        · rw [invoke_reserves captured shallow room]
          exact .reserves rfl shallow room
      · rw [invoke_overflow captured shallow beyond]
        exact .overflows rfl shallow beyond
    · rw [invoke_deep captured deep]
      exact .deep rfl deep
  · rw [invoke_mismatched captured fits]
    exact .mismatched fits

-- A stack on which a function has begun: nulls for its further locals on top of all that was there.
structure Reserved (m : Machine) (routine : Routine) (n : Machine) : Prop where
  size : n.stack.size = m.stack.size + (routine.locals - routine.parameters)
  room : n.stack.size ≤ stackCapacity
  kept : ∀ i < m.stack.size, n.stack[i]? = m.stack[i]?
  null : ∀ i, m.stack.size ≤ i → i < n.stack.size → n.stack[i]? = some .null

theorem Invokes.reserved {s : Signal} (invokes : m.Invokes routine captured given (.ok s n)) : m.Reserved routine n := by
  cases invokes with
  | reserves _ _ room =>
    refine ⟨entering_size, ?_, fun i below => entering_below below, fun i above inside => ?_⟩
    · rw [entering_size]
      exact room
    · rw [entering_size] at inside
      exact entering_above above inside

-- The size of the stack is out of a word in one case alone, which comes before it is compared with the limit.
theorem Invokes.overflow {r : EStateM.Result Stop Machine Signal} (invokes : m.Invokes routine captured given r) :
    (∃ n, r = .error .additionOverflow n) ↔
      given = routine.parameters ∧ m.frames.size < frameCapacity ∧ sizeWord ≤ m.wanted routine := by
  constructor
  · rintro ⟨n, rfl⟩
    cases invokes with
    | overflows fits shallow beyond => exact ⟨fits, shallow, beyond⟩
  · rintro ⟨fits, shallow, beyond⟩
    cases invokes with
    | mismatched different => exact absurd fits different
    | deep _ deep => exact absurd shallow (Nat.not_lt.mpr deep)
    | full _ _ _ word => exact absurd beyond (Nat.not_le.mpr word)
    | overflows => exact ⟨_, rfl⟩
    | reserves _ _ room => exact absurd (Nat.le_trans beyond room) (by decide)

theorem step_calls (item : m.frame.routine.code.itemAt m.frame.next = .instruction ⟨.call, [given]⟩)
    (called : m.callee? given = some (routine, captured)) : step m =
      (do invoke routine captured given; return Signal.next : Running Signal)
        (goto m (m.frame.next + OpCode.call.width)) := by
  unfold callee? at called
  split at called
  case isFalse => cases called
  rename_i enough
  obtain ⟨v, here, starts⟩ := Option.bind_eq_some_iff.mp called
  have calls := call_run (m := goto m (m.frame.next + OpCode.call.width)) enough here
  rw [step_at item]
  cases v with
  | function _ | closure _ _ =>
    cases starts
    change (do call given; return Signal.next : Running Signal) _ = _
    simp only [bind, EStateM.bind, calls]
    rfl
  | _ => cases starts

-- Whatever numbers a function says, its call does nothing but refuse it, or begin it with the nulls of its further locals
-- on top of what was there. Only where no word holds how many values that makes is it not refused but stops for the sum.
theorem step_invokes (item : m.frame.routine.code.itemAt m.frame.next = .instruction ⟨.call, [given]⟩)
    (called : m.callee? given = some (routine, captured)) :
    (goto m (m.frame.next + OpCode.call.width)).Invokes routine captured given (step m) ∧
    (∀ s n, step m = .ok s n → m.Reserved routine n) ∧
    ((∃ n, step m = .error .additionOverflow n) ↔
      given = routine.parameters ∧ m.frames.size < frameCapacity ∧ sizeWord ≤ m.wanted routine) := by
  have invokes : (goto m (m.frame.next + OpCode.call.width)).Invokes routine captured given (step m) := by
    rw [step_calls item called]
    exact invoke_invokes
  refine ⟨invokes, fun s n run => ?_, ?_⟩
  · rw [run] at invokes
    obtain ⟨size, room, kept, null⟩ := invokes.reserved
    exact ⟨size, room, kept, null⟩
  · have overflow := invokes.overflow
    simp only [frames, Array.size_push] at overflow ⊢
    exact overflow

def greedy : Routine := ⟨#[], 0, sizeWord - 1⟩

def calling (routine : Routine) : Machine :=
  ⟨#[], #[], #[.function routine], ⟨⟨#[OpCode.call.byte, 0], 0, 0⟩, [], 0, 0⟩, #[], none, #[]⟩

-- With the function itself that makes a value more than a word counts.
theorem step_invokes_greedy :
    (calling greedy).frame.routine.code.itemAt (calling greedy).frame.next = .instruction ⟨.call, [0]⟩ ∧
    (calling greedy).callee? 0 = some (greedy, []) ∧
    (goto (calling greedy) 2).Invokes greedy [] 0 (step (calling greedy)) ∧
    ∃ n, step (calling greedy) = .error .additionOverflow n := by
  have item : (calling greedy).frame.routine.code.itemAt (calling greedy).frame.next = .instruction ⟨.call, [0]⟩ := rfl
  have called : (calling greedy).callee? 0 = some (greedy, []) := rfl
  obtain ⟨invokes, -, overflow⟩ := step_invokes item called
  exact ⟨item, called, invokes, overflow.mpr ⟨rfl, by decide, by decide⟩⟩

end Machine
end StackScript
