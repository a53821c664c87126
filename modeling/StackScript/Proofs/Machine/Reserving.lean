import StackScript.Machine.Step

-- How room is made for the locals of a function that is called, whatever numbers of parameters and locals it says.
namespace StackScript

def Routine.further (r : Routine) : Nat := r.locals - r.parameters

namespace Machine

variable {m : Machine} {routine : Routine} {captured : List Value} {given : Nat}

-- How many values the stack is to hold when a function begins.
def wanted (m : Machine) (routine : Routine) : Nat := m.stack.size + routine.further

-- A function runs on the arguments on top of a stack, its further locals are null, and the one that was running waits
-- for it.
def entering (m : Machine) (routine : Routine) (captured : List Value) (given : Nat) : Machine :=
  { m with
    stack := m.stack ++ List.replicate routine.further Value.null
    frame := ⟨routine, captured, 0, m.stack.size - given⟩
    callers := m.callers.push m.frame }

theorem entering_size : (m.entering routine captured given).stack.size = m.wanted routine := by
  rw [entering, ← Array.length_toList, Array.toList_appendList, List.length_append, Array.length_toList,
    List.length_replicate, wanted]

theorem entering_mem {v : Value} (present : v ∈ (m.entering routine captured given).stack) : v ∈ m.stack ∨ v = .null := by
  rw [entering, ← Array.mem_toList_iff, Array.toList_appendList] at present
  rcases List.mem_append.mp present with old | new
  · exact .inl (Array.mem_toList_iff.mp old)
  · exact .inr (List.eq_of_mem_replicate new)

theorem entering_below {i : Nat} (below : i < m.stack.size) :
    (m.entering routine captured given).stack[i]? = m.stack[i]? := by
  rw [entering, ← Array.getElem?_toList, Array.toList_appendList, List.getElem?_append_left (by simpa using below),
    Array.getElem?_toList]

theorem entering_above {i : Nat} (above : m.stack.size ≤ i) (inside : i < m.wanted routine) :
    (m.entering routine captured given).stack[i]? = some .null := by
  rw [wanted] at inside
  have fresh : i - m.stack.toList.length < routine.further := by
    rw [Array.length_toList]
    omega
  rw [entering, ← Array.getElem?_toList, Array.toList_appendList, List.getElem?_append_right (by simpa using above),
    List.getElem?_replicate_of_lt fresh]

end Machine

namespace Running

open Machine (stackCapacity frameCapacity sizeWord)

variable {m n : Machine} {routine : Routine} {captured : List Value} {given : Nat}

theorem invoke_mismatched (captured : List Value) (different : given ≠ routine.parameters) :
    invoke routine captured given m = .error (.fault (.wrongArgumentCount routine.parameters given)) m := by
  simp only [invoke, different, ne_eq, not_false_eq_true, if_true]

theorem invoke_deep (captured : List Value) (deep : frameCapacity ≤ m.frames.size) :
    invoke routine captured routine.parameters m = .error (.fault .stackOverflow) m := by
  rw [Machine.frames, Array.size_push] at deep
  simp only [invoke, ne_eq, not_true_eq_false, deep, if_true, if_false]

theorem invoke_shallow (captured : List Value) (shallow : m.frames.size < frameCapacity) :
    invoke routine captured routine.parameters m =
      if sizeWord ≤ m.wanted routine then .error .additionOverflow m
      else if stackCapacity < m.wanted routine then .error (.fault .stackOverflow) m
      else .ok () (m.entering routine captured routine.parameters) := by
  rw [Machine.frames, Array.size_push] at shallow
  simp only [invoke, ne_eq, not_true_eq_false, Nat.not_le.mpr shallow, if_false]
  rfl

-- The size that no word holds is computed before it is compared with the limit.
theorem invoke_overflow (captured : List Value) (shallow : m.frames.size < frameCapacity)
    (beyond : sizeWord ≤ m.wanted routine) : invoke routine captured routine.parameters m = .error .additionOverflow m := by
  rw [invoke_shallow captured shallow, if_pos beyond]

theorem invoke_full (captured : List Value) (shallow : m.frames.size < frameCapacity)
    (full : stackCapacity < m.wanted routine) (fits : m.wanted routine < sizeWord) :
    invoke routine captured routine.parameters m = .error (.fault .stackOverflow) m := by
  rw [invoke_shallow captured shallow, if_neg (Nat.not_le.mpr fits), if_pos full]

theorem invoke_reserves (captured : List Value) (shallow : m.frames.size < frameCapacity)
    (room : m.wanted routine ≤ stackCapacity) : invoke routine captured routine.parameters m =
      .ok () (m.entering routine captured routine.parameters) := by
  have fits : m.wanted routine < sizeWord := Nat.lt_of_le_of_lt room (by decide)
  rw [invoke_shallow captured shallow, if_neg (Nat.not_le.mpr fits), if_neg (Nat.not_lt.mpr room)]

theorem invoke_ok {u : Unit} (run : invoke routine captured given m = .ok u n) :
    given = routine.parameters ∧ m.frames.size < frameCapacity ∧ m.wanted routine ≤ stackCapacity ∧
      n = m.entering routine captured given := by
  by_cases fits : given = routine.parameters
  · subst fits
    rcases Nat.lt_or_ge m.frames.size frameCapacity with shallow | deep
    · rw [invoke_shallow captured shallow] at run
      split at run
      · cases run
      · split at run
        · cases run
        · rename_i room
          cases run
          exact ⟨rfl, shallow, Nat.not_lt.mp room, rfl⟩
    · rw [invoke_deep captured deep] at run
      cases run
  · rw [invoke_mismatched captured fits] at run
    cases run

theorem invoke_error {stop : Stop} (run : invoke routine captured given m = .error stop n) :
    n = m ∧ (stop = .fault (.wrongArgumentCount routine.parameters given) ∨ stop = .fault .stackOverflow ∨
      stop = .additionOverflow ∧ sizeWord ≤ m.wanted routine) := by
  by_cases fits : given = routine.parameters
  · subst fits
    rcases Nat.lt_or_ge m.frames.size frameCapacity with shallow | deep
    · rw [invoke_shallow captured shallow] at run
      split at run
      · rename_i beyond
        cases run
        exact ⟨rfl, .inr (.inr ⟨rfl, beyond⟩)⟩
      · split at run
        · cases run
          exact ⟨rfl, .inr (.inl rfl)⟩
        · cases run
    · rw [invoke_deep captured deep] at run
      cases run
      exact ⟨rfl, .inr (.inl rfl)⟩
  · rw [invoke_mismatched captured fits] at run
    cases run
    exact ⟨rfl, .inl rfl⟩

end Running
end StackScript
