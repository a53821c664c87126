import StackScript.Proofs.Machine.Low
import StackScript.Proofs.Machine.Run

-- What a step leaves of the stack. An instruction takes only the values that it needs, so that safe code never reaches
-- below the locals of the running function, and a function that goes back leaves everything below itself as it was.
namespace StackScript

def Machine.Shares (low : Nat) (m n : Machine) : Prop := ∀ i, i < low → n.stack[i]? = m.stack[i]?

namespace Machine.Shares

variable {low : Nat} {m n o : Machine}

theorem refl (low : Nat) (m : Machine) : Shares low m m := fun _ _ => rfl

theorem trans (left : Shares low m n) (right : Shares low n o) : Shares low m o :=
  fun i below => (right i below).trans (left i below)

theorem lower {less : Nat} (shares : Shares low m n) (order : less ≤ low) : Shares less m n :=
  fun i below => shares i (Nat.lt_of_lt_of_le below order)

end Machine.Shares

namespace Running

open Machine (Shares)

variable {α β : Type} {m n : Machine} {a b c : Nat}

-- A computation that takes no more than `takes` values from the stack, leaves `gives` in their place, and of what is
-- below them changes nothing but locals.
def Spares (takes gives : Nat) (x : Running α) : Prop := ∀ m v n, x m = .ok v n →
  m.Keeps n ∧ ∀ low, m.frame.base ≤ low → low + takes ≤ m.stack.size →
    low + gives ≤ n.stack.size ∧ Shares m.frame.base m n

theorem spares_bind {x : Running α} {f : α → Running β} (first : Spares a b x) (rest : ∀ v, Spares b c (f v)) :
    Spares a c (x >>= f) := by
  intro m v n run
  obtain ⟨u, o, one, two⟩ := bind_ok.mp run
  obtain ⟨keeps, early⟩ := first m u o one
  obtain ⟨further, late⟩ := rest u o v n two
  rw [keeps.frame] at late
  refine ⟨keeps.trans further, fun low above enough => ?_⟩
  obtain ⟨middle, shares⟩ := early low above enough
  obtain ⟨last, shares'⟩ := late low above middle
  exact ⟨last, shares.trans shares'⟩

theorem spares_above {x : Running α} (spares : Spares a b x) (k : Nat) : Spares (k + a) (k + b) x := by
  intro m v n run
  obtain ⟨keeps, rest⟩ := spares m v n run
  refine ⟨keeps, fun low above enough => ?_⟩
  obtain ⟨last, shares⟩ := rest (low + k) (by omega) (by omega)
  exact ⟨by omega, shares⟩

theorem spares_same {x : Running α} (same : ∀ m v n, x m = .ok v n → m.Keeps n ∧ n.stack = m.stack) : Spares a a x := by
  intro m v n run
  obtain ⟨keeps, stack⟩ := same m v n run
  refine ⟨keeps, fun low above enough => ⟨by rw [stack]; exact enough, fun i _ => by rw [stack]⟩⟩

theorem pure_spares (v : α) : Spares a a (pure v : Running α) := by
  refine spares_same fun m u n run => ?_
  cases run
  exact ⟨.refl m, rfl⟩

theorem fail_spares (f : Fault) : Spares a b (fail f : Running α) := by
  intro m v n run
  cases run

theorem push_ok {v : Value} {u : Unit} (run : push v m = .ok u n) : n = { m with stack := m.stack.push v } := by
  unfold push at run
  split at run
  · cases run
  · cases run
    rfl

theorem push_spares (v : Value) : Spares 0 1 (push v) := by
  intro m u n run
  cases push_ok run
  refine ⟨⟨rfl, rfl, rfl⟩, fun low above enough => ⟨by rw [Array.size_push]; omega, fun i below => ?_⟩⟩
  exact Array.getElem?_push_lt (by omega) |>.trans (Array.getElem?_eq_getElem (by omega)).symm

theorem pop_shares {low : Nat} (below : low < m.stack.size) : Shares low m { m with stack := m.stack.pop } := by
  intro i inside
  simp only [Array.getElem?_pop]
  rw [if_pos (by omega)]

theorem pop_spares : Spares 1 0 pop := by
  intro m v n run
  obtain ⟨-, rfl⟩ := pop_ok run
  refine ⟨⟨rfl, rfl, rfl⟩, fun low above enough => ⟨by rw [Array.size_pop]; omega, pop_shares (by omega)⟩⟩

theorem drop_spares : Spares 1 0 drop := by
  intro m v n run
  cases run
  refine ⟨⟨rfl, rfl, rfl⟩, fun low above enough => ⟨by simp only [Array.size_pop]; omega, fun i below => ?_⟩⟩
  exact pop_shares (show m.frame.base < m.stack.size by omega) i below

theorem shrink_below (stack : Array Value) {size i : Nat} (below : i < size) : (stack.shrink size)[i]? = stack[i]? := by
  rw [← Array.getElem?_toList, Array.toList_shrink, List.getElem?_take_of_lt below, Array.getElem?_toList]

theorem popMany_spares (k : Nat) : Spares k 0 (popMany k) := by
  intro m v n run
  unfold popMany at run
  split at run
  · cases run
    refine ⟨⟨rfl, rfl, rfl⟩, fun low above enough => ⟨by simp only [Array.size_shrink]; omega, fun i below => ?_⟩⟩
    exact shrink_below m.stack (by omega)
  · cases run

theorem ofExcept_spares (r : Except Fault α) : Spares a a (ofExcept r) := by
  cases r with
  | ok v => exact pure_spares v
  | error f => exact fail_spares f

theorem constant_spares (op : OpCode) (i : Nat) : Spares a a (constant op i) := by
  refine spares_same fun m v n run => ?_
  unfold constant at run
  split at run <;> cases run
  exact ⟨.refl m, rfl⟩

theorem global_spares (i : Nat) : Spares a a (global i) := by
  refine spares_same fun m v n run => ?_
  cases run
  exact ⟨.refl m, rfl⟩

theorem setGlobal_spares (op : OpCode) (i : Nat) (v : Value) : Spares a a (setGlobal op i v) := by
  refine spares_same fun m u n run => ?_
  unfold setGlobal at run
  split at run <;> cases run
  exact ⟨⟨rfl, rfl, rfl⟩, rfl⟩

theorem getLocal_spares (op : OpCode) (i : Nat) : Spares a a (getLocal op i) := by
  refine spares_same fun m v n run => ?_
  unfold getLocal at run
  split at run <;> cases run
  exact ⟨.refl m, rfl⟩

theorem captured_spares (op : OpCode) (i : Nat) : Spares a a (captured op i) := by
  refine spares_same fun m v n run => ?_
  unfold captured at run
  split at run <;> cases run
  exact ⟨.refl m, rfl⟩

theorem setLocal_spares (op : OpCode) (i : Nat) (v : Value) : Spares a a (setLocal op i v) := by
  intro m u n run
  unfold setLocal at run
  split at run
  · cases run
    refine ⟨⟨rfl, rfl, rfl⟩, fun low above enough => ⟨by rw [Array.size_setIfInBounds]; exact enough, fun j below => ?_⟩⟩
    exact Array.getElem?_setIfInBounds_ne (by omega)
  · cases run

theorem print_spares (lines : List String) :
    Spares a a (modify fun m => { m with output := m.output ++ lines } : Running PUnit) := by
  refine spares_same fun m v n run => ?_
  cases run
  exact ⟨⟨rfl, rfl, rfl⟩, rfl⟩

theorem pushes_spares {x : Running Value} (spares : Spares a 0 x) : Spares a 1 (do push (← x); return Signal.next) :=
  spares_bind spares fun v => spares_bind (push_spares v) fun _ => pure_spares _

theorem unary_spares (f : Value → Except Fault Value) :
    Spares 1 1 (do let operand ← pop; push (← ofExcept (f operand)); return Signal.next) :=
  spares_bind pop_spares fun operand => pushes_spares (ofExcept_spares (f operand))

theorem binary_spares (f : Value → Value → Except Fault Value) :
    Spares 2 1 (do let rhs ← pop; let lhs ← pop; push (← ofExcept (f lhs rhs)); return Signal.next) :=
  spares_bind (spares_above pop_spares 1) fun rhs =>
    spares_bind pop_spares fun lhs => pushes_spares (ofExcept_spares (f lhs rhs))

theorem writes_spares {f : Value → Running Unit} (spares : ∀ v, Spares 0 0 (f v)) :
    Spares 1 0 (do let v ← pop; f v; return Signal.next) :=
  spares_bind pop_spares fun v => spares_bind (spares v) fun _ => pure_spares _

theorem execute_spares {op : OpCode} {i j : Nat} (known : usage op i j = some (a, b)) : Spares a b (execute op i j) := by
  cases op <;> cases known
  case constant => exact pushes_spares (constant_spares _ i)
  case pushTrue | pushFalse | pushNull => exact spares_bind (push_spares _) fun _ => pure_spares _
  case getGlobal => exact pushes_spares (global_spares i)
  case getLocal => exact pushes_spares (getLocal_spares _ i)
  case getFree => exact pushes_spares (captured_spares _ i)
  case getBuiltin =>
    unfold execute
    cases Builtin.ofIndex? i with
    | some b => exact spares_bind (push_spares _) fun _ => pure_spares _
    | none => exact fail_spares _
  case pop => exact spares_bind drop_spares fun _ => pure_spares _
  case setGlobal | assignGlobal => exact writes_spares fun v => setGlobal_spares _ i v
  case setLocal | assignLocal => exact writes_spares fun v => setLocal_spares _ i v
  case minus | bang => exact unary_spares _
  case add | sub | mul | div | equal | notEqual | greater | atLeast => exact binary_spares _
  case index => exact binary_spares fun target position => Operation.index target position
  case array => exact spares_bind (popMany_spares _) fun items => spares_bind (push_spares _) fun _ => pure_spares _
  case hash => exact spares_bind (popMany_spares _) fun items => pushes_spares (ofExcept_spares (pairUp items []))
  case closure =>
    unfold execute
    refine spares_bind (constant_spares _ i) fun v => ?_
    cases v with
    | function routine =>
      exact spares_bind (popMany_spares _) fun captured => spares_bind (push_spares _) fun _ => pure_spares _
    | _ => exact fail_spares _

theorem currentClosure_spares (i j : Nat) : Spares 0 1 (execute .currentClosure i j) := by
  intro m v n run
  obtain ⟨_, _, got, run⟩ := bind_ok.mp run
  cases got
  exact spares_bind (push_spares _) (fun _ => pure_spares _) m v n run

theorem native_spares (b : Builtin) (given : Nat) : Spares (given + 1) 1 (callOf given (.builtin b)) := by
  rw [Nat.add_comm]
  refine spares_bind (spares_above (popMany_spares given) 1) fun args => spares_bind pop_spares fun _ => ?_
  exact spares_bind (ofExcept_spares _) fun result => spares_bind (print_spares _) fun _ => push_spares _

theorem invoke_shares {routine : Routine} {captured : List Value} {given low : Nat} {u : Unit}
    (run : invoke routine captured given m = .ok u n) (before : low ≤ m.stack.size) : Shares low m n := by
  obtain ⟨-, -, -, rfl⟩ := invoke_ok run
  exact fun i below => Machine.entering_below (Nat.lt_of_lt_of_le below before)

theorem leave_next {v : Value} (run : leave v m = .ok .next n) :
    m.callers = n.callers.push n.frame ∧ n.stack = (m.stack.shrink (m.frame.base - 1)).push v := by
  obtain ⟨callers, -⟩ := leave_moves run
  rw [leave_run v callers] at run
  obtain ⟨u, o, pushed, ended⟩ := bind_ok.mp run
  cases ended
  exact ⟨callers, by rw [push_ok pushed]⟩

end Running

namespace Machine

def Returning (m : Machine) (v : Value) : Prop :=
  (m.frame.routine.code.itemAt m.frame.next = .instruction ⟨.returnValue, []⟩ ∧ m.stack.back? = some v) ∨
    (m.frame.routine.code.itemAt m.frame.next = .instruction ⟨.returnNull, []⟩ ∧ v = .null)

-- Where a step leads to, with what it does to the frames and to the stack below the running one.
inductive Turns (m n : Machine) : Prop where
  | along : n.callers = m.callers → n.frame.base = m.frame.base → Shares m.frame.base m n → Turns m n
  | into {given : Nat} : m.frame.routine.code.itemAt m.frame.next = .instruction ⟨.call, [given]⟩ →
      n.callers = m.callers.push { m.frame with next := m.frame.next + OpCode.call.width } →
      m.frame.base + m.frame.routine.locals + given < m.stack.size → n.frame.base + given = m.stack.size →
      Shares n.frame.base m n → Turns m n
  | back {v : Value} : m.Returning v → m.callers = n.callers.push n.frame →
      n.stack = (m.stack.shrink (m.frame.base - 1)).push v → Turns m n

open Running (step goto bind_ok)

variable {pool : Array Value} {m n : Machine}

theorem Turns.of_spares {i : Instruction} {takes gives h : Nat} (item : m.frame.routine.code.itemAt m.frame.next = .instruction i)
    (size : m.stack.size = m.frame.base + m.frame.routine.locals + (h + takes))
    (spares : Running.Spares takes gives (Running.execute i.opcode (i.operands[0]?.getD 0) (i.operands[1]?.getD 0)))
    (run : step m = .ok .next n) : m.Turns n := by
  rw [step_at item] at run
  obtain ⟨keeps, rest⟩ := spares _ _ _ run
  have enough : m.frame.base + takes ≤ m.stack.size := by omega
  exact .along keeps.callers (by rw [keeps.frame]; rfl) (rest m.frame.base (Nat.le_refl _) enough).2

theorem Turns.of_call {given h : Nat} (sound : n.Sound pool)
    (item : m.frame.routine.code.itemAt m.frame.next = .instruction ⟨.call, [given]⟩)
    (size : m.stack.size = m.frame.base + m.frame.routine.locals + (h + (given + 1))) (run : step m = .ok .next n) :
    m.Turns n := by
  obtain ⟨-, g, top, -⟩ := sound.chain.move
  rw [step_at item] at run
  obtain ⟨u, o, called, ended⟩ := bind_ok.mp run
  cases ended
  have enough : given + 1 ≤ m.stack.size := by omega
  have here : m.stack[m.stack.size - (given + 1)]? = some m.stack[m.stack.size - (given + 1)] :=
    Array.getElem?_eq_getElem (by omega)
  generalize m.stack[m.stack.size - (given + 1)] = v at here
  have called := (Running.call_run (m := goto m (m.frame.next + OpCode.call.width)) enough here).symm.trans called
  have invoked {routine : Routine} {captured : List Value}
      (run : Running.invoke routine captured given (goto m (m.frame.next + OpCode.call.width)) = .ok u n) : m.Turns n := by
    obtain ⟨-, callers, frame⟩ := Running.invoke_moves run
    have base : n.frame.base + given = m.stack.size := by
      rw [frame]
      exact Nat.sub_add_cancel (Nat.le_of_succ_le enough)
    have before : n.frame.base ≤ m.stack.size := by omega
    have shares := Running.invoke_shares run before
    exact .into item callers (by omega) base shares
  cases v with
  | closure routine captured => exact invoked called
  | function routine => exact invoked called
  | builtin b =>
    obtain ⟨keeps, rest⟩ := Running.native_spares b given _ _ _ called
    have above : m.frame.base + (given + 1) ≤ m.stack.size := by omega
    exact .along keeps.callers (by rw [keeps.frame]; rfl) (rest m.frame.base (Nat.le_refl _) above).2
  | _ => cases called

theorem Turns.of_return {v : Value} {o : Machine} (returning : m.Returning v) (callers : o.callers = m.callers)
    (base : o.frame.base = m.frame.base) (stack : o.stack.shrink (m.frame.base - 1) = m.stack.shrink (m.frame.base - 1))
    (run : Running.leave v o = .ok .next n) : m.Turns n := by
  obtain ⟨called, left⟩ := Running.leave_next run
  exact .back returning (callers.symm.trans called) (by rw [left, base, stack])

-- A sound machine never reaches below the locals of the running function.
theorem Sound.step_turns (sound : m.Sound pool) (run : step m = .ok .next n) : m.Turns n := by
  have after := sound.after_step run
  obtain ⟨r, h, standing, safe⟩ := Running.standing sound
  have size := standing.size
  have code := standing.code.symm
  have plain {i : Instruction} {takes gives g : Nat} (item : r.code.itemAt m.frame.next = .instruction i)
      (known : i.usage? = some (takes, gives)) (high : h = g + takes) : m.Turns n := by
    rw [← code] at item
    exact .of_spares item (by rw [size, high]) (Running.execute_spares known) run
  generalize place : m.frame.next = a at safe plain
  cases safe with
  | ends outside =>
    have nothing : m.frame.routine.code.itemAt m.frame.next = .nothing := by
      rw [code, place]
      simp [Code.itemAt]
    have empty : m.callers = #[] := by simpa using standing.main outside
    rw [Running.step_end nothing empty] at run
    cases run
  | @plain r a takes gives g i item effect straight rest =>
    by_cases called : i.opcode = .call
    · obtain ⟨given, rfl, rfl, rfl⟩ := Instruction.effect_call effect called
      rw [← code, ← place] at item
      exact .of_call after item size run
    · exact plain item (Instruction.effect_usage effect called straight) rfl
  | @read r a g i item reads rest =>
    rcases reads.known with known | ⟨rfl, -⟩
    · exact plain item known rfl
    · rw [← code, ← place] at item
      exact .of_spares item size (Running.currentClosure_spares 0 0) run
  | write item writes rest => exact plain item writes.usage rfl
  | literal item _ _ rest => exact plain item rfl rfl
  | function item _ _ _ _ rest => exact plain item rfl rfl
  | closure item _ _ _ _ rest => exact plain item rfl rfl
  | jump item rest =>
    rw [← code, ← place] at item
    rw [step_at item] at run
    cases run
    exact .along rfl rfl (.refl _ _)
  | jumpUnless item rest taken =>
    rw [← code, ← place] at item
    rw [step_at item] at run
    have shares : Shares m.frame.base m { m with stack := m.stack.pop } := Running.pop_shares (by omega)
    obtain ⟨-, condition, -, rfl⟩ := Running.jumpUnless_ok run
    split
    · exact .along rfl rfl shares
    · exact .along rfl rfl shares
  | returnValue item =>
    rw [← code, ← place] at item
    have here := run
    rw [step_at item] at here
    obtain ⟨v, o, popped, left⟩ := bind_ok.mp here
    obtain ⟨top, rfl⟩ := Running.pop_ok popped
    refine .of_return (o := { goto m (m.frame.next + OpCode.returnValue.width) with stack := m.stack.pop })
      (.inl ⟨item, top⟩) rfl rfl ?_ left
    apply Array.toList_inj.mp
    rw [Array.toList_shrink, Array.toList_shrink, Array.toList_pop, List.dropLast_eq_take, List.take_take, Array.length_toList, Nat.min_eq_left (by omega)]
  | returnNull item =>
    rw [← code, ← place] at item
    have here := run
    rw [step_at item] at here
    exact .of_return (o := goto m (m.frame.next + OpCode.returnNull.width)) (.inr ⟨item, rfl⟩) rfl rfl rfl here

end Machine
end StackScript
