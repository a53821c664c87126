import StackScript.Proofs.Code.Encoding
import StackScript.Proofs.Machine.Checked
import StackScript.Proofs.Machine.Moves

-- On any code whatsoever the machine stays within its limits, and none of its accesses is out of range.
namespace StackScript

-- A function with the numbers of parameters and locals that a file can say.
def Routine.Modest (r : Routine) : Prop := r.parameters < UInt32.size ∧ r.locals < UInt32.size

-- A value in which every function is one that a file can say, whatever its code.
inductive Value.Modest : Value → Prop where
  | of {v : Value} : (∀ f n, v.callee? = some (f, n) → f.Modest) → (∀ part ∈ v.parts, Modest part) → Modest v

theorem Value.modest_hereditary : Hereditary Modest := by
  refine ⟨fun noFunction parts => .of (fun f n called => ?_) parts, fun modest => ?_⟩
  · rw [noFunction] at called
    cases called
  · cases modest with
    | of _ parts => exact parts

theorem Value.Modest.callee {v : Value} {f : Routine} {n : Nat} (modest : v.Modest) (called : v.callee? = some (f, n)) :
    f.Modest := by
  cases modest with
  | of functions _ => exact functions f n called

structure Frame.Bounded (f : Frame) : Prop where
  base : f.base ≤ Machine.stackCapacity
  modest : (Value.closure f.routine f.captured).Modest

-- A machine within its limits.
structure Machine.Bounded (pool : Array Value) (m : Machine) : Prop where
  constants : m.constants = pool
  pool : ∀ v ∈ pool, v.Modest
  globals : ∀ v ∈ m.globals, v.Modest
  stack : ∀ v ∈ m.stack, v.Modest
  frame : m.frame.Bounded
  callers : ∀ f ∈ m.callers, f.Bounded
  room : m.globals.size ≤ Machine.globalCapacity
  height : m.stack.size ≤ Machine.stackCapacity
  depth : m.callers.size + 1 ≤ Machine.frameCapacity

theorem Machine.Bounded.restack {pool stack : Array Value} {m : Machine} (bounded : m.Bounded pool)
    (each : ∀ v ∈ stack, v.Modest) (small : stack.size ≤ Machine.stackCapacity) : Machine.Bounded pool { m with stack } :=
  ⟨bounded.constants, bounded.pool, bounded.globals, each, bounded.frame, bounded.callers, bounded.room, small, bounded.depth⟩

namespace Checked

open Machine (stackCapacity globalCapacity frameCapacity sizeWord)

variable {α β : Type} {pool : Array Value} {Q : α → Prop} {R : β → Prop}

-- What a computation ends with, also where it fails. No sum is beyond a word.
def Within (pool : Array Value) (Q : α → Prop) : EStateM.Result Stop Machine α → Prop
  | .ok a n => n.Bounded pool ∧ Q a
  | .error (.fault _) n => n.Bounded pool
  | .error .additionOverflow _ => False

theorem Within.stopped {stop : Stop} {n : Machine} (within : Within pool Q (.error stop n)) :
    Within pool R (.error stop n) := by
  cases stop with
  | fault f => exact within
  | additionOverflow => exact within

theorem Within.bounded {stop : Stop} {n : Machine} (within : Within pool Q (.error stop n)) : n.Bounded pool := by
  cases stop with
  | fault f => exact within
  | additionOverflow => exact within.elim

-- A checked computation that does what the plain one does wherever the machine is within its limits, and keeps it there.
-- So it is never out of range.
def Checks (pool : Array Value) (x : Checked α) (y : Running α) (Q : α → Prop) : Prop := ∀ m : Machine, m.Bounded pool →
  x m = plain y m ∧ Within pool Q (y m)

theorem goes_on {x : Checked α} {y : Running α} {m n : Machine} {a : α} (checked : x m = .ok a n) (run : y m = .ok a n)
    (bounded : n.Bounded pool) (holds : Q a) : x m = plain y m ∧ Within pool Q (y m) := by
  rw [plain, checked, run]
  exact ⟨rfl, bounded, holds⟩

theorem stops {x : Checked α} {y : Running α} {m n : Machine} {f : Fault} (checked : x m = .error (.fault f) n)
    (run : y m = .error (.fault f) n) (bounded : n.Bounded pool) : x m = plain y m ∧ Within pool Q (y m) := by
  rw [plain, checked, run]
  exact ⟨rfl, bounded⟩

theorem goes_as {x x' : Checked α} {y y' : Running α} {m : Machine} (checked : x m = x' m) (run : y m = y' m)
    (rest : x' m = plain y' m ∧ Within pool Q (y' m)) : x m = plain y m ∧ Within pool Q (y m) := by
  simp only [plain] at rest ⊢
  rw [checked, run]
  exact rest

theorem checks_bind {x : Checked α} {y : Running α} {f : α → Checked β} {g : α → Running β} (first : Checks pool x y Q)
    (next : ∀ a, Q a → Checks pool (f a) (g a) R) : Checks pool (x >>= f) (y >>= g) R := by
  intro m bounded
  obtain ⟨same, after⟩ := first m bounded
  simp only [plain, bind, EStateM.bind, same]
  cases run : y m with
  | ok a n =>
    rw [run] at after
    exact next a after.2 n after.1
  | error stop n =>
    rw [run] at after
    cases stop with
    | fault f => exact ⟨rfl, after⟩
    | additionOverflow => exact after.elim

theorem checks_pure {a : α} (holds : Q a) : Checks pool (pure a) (pure a) Q := fun _ bounded => ⟨rfl, bounded, holds⟩

theorem checks_fail (f : Fault) : Checks pool (fail f) (Running.fail f) Q := fun _ bounded => ⟨rfl, bounded⟩

theorem plain_bind (x : Running α) (f : α → Running β) : plain (x >>= f) = plain x >>= fun a => plain (f a) := by
  funext m
  simp only [plain, bind, EStateM.bind]
  cases x m with
  | ok a n => rfl
  | error stop n => cases stop <;> rfl

-- What asks before each of its accesses has been checked.
def Keeps (pool : Array Value) (y : Running α) (Q : α → Prop) : Prop := Checks pool (plain y) y Q

theorem keeps_of {y : Running α} (each : ∀ m : Machine, m.Bounded pool → Within pool Q (y m)) : Keeps pool y Q :=
  fun m bounded => ⟨rfl, each m bounded⟩

theorem keeps_bind {y : Running α} {g : α → Running β} (first : Keeps pool y Q) (next : ∀ a, Q a → Keeps pool (g a) R) :
    Keeps pool (y >>= g) R := by
  rw [Keeps, plain_bind]
  exact checks_bind first next

theorem keeps_pure {a : α} (holds : Q a) : Keeps pool (pure a) Q := keeps_of fun _ bounded => ⟨bounded, holds⟩

theorem keeps_fail (f : Fault) : Keeps pool (Running.fail f) Q := keeps_of fun _ bounded => bounded

theorem push_keeps {v : Value} (modest : v.Modest) : Keeps pool (Running.push v) fun _ => True := by
  apply keeps_of
  intro m bounded
  unfold Running.push
  split
  · exact bounded
  · refine ⟨bounded.restack (fun w present => ?_) ?_, trivial⟩
    · rcases Array.mem_push.mp present with old | rfl
      · exact bounded.stack w old
      · exact modest
    · rw [Array.size_push]
      omega

theorem popped_modest {m : Machine} (bounded : m.Bounded pool) : (∀ v ∈ m.stack.pop, v.Modest) ∧
    m.stack.pop.size ≤ stackCapacity := by
  have height := bounded.height
  refine ⟨fun v present => bounded.stack v (Running.mem_of_mem_pop present), ?_⟩
  rw [Array.size_pop]
  omega

theorem pop_keeps : Keeps pool Running.pop Value.Modest := by
  apply keeps_of
  intro m bounded
  obtain ⟨each, small⟩ := popped_modest bounded
  unfold Running.pop
  split
  · rename_i v top
    exact ⟨bounded.restack each small, bounded.stack v (Array.mem_of_back? top)⟩
  · exact bounded

theorem drop_keeps : Keeps pool Running.drop fun _ => True := by
  apply keeps_of
  intro m bounded
  obtain ⟨each, small⟩ := popped_modest bounded
  have rest := bounded.restack each small
  exact ⟨⟨rest.constants, rest.pool, rest.globals, rest.stack, rest.frame, rest.callers, rest.room, rest.height, rest.depth⟩,
    trivial⟩

theorem jump_keeps (target : Nat) : Keeps pool (Running.jump target) fun _ => True := by
  apply keeps_of
  intro m bounded
  exact ⟨⟨bounded.constants, bounded.pool, bounded.globals, bounded.stack, ⟨bounded.frame.base, bounded.frame.modest⟩,
    bounded.callers, bounded.room, bounded.height, bounded.depth⟩, trivial⟩

theorem constant_keeps (op : OpCode) (n : Nat) : Keeps pool (Running.constant op n) Value.Modest := by
  apply keeps_of
  intro m bounded
  unfold Running.constant
  split
  · rename_i v found
    rw [bounded.constants] at found
    exact ⟨bounded, bounded.pool v (Array.mem_of_getElem? found)⟩
  · exact bounded

theorem global_keeps (n : Nat) : Keeps pool (Running.global n) Value.Modest := by
  apply keeps_of
  intro m bounded
  refine ⟨bounded, ?_⟩
  cases found : m.globals[n]? with
  | none => exact Value.modest_hereditary.null
  | some v => exact bounded.globals v (Array.mem_of_getElem? found)

theorem ofExcept_keeps {r : Except Fault Value} (gives : Value.Gives Value.Modest r) :
    Keeps pool (Running.ofExcept r) Value.Modest := by
  cases r with
  | ok v => exact keeps_pure gives
  | error f => exact keeps_fail f

theorem leave_keeps {v : Value} (modest : v.Modest) : Keeps pool (Running.leave v) fun _ => True := by
  apply keeps_of
  intro m bounded
  unfold Running.leave
  cases top : m.callers.back? with
  | none =>
    exact ⟨⟨bounded.constants, bounded.pool, bounded.globals, bounded.stack, bounded.frame, bounded.callers, bounded.room,
      bounded.height, bounded.depth⟩, trivial⟩
  | some caller =>
    have height := bounded.height
    have depth := bounded.depth
    have back : Machine.Bounded pool
        { m with stack := m.stack.shrink (m.frame.base - 1), frame := caller, callers := m.callers.pop } := by
      refine ⟨bounded.constants, bounded.pool, bounded.globals, fun w present => ?_,
        bounded.callers caller (Array.mem_of_back? top), fun f present => ?_, bounded.room, ?_, ?_⟩
      · exact bounded.stack w (Running.mem_of_mem_shrink present)
      · obtain ⟨i, _, rfl⟩ := Array.mem_iff_getElem.mp present
        rw [Array.getElem_pop]
        exact bounded.callers _ (Array.getElem_mem _)
      · rw [Array.size_shrink]
        omega
      · rw [Array.size_pop]
        omega
    have pushed := (push_keeps modest _ back).2
    simp only
    split <;> rename_i run <;> rw [run] at pushed
    · exact ⟨pushed.1, trivial⟩
    · exact pushed.stopped

theorem popMany_checks (n : Nat) : Checks pool (popMany n) (Running.popMany n) fun vs => ∀ v ∈ vs, v.Modest := by
  intro m bounded
  have height := bounded.height
  by_cases enough : n ≤ m.stack.size
  · have below : m.stack.size - n ≤ m.stack.size := Nat.sub_le ..
    have run : Running.popMany n m = .ok (m.stack.extract (m.stack.size - n) m.stack.size).toList
        { m with stack := m.stack.shrink (m.stack.size - n) } := by
      simp only [Running.popMany, enough, if_true]
    have checked : popMany n m = .ok (m.stack.extract (m.stack.size - n) m.stack.size).toList
        { m with stack := m.stack.shrink (m.stack.size - n) } := by
      simp only [popMany, get_bind, Nat.not_lt.mpr enough, below, splitAt, if_true, if_false, inRange_bind, set_bind, pure_apply]
    refine goes_on checked run (bounded.restack (fun v present => ?_) ?_) fun v present => ?_
    · exact bounded.stack v (Running.mem_of_mem_shrink present)
    · rw [Array.size_shrink]
      omega
    · obtain ⟨i, _, rfl⟩ := Array.mem_extract_iff_getElem.mp (Array.mem_toList_iff.mp present)
      exact bounded.stack _ (Array.getElem_mem _)
  · have run : Running.popMany n m = .error (.fault .stackUnderflow) m := by
      simp only [Running.popMany, enough, if_false]
    have checked : popMany n m = .error (.fault .stackUnderflow) m := by
      simp only [popMany, get_bind, Nat.not_le.mp enough, if_true, fail_apply]
    exact stops checked run bounded

theorem binary_checks (op : OpCode) (lhs rhs : Value) :
    Checks pool (binary op lhs rhs) (Running.ofExcept (Operation.binary op lhs rhs)) Value.Modest := by
  have keeps : Keeps pool (Running.ofExcept (Operation.binary op lhs rhs)) Value.Modest :=
    ofExcept_keeps (Value.modest_hereditary.plain (Operation.binary_plain op lhs rhs))
  unfold binary
  split
  · rename_i a b
    refine fun m bounded => ⟨?_, (keeps m bounded).2⟩
    by_cases zero : b = 0
    · simp only [zero, if_true, fail_apply, plain, Operation.binary, Operation.onIntegers, Running.ofExcept]
      rfl
    · simp only [zero, if_false, quotient, inRange_bind, pure_apply, plain, Operation.binary, Operation.onIntegers,
        Running.ofExcept]
      rfl
  · exact keeps

theorem globals_set {m : Machine} (bounded : m.Bounded pool) {globals : Array Value} (each : ∀ w ∈ globals, w.Modest)
    (room : globals.size ≤ globalCapacity) (n : Nat) {v : Value} (modest : v.Modest) :
    Machine.Bounded pool { m with globals := globals.setIfInBounds n v } := by
  refine ⟨bounded.constants, bounded.pool, fun w present => ?_, bounded.stack, bounded.frame, bounded.callers, ?_,
    bounded.height, bounded.depth⟩
  · rcases Array.mem_or_eq_of_mem_setIfInBounds present with old | rfl
    · exact each w old
    · exact modest
  · rw [Array.size_setIfInBounds]
    exact room

theorem setGlobal_checks (op : OpCode) (n : Nat) {v : Value} (modest : v.Modest) :
    Checks pool (setGlobal op n v) (Running.setGlobal op n v) fun _ => True := by
  intro m bounded
  by_cases below : n < globalCapacity
  · by_cases missing : m.globals.size ≤ n
    · have more : m.globals.size ≤ n + 1 := Nat.le_succ_of_le missing
      have inside : n < (resize m.globals (n + 1)).size := by
        rw [resize_size]
        omega
      have word : n + 1 < sizeWord := by
        simp only [globalCapacity] at below
        simp only [sizeWord, UInt64.size]
        omega
      have run : Running.setGlobal op n v m = .ok () { m with globals := (resize m.globals (n + 1)).setIfInBounds n v } := by
        simp only [Running.setGlobal, below, if_true, resize_more more]
      have checked : setGlobal op n v m = .ok () { m with globals := (resize m.globals (n + 1)).setIfInBounds n v } := by
        simp only [setGlobal, get_bind, Nat.not_le.mpr below, missing, if_true, if_false, plus, word, inRange_bind, replace,
          inside, set_apply]
      refine goes_on checked run (globals_set bounded (fun w present => ?_) ?_ n modest) trivial
      · rcases resize_mem present with old | rfl
        · exact bounded.globals w old
        · exact Value.modest_hereditary.null
      · rw [resize_size]
        exact below
    · have inside : n < m.globals.size := Nat.not_le.mp missing
      have run : Running.setGlobal op n v m = .ok () { m with globals := m.globals.setIfInBounds n v } := by
        simp only [Running.setGlobal, below, if_true, Nat.sub_eq_zero_of_le inside, List.replicate_zero, Array.appendList_nil]
      have checked : setGlobal op n v m = .ok () { m with globals := m.globals.setIfInBounds n v } := by
        simp only [setGlobal, get_bind, Nat.not_le.mpr below, missing, if_false, replace, inside, if_true, inRange_bind,
          set_apply]
      exact goes_on checked run (globals_set bounded bounded.globals bounded.room n modest) trivial
  · have run : Running.setGlobal op n v m = .error (.fault (.invalidOperand op n)) m := by
      simp only [Running.setGlobal, below, if_false]
    have checked : setGlobal op n v m = .error (.fault (.invalidOperand op n)) m := by
      simp only [setGlobal, get_bind, Nat.not_lt.mp below, if_true, fail_apply]
    exact stops checked run bounded

-- Operands are small enough to be added to any place on the stack.
theorem localSlot_eq {m : Machine} (bounded : m.Bounded pool) (op : OpCode) {n : Nat} (small : n < 65536) : localSlot op n m =
    if m.frame.base + n < m.stack.size then .ok (m.frame.base + n) m else .error (.fault (.invalidOperand op n)) m := by
  have base := bounded.frame.base
  have word : m.frame.base + n < sizeWord := by
    simp only [stackCapacity] at base
    simp only [sizeWord, UInt64.size]
    omega
  simp only [localSlot, get_bind, plus, word, if_true, inRange_bind]
  split
  · rfl
  · rfl

theorem getLocal_checks (op : OpCode) {n : Nat} (small : n < 65536) :
    Checks pool (getLocal op n) (Running.getLocal op n) Value.Modest := by
  intro m bounded
  have slot := localSlot_eq bounded op small
  by_cases inside : m.frame.base + n < m.stack.size
  · rw [if_pos inside] at slot
    have found := Array.getElem?_eq_getElem inside
    have run : Running.getLocal op n m = .ok m.stack[m.frame.base + n] m := by
      simp only [Running.getLocal, found]
    have checked : getLocal op n m = .ok m.stack[m.frame.base + n] m := by
      simp only [getLocal, bind_goes slot, get_bind, entry, found, inRange_apply]
    exact goes_on checked run bounded (bounded.stack _ (Array.getElem_mem _))
  · rw [if_neg inside] at slot
    have run : Running.getLocal op n m = .error (.fault (.invalidOperand op n)) m := by
      simp only [Running.getLocal, Array.getElem?_eq_none (Nat.le_of_not_lt inside)]
    have checked : getLocal op n m = .error (.fault (.invalidOperand op n)) m := by
      rw [getLocal, bind_stops slot]
    exact stops checked run bounded

theorem setLocal_checks (op : OpCode) {n : Nat} (small : n < 65536) {v : Value} (modest : v.Modest) :
    Checks pool (setLocal op n v) (Running.setLocal op n v) fun _ => True := by
  intro m bounded
  have slot := localSlot_eq bounded op small
  by_cases inside : m.frame.base + n < m.stack.size
  · rw [if_pos inside] at slot
    have run : Running.setLocal op n v m = .ok () { m with stack := m.stack.setIfInBounds (m.frame.base + n) v } := by
      simp only [Running.setLocal, inside, if_true]
    have checked : setLocal op n v m = .ok () { m with stack := m.stack.setIfInBounds (m.frame.base + n) v } := by
      simp only [setLocal, bind_goes slot, get_bind, replace, inside, if_true, inRange_bind, set_apply]
    refine goes_on checked run (bounded.restack (fun w present => ?_) ?_) trivial
    · rcases Array.mem_or_eq_of_mem_setIfInBounds present with old | rfl
      · exact bounded.stack w old
      · exact modest
    · rw [Array.size_setIfInBounds]
      exact bounded.height
  · rw [if_neg inside] at slot
    have run : Running.setLocal op n v m = .error (.fault (.invalidOperand op n)) m := by
      simp only [Running.setLocal, inside, if_false]
    have checked : setLocal op n v m = .error (.fault (.invalidOperand op n)) m := by
      rw [setLocal, bind_stops slot]
    exact stops checked run bounded

theorem runningFrame_eq (m : Machine) : runningFrame m = .ok m.frame m := by
  have positive : 1 ≤ m.frames.size := by simp [Machine.frames]
  have last : m.frames[m.frames.size - 1]? = Option.some m.frame := by simp [Machine.frames]
  simp only [runningFrame, get_bind, minus, positive, if_true, inRange_bind, entry, last, inRange_apply]

theorem captured_checks (op : OpCode) (n : Nat) : Checks pool (captured op n) (Running.captured op n) Value.Modest := by
  intro m bounded
  have frame := runningFrame_eq m
  cases found : m.frame.captured[n]? with
  | some v =>
    have run : Running.captured op n m = .ok v m := by
      simp only [Running.captured, found]
    have checked : captured op n m = .ok v m := by
      simp only [captured, bind_goes frame, found, pure_apply]
    exact goes_on checked run bounded (Value.modest_hereditary.inside bounded.frame.modest v (List.mem_of_getElem? found))
  | none =>
    have run : Running.captured op n m = .error (.fault (.invalidOperand op n)) m := by
      simp only [Running.captured, found]
    have checked : captured op n m = .error (.fault (.invalidOperand op n)) m := by
      simp only [captured, bind_goes frame, found, fail_apply]
    exact stops checked run bounded

theorem native_checks (b : Builtin) {args : List Value} (each : ∀ v ∈ args, v.Modest) :
    Checks pool (native b args) (Running.ofExcept (Operation.call b args)) fun r => r.1.Modest := by
  have gives := Operation.call_gives Value.modest_hereditary (b := b) each
  have keeps : Keeps pool (Running.ofExcept (Operation.call b args)) fun r => r.1.Modest := by
    cases result : Operation.call b args with
    | ok r =>
      rw [result] at gives
      exact keeps_pure gives
    | error f => exact keeps_fail f
  unfold native
  split
  · rename_i first items
    have positive : 1 ≤ (first :: items).toArray.size := by simp
    refine fun m bounded => ⟨?_, (keeps m bounded).2⟩
    simp only [splitAt, positive, if_true, inRange_bind, pure_apply]
    simp [plain, Operation.call, Operation.native, Builtin.arity?, Running.ofExcept]
    rfl
  · exact keeps

theorem invoked_bounded {m : Machine} (bounded : m.Bounded pool) {routine : Routine} {closed : List Value}
    (modest : (Value.closure routine closed).Modest) {given : Nat} (deep : m.callers.size + 1 < frameCapacity)
    (small : m.wanted routine ≤ stackCapacity) : Machine.Bounded pool (m.entering routine closed given) := by
  refine ⟨bounded.constants, bounded.pool, bounded.globals, ?_, ⟨?_, modest⟩, ?_, bounded.room, ?_, ?_⟩
  · intro v present
    rcases Machine.entering_mem present with old | rfl
    · exact bounded.stack v old
    · exact Value.modest_hereditary.null
  · exact Nat.le_trans (Nat.sub_le ..) bounded.height
  · intro f present
    rcases Array.mem_push.mp present with old | rfl
    · exact bounded.callers f old
    · exact bounded.frame
  · rw [Machine.entering_size]
    exact small
  · simp only [Machine.entering, Array.size_push]
    exact deep

-- A function that is called: its arguments are there, and its locals fit into the machine's words.
theorem invoke_checks {m : Machine} (bounded : m.Bounded pool) {routine : Routine} {closed : List Value}
    (modest : (Value.closure routine closed).Modest) {given : Nat} (enough : given ≤ m.stack.size) :
    invoke routine closed given m = plain (Running.invoke routine closed given) m ∧
      Within pool (fun _ => True) (Running.invoke routine closed given m) := by
  have height := bounded.height
  have frames : m.frames.size = m.callers.size + 1 := Array.size_push ..
  by_cases fits : given = routine.parameters
  · subst fits
    have same : ¬ routine.parameters ≠ routine.parameters := fun different => different rfl
    by_cases deep : frameCapacity ≤ m.frames.size
    · have checked : invoke routine closed routine.parameters m = .error (.fault .stackOverflow) m := by
        simp only [invoke, get_bind, same, deep, if_true, if_false, fail_apply]
      exact stops checked (Running.invoke_deep closed deep) bounded
    · have shallow : m.frames.size < frameCapacity := Nat.not_le.mp deep
      have word : m.wanted routine < sizeWord := by
        have locals := (modest.callee rfl).2
        simp only [stackCapacity] at height
        simp only [UInt32.size] at locals
        simp only [Machine.wanted, Routine.further, sizeWord, UInt64.size]
        omega
      have asked : plus m.stack.size (routine.locals - routine.parameters) = inRange (some (m.wanted routine)) :=
        congrArg inRange (if_pos word)
      by_cases full : stackCapacity < m.wanted routine
      · have checked : invoke routine closed routine.parameters m = .error (.fault .stackOverflow) m := by
          simp only [invoke, get_bind, same, deep, minus, enough, asked, full, if_true, if_false, inRange_bind, fail_apply]
        exact stops checked (Running.invoke_full closed shallow full word) bounded
      · have room := Nat.not_lt.mp full
        have nulls : resize m.stack (m.wanted routine) = m.stack ++ List.replicate routine.further Value.null := by
          rw [Machine.wanted, resize_more (Nat.le_add_right ..), Nat.add_sub_cancel_left]
        have checked : invoke routine closed routine.parameters m =
            .ok () (m.entering routine closed routine.parameters) := by
          simp only [invoke, get_bind, same, deep, minus, enough, asked, full, if_true, if_false, inRange_bind, set_apply,
            Machine.entering, nulls]
        exact goes_on checked (Running.invoke_reserves closed shallow room)
          (invoked_bounded bounded modest (frames ▸ shallow) room) trivial
  · have checked : invoke routine closed given m = .error (.fault (.wrongArgumentCount routine.parameters given)) m := by
      simp only [invoke, get_bind, ne_eq, fits, not_false_eq_true, if_true, fail_apply]
    exact stops checked (Running.invoke_mismatched closed fits) bounded

theorem print_checks (lines : List String) : Checks pool (modify fun m => { m with output := m.output ++ lines })
    (modify fun m => { m with output := m.output ++ lines }) fun _ => True := by
  intro m bounded
  exact goes_on rfl rfl ⟨bounded.constants, bounded.pool, bounded.globals, bounded.stack, bounded.frame, bounded.callers,
    bounded.room, bounded.height, bounded.depth⟩ trivial

theorem callOf_checks {m : Machine} (bounded : m.Bounded pool) {given : Nat} (enough : given ≤ m.stack.size) {v : Value}
    (modest : v.Modest) : callOf given v m = plain (Running.callOf given v) m ∧
      Within pool (fun _ => True) (Running.callOf given v m) := by
  cases v with
  | closure routine closed => exact invoke_checks bounded modest enough
  | function routine =>
    have closed : (Value.closure routine []).Modest := by
      refine .of (fun f n called => ?_) fun part present => by cases present
      cases called
      exact modest.callee rfl
    exact invoke_checks bounded closed enough
  | builtin b =>
    have whole : Checks pool (callOf given (.builtin b)) (Running.callOf given (.builtin b)) fun _ => True :=
      checks_bind (popMany_checks given) fun args each =>
        checks_bind pop_keeps fun _ _ =>
          checks_bind (native_checks b each) fun result modest =>
            checks_bind (print_checks result.2) fun _ _ => push_keeps modest
    exact whole m bounded
  | _ => exact stops rfl rfl bounded

theorem call_checks {given : Nat} (small : given < 65536) : Checks pool (call given) (Running.call given) fun _ => True := by
  intro m bounded
  have word : given + 1 < sizeWord := by
    simp only [sizeWord, UInt64.size]
    omega
  by_cases short : m.stack.size < given + 1
  · have checked : call given m = .error (.fault .stackUnderflow) m := by
      simp only [call, get_bind, plus, word, short, if_true, inRange_bind, fail_apply]
    exact stops checked (Running.call_short short) bounded
  · have below : m.stack.size - (given + 1) < m.stack.size := by omega
    have found := Array.getElem?_eq_getElem below
    have checked : call given m = callOf given m.stack[m.stack.size - (given + 1)] m := by
      simp only [call, get_bind, plus, word, short, if_true, if_false, inRange_bind, entry, found]
    have run := Running.call_run (Nat.not_lt.mp short) found
    exact goes_as checked run (callOf_checks bounded (by omega) (bounded.stack _ (Array.getElem_mem _)))

theorem pushes_keeps {v : Value} (modest : v.Modest) : Keeps pool (do Running.push v; return Signal.next) fun _ => True :=
  keeps_bind (push_keeps modest) fun _ _ => keeps_pure trivial

theorem index_keeps : Keeps pool (do
    let position ← Running.pop
    let target ← Running.pop
    Running.push (← Running.ofExcept (Operation.index target position))
    return Signal.next) fun _ => True :=
  keeps_bind pop_keeps fun _ _ => keeps_bind pop_keeps fun _ modest =>
    keeps_bind (ofExcept_keeps (Operation.index_gives Value.modest_hereditary modest)) fun _ result => pushes_keeps result

theorem unary_keeps (op : OpCode) : Keeps pool (do
    let operand ← Running.pop
    Running.push (← Running.ofExcept (Operation.unary op operand))
    return Signal.next) fun _ => True :=
  keeps_bind pop_keeps fun operand _ =>
    keeps_bind (ofExcept_keeps (Value.modest_hereditary.plain (Operation.unary_plain op operand))) fun _ result =>
      pushes_keeps result

theorem jumpUnless_keeps (target : Nat) : Keeps pool (do
    let condition ← Running.pop
    if !condition.truthy then Running.jump target
    return Signal.next) fun _ => True := by
  refine keeps_bind pop_keeps fun condition _ => ?_
  by_cases truthy : condition.truthy
  · simp only [truthy, Bool.not_true, Bool.false_eq_true, if_false]
    exact keeps_pure trivial
  · simp only [truthy, Bool.not_false, if_true]
    exact keeps_bind (jump_keeps target) fun _ _ => keeps_pure trivial

theorem getBuiltin_keeps (a b : Nat) : Keeps pool (Running.execute .getBuiltin a b) fun _ => True := by
  cases known : Builtin.ofIndex? a with
  | some builtin =>
    rw [Running.execute_getBuiltin known]
    exact pushes_keeps (Value.modest_hereditary.simple rfl rfl)
  | none =>
    have same : Running.execute .getBuiltin a b = Running.fail (.invalidOperand .getBuiltin a) := by
      simp only [Running.execute, known]
      rfl
    rw [same]
    exact keeps_fail _

theorem execute_checks (op : OpCode) {a b : Nat} (small : a < 65536) :
    Checks pool (execute op a b) (Running.execute op a b) fun _ => True := by
  have next : Checks pool (pure Signal.next) (pure Signal.next) fun _ => True := checks_pure trivial
  have pushes {v : Value} (modest : v.Modest) : Checks pool (do plain (Running.push v); return Signal.next)
      (do Running.push v; return Signal.next) fun _ => True := checks_bind (push_keeps modest) fun _ _ => next
  have simple {v : Value} (noFunction : v.callee? = none) (noParts : v.parts = []) : v.Modest :=
    Value.modest_hereditary.simple noFunction noParts
  cases op with
  | constant => exact keeps_bind (constant_keeps .constant a) fun v modest => pushes_keeps modest
  | pop => exact keeps_bind drop_keeps fun _ _ => keeps_pure trivial
  | pushTrue | pushFalse | pushNull => exact pushes_keeps (simple rfl rfl)
  | minus | bang => exact unary_keeps _
  | jump => exact keeps_bind (jump_keeps a) fun _ _ => keeps_pure trivial
  | jumpUnless => exact jumpUnless_keeps a
  | getGlobal => exact keeps_bind (global_keeps a) fun v modest => pushes_keeps modest
  | index => exact index_keeps
  | returnValue => exact keeps_bind pop_keeps fun v modest => leave_keeps modest
  | returnNull => exact leave_keeps Value.modest_hereditary.null
  | getBuiltin => exact getBuiltin_keeps a b
  | add | sub | mul | div | equal | notEqual | greater | atLeast =>
    exact checks_bind pop_keeps fun lhs _ => checks_bind pop_keeps fun rhs _ =>
      checks_bind (binary_checks _ _ _) fun v modest => pushes modest
  | setGlobal | assignGlobal =>
    exact checks_bind pop_keeps fun v modest => checks_bind (setGlobal_checks _ a modest) fun _ _ => next
  | setLocal | assignLocal =>
    exact checks_bind pop_keeps fun v modest => checks_bind (setLocal_checks _ small modest) fun _ _ => next
  | getLocal => exact checks_bind (getLocal_checks .getLocal small) fun v modest => pushes modest
  | array => exact checks_bind (popMany_checks a) fun items each => pushes (Value.modest_hereditary.outer rfl each)
  | hash =>
    refine checks_bind (popMany_checks a) fun items each => ?_
    have nothing : ∀ pair ∈ ([] : List (Key × Value)), pair.2.Modest := by simp
    exact checks_bind (ofExcept_keeps (Running.pairUp_gives Value.modest_hereditary each nothing)) fun v modest => pushes modest
  | call => exact checks_bind (call_checks small) fun _ _ => next
  | closure =>
    refine checks_bind (constant_keeps .closure a) fun v modest => ?_
    cases v with
    | function routine =>
      refine checks_bind (popMany_checks b) fun closed each => pushes (.of (fun f n called => ?_) each)
      cases called
      exact modest.callee rfl
    | _ => exact checks_fail _
  | getFree => exact checks_bind (captured_checks .getFree a) fun v modest => pushes modest
  | currentClosure =>
    intro m bounded
    exact goes_as (bind_goes (runningFrame_eq m)) rfl (pushes bounded.frame.modest m bounded)

theorem step_checks : Checks pool step Running.step fun _ => True := by
  intro m bounded
  cases item : m.frame.routine.code.itemAt m.frame.next with
  | instruction i =>
    have small : i.operands[0]?.getD 0 < 65536 := by
      cases first : i.operands[0]? with
      | none => exact Nat.zero_lt_succ _
      | some n => exact Code.operand_small item n (List.mem_of_getElem? first)
    have moved := (jump_keeps (m.frame.next + i.opcode.width) m bounded).2.1
    have checked : step m = execute i.opcode (i.operands[0]?.getD 0) (i.operands[1]?.getD 0)
        (Running.goto m (m.frame.next + i.opcode.width)) := by
      simp only [step, get_bind, item]
      rfl
    obtain ⟨same, ends⟩ := execute_checks i.opcode (b := i.operands[1]?.getD 0) small _ moved
    rw [plain, Machine.step_at item, checked]
    exact ⟨same, ends⟩
  | nothing =>
    have same : step m = plain Running.step m := by simp only [step, get_bind, item]
    refine ⟨same, ?_⟩
    by_cases main : m.callers = #[]
    · rw [Running.step_end item main]
      exact ⟨bounded, trivial⟩
    · rw [Running.step_back item main]
      exact (leave_keeps Value.modest_hereditary.null m bounded).2
  | unknown byte =>
    have same : step m = plain Running.step m := by simp only [step, get_bind, item]
    refine ⟨same, ?_⟩
    rw [Running.step_unknown item]
    exact bounded
  | truncated op =>
    have same : step m = plain Running.step m := by simp only [step, get_bind, item]
    refine ⟨same, ?_⟩
    rw [Running.step_truncated item]
    exact bounded

end Checked

namespace Machine

theorem Bounded.after_run {pool : Array Value} {budget : Nat} {m : Machine} (bounded : m.Bounded pool) :
    (m.run budget).2.Bounded pool := by
  induction budget generalizing m with
  | zero => exact bounded
  | succ budget ih =>
    have ends := (Checked.step_checks m bounded).2
    rw [Machine.run]
    cases step : Running.step m with
    | ok signal n =>
      rw [step] at ends
      cases signal with
      | next => exact ih ends.1
      | halt => exact ends.1
    | error stop n =>
      rw [step] at ends
      exact ends.bounded

theorem start_bounded {b : Bytecode} {globals : Array Value} (few : globals.size ≤ globalCapacity)
    (constants : ∀ v ∈ b.constants, v.Modest) (values : ∀ v ∈ globals, v.Modest) : (start b globals).Bounded b.constants := by
  have one : 0 + 1 ≤ frameCapacity := by decide
  refine ⟨rfl, constants, values, ?_, ⟨Nat.zero_le _, ?_⟩, ?_, few, Nat.zero_le _, one⟩
  · intro v present
    simp [start] at present
  · refine .of (fun f n called => ?_) fun part present => by cases present
    cases called
    exact ⟨Nat.two_pow_pos 32, Nat.two_pow_pos 32⟩
  · intro f present
    simp [start] at present

structure InRange (constants : Array Value) (m : Machine) : Prop where
  stack : m.stack.size ≤ 2048
  frames : 1 ≤ m.frames.size ∧ m.frames.size ≤ 1024
  globals : m.globals.size ≤ 65536
  constants : m.constants = constants
  -- the checked step goes on, ends the run, or fails as a run may
  next : (∃ n, Checked.step m = .ok .next n) ∨ (∃ n, Checked.step m = .ok .halt n) ∨
    ∃ f n, Checked.step m = .error (.fault f) n
  plain : Checked.step m = Checked.plain Running.step m

theorem Bounded.inRange {pool : Array Value} {m : Machine} (bounded : m.Bounded pool) : m.InRange pool := by
  have frames : m.frames.size = m.callers.size + 1 := Array.size_push ..
  obtain ⟨same, within⟩ := Checked.step_checks m bounded
  refine ⟨bounded.height, ⟨by omega, frames ▸ bounded.depth⟩, bounded.room, bounded.constants, ?_, same⟩
  rw [same, Checked.plain]
  cases step : Running.step m with
  | ok signal n =>
    cases signal with
    | next => exact .inl ⟨n, rfl⟩
    | halt => exact .inr (.inl ⟨n, rfl⟩)
  | error stop n =>
    rw [step] at within
    cases stop with
    | fault f => exact .inr (.inr ⟨f, n, rfl⟩)
    | additionOverflow => exact within.elim

-- Whatever the code and the values that a machine starts with, after any number of steps it is within its limits, its
-- constants are those given, and no access of its next step is out of range.
theorem run_in_range (b : Bytecode) (globals : Array Value) (budget : Nat) (few : globals.size ≤ 65536)
    (constants : ∀ v ∈ b.constants, v.Modest) (values : ∀ v ∈ globals, v.Modest) :
    ((start b globals).run budget).2.InRange b.constants :=
  (start_bounded few constants values).after_run.inRange

-- A function that takes itself off the stack and then comes back to below where it stood.
def sinking : Bytecode := ⟨#[0, 0, 0, 23, 0], #[.function ⟨#[1, 16, 24], 0, 0⟩]⟩

theorem run_in_range_sinking : (∀ v ∈ sinking.constants, v.Modest) ∧
    ((start sinking #[]).run 3).2.stack.size < ((start sinking #[]).run 3).2.frame.base ∧
    ((start sinking #[]).run 3).2.frames.size ≤ 1024 ∧
    Checked.step ((start sinking #[]).run 3).2 = Checked.plain Running.step ((start sinking #[]).run 3).2 ∧
    ((start sinking #[]).run 6).1 = .halted := by
  have constants : ∀ v ∈ sinking.constants, v.Modest := by
    intro v present
    cases Array.mem_singleton.mp present
    refine .of (fun f n called => ?_) fun part present => by cases present
    cases called
    exact ⟨by decide, by decide⟩
  have low : ((start sinking #[]).run 3).2.stack.size < ((start sinking #[]).run 3).2.frame.base := by decide +kernel
  have safe := run_in_range sinking #[] 3 (Nat.zero_le _) constants (by simp)
  exact ⟨constants, low, safe.frames.2, safe.plain, by decide +kernel⟩

end Machine
end StackScript
