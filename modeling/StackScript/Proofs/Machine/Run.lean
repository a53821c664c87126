import StackScript.Proofs.Machine.Pieces
import StackScript.Proofs.Machine.Reserving

-- A sound machine stays sound as it runs, and never finds its code malformed.
namespace StackScript

-- A frame whose code is safe from its next instruction on, with the stack so high above its locals.
structure Frame.Good (pool : Array Value) (f : Frame) (nested : Bool) (h : Nat) : Prop where
  safe : Safe pool ⟨f.routine.code, f.routine.locals, f.captured.length, nested⟩ f.next h
  captured : ∀ v ∈ f.captured, v.Sound pool
  runs : nested = true → f.routine.Runs pool f.captured.length

-- The frames of a machine, the innermost first, and how many values its stack has. When a function is done, its value
-- replaces everything from its own value on, just below its locals.
inductive Chain (pool : Array Value) : List Frame → Frame → Nat → Prop where
  | main {f : Frame} {h : Nat} : f.Good pool false h → Chain pool [] f (f.base + f.routine.locals + h)
  | called {f caller : Frame} {callers : List Frame} {h : Nat} : f.Good pool true h → 0 < f.base →
      Chain pool callers caller f.base → Chain pool (caller :: callers) f (f.base + f.routine.locals + h)

structure Machine.Sound (pool : Array Value) (m : Machine) : Prop where
  constants : m.constants = pool
  globals : ∀ v ∈ m.globals, v.Sound pool
  stack : ∀ v ∈ m.stack, v.Sound pool
  small : m.stack.size ≤ Machine.stackCapacity
  chain : Chain pool m.callers.toList.reverse m.frame m.stack.size

theorem Chain.move {pool : Array Value} {callers : List Frame} {f : Frame} {size : Nat} (chain : Chain pool callers f size) :
    ∃ nested h, size = f.base + f.routine.locals + h ∧ f.Good pool nested h ∧ (nested = false → callers = []) ∧
      (∀ next g, Safe pool ⟨f.routine.code, f.routine.locals, f.captured.length, nested⟩ next g →
        Chain pool callers { f with next } (f.base + f.routine.locals + g)) ∧
      (nested = true → ∃ caller rest, callers = caller :: rest ∧ 0 < f.base ∧ Chain pool rest caller f.base) := by
  cases chain with
  | @main f h good =>
    refine ⟨false, h, rfl, good, fun _ => rfl, fun next g safe => ?_, fun nested => by cases nested⟩
    have moved : Frame.Good pool { f with next } false g := ⟨safe, good.captured, fun nested => by cases nested⟩
    exact .main moved
  | @called f caller callers h good above outer =>
    refine ⟨true, h, rfl, good, fun main => (by cases main), fun next g safe => ?_, fun _ => ⟨caller, callers, rfl, above, outer⟩⟩
    have moved : Frame.Good pool { f with next } true g := ⟨safe, good.captured, good.runs⟩
    exact .called moved above outer

namespace Running

variable {pool : Array Value} {m n : Machine} {s : Nat}

-- After a step that goes on the machine is sound again; after the last one its globals are.
def After (pool : Array Value) (signal : Signal) (m : Machine) : Prop :=
  match signal with
  | .next => m.Sound pool
  | .halt => ∀ v ∈ m.globals, v.Sound pool

theorem unary_ensures {op : OpCode} (holding : Holding pool m n (s + 1)) :
    Ensures pool (do let operand ← pop; push (← ofExcept (Operation.unary op operand)); return Signal.next) n
      fun signal o => signal = .next ∧ Holding pool m o (s + 1) := by
  refine ensures_then (pop_ensures holding) fun operand o ⟨_, popped⟩ => ?_
  refine ensures_then (ofExcept_ensures popped ((Operation.unary_plain op operand).sound pool)) fun v o ⟨sound, held⟩ => ?_
  exact ensures_then (push_ensures held sound) fun _ o pushed => ⟨rfl, pushed⟩

theorem binary_ensures {f : Value → Value → Except Fault Value} (holding : Holding pool m n (s + 2))
    (sound : ∀ lhs rhs, lhs.Sound pool → Value.SoundResult pool (f lhs rhs)) :
    Ensures pool (do let rhs ← pop; let lhs ← pop; push (← ofExcept (f lhs rhs)); return Signal.next) n
      fun signal o => signal = .next ∧ Holding pool m o (s + 1) := by
  refine ensures_then (pop_ensures holding) fun rhs o ⟨_, popped⟩ => ?_
  refine ensures_then (pop_ensures popped) fun lhs o ⟨left, popped⟩ => ?_
  refine ensures_then (ofExcept_ensures popped (sound lhs rhs left)) fun v o ⟨result, held⟩ => ?_
  exact ensures_then (push_ensures held result) fun _ o pushed => ⟨rfl, pushed⟩

theorem pushes_ensures {v : Value} (holding : Holding pool m n s) (sound : v.Sound pool) :
    Ensures pool (do push v; return Signal.next) n fun signal o => signal = .next ∧ Holding pool m o (s + 1) :=
  ensures_then (push_ensures holding sound) fun _ _ pushed => ⟨rfl, pushed⟩

theorem plain_ensures {i : Instruction} {takes gives : Nat} (effect : i.effect? = some (takes, gives))
    (straight : i.opcode ≠ .returnValue) (local_ : i.opcode ≠ .call) (holding : Holding pool m n (s + takes)) :
    Ensures pool (execute i.opcode (i.operands[0]?.getD 0) (i.operands[1]?.getD 0)) n
      fun signal o => signal = .next ∧ Holding pool m o (s + gives) := by
  have binary {op : OpCode} (holding : Holding pool m n (s + 2)) := binary_ensures (f := Operation.binary op) holding
    (fun lhs rhs _ => (Operation.binary_plain op lhs rhs).sound pool)
  unfold Instruction.effect? at effect
  split at effect
  all_goals cases effect
  case h_1 | h_2 | h_3 => exact pushes_ensures holding (.simple rfl rfl)
  case h_4 | h_5 => exact unary_ensures holding
  case h_6 | h_7 | h_8 | h_9 | h_10 | h_11 | h_12 | h_13 => exact binary holding
  case h_14 => exact binary_ensures holding fun target position sound => Operation.index_sound sound
  case h_15 k =>
    refine ensures_then (popMany_ensures holding) fun items o ⟨_, each, popped⟩ => ?_
    exact pushes_ensures popped (.array each)
  case h_16 k =>
    refine ensures_then (popMany_ensures holding) fun items o ⟨_, each, popped⟩ => ?_
    refine ensures_then (ofExcept_ensures popped (pairUp_sound each (by simp))) fun v o ⟨sound, held⟩ => ?_
    exact pushes_ensures held sound
  case h_17 => exact absurd rfl local_
  case h_18 => exact ensures_then (drop_ensures holding) fun _ o dropped => ⟨rfl, dropped⟩
  case h_19 => exact absurd rfl straight

-- The function lies below its arguments, and it is called from a frame that goes on with one value in their place.
theorem invoke_ensures {f : Routine} {captured : List Value} {given : Nat} (runs : f.Runs pool captured.length)
    (each : ∀ v ∈ captured, v.Sound pool) (holding : Holding pool m n (s + given + 1)) (constants : m.constants = pool)
    (chain : Chain pool m.callers.toList.reverse m.frame (s + 1)) :
    Ensures pool (invoke f captured given) n fun _ o => o.Sound pool := by
  have size := holding.size
  have small := holding.small
  have locals := runs.locals
  have parameters := runs.parameters
  unfold Ensures
  cases run : invoke f captured given n with
  | ok u o =>
    obtain ⟨rfl, -, room, rfl⟩ := invoke_ok run
    have word : n.wanted f = s + 1 + f.locals := by
      simp only [Machine.wanted, Routine.further]
      omega
    refine ⟨holding.constants.trans constants, holding.globals, ?_, ?_, ?_⟩
    · intro v present
      rcases Machine.entering_mem present with old | rfl
      · exact holding.stack v old
      · exact Operation.null_sound
    · rw [Machine.entering_size]
      exact room
    · have base : n.stack.size - f.parameters = s + 1 := by omega
      have callers : (n.callers.push n.frame).toList.reverse = m.frame :: m.callers.toList.reverse := by
        rw [Array.toList_push, List.reverse_append, holding.frame, holding.callers]
        rfl
      rw [Machine.entering_size, word]
      simp only [Machine.entering, callers, base]
      have good : Frame.Good pool ⟨f, captured, 0, s + 1⟩ true 0 := ⟨runs.safe, each, fun _ => runs⟩
      exact .called good (Nat.succ_pos s) chain
  | error stop o =>
    obtain ⟨rfl, rfl | rfl | ⟨rfl, beyond⟩⟩ := invoke_error run
    · exact ⟨id, holding.globals⟩
    · exact ⟨id, holding.globals⟩
    · -- the compiler's numbers of locals are far below it
      simp only [Machine.stackCapacity] at small
      simp only [Machine.wanted, Routine.further, Machine.sizeWord, UInt64.size] at beyond
      omega

theorem call_ensures {given : Nat} (holding : Holding pool m n (s + (given + 1))) (constants : m.constants = pool)
    (chain : Chain pool m.callers.toList.reverse m.frame (s + 1))
    (rest : ∀ o, Holding pool m o (s + 1) → o.Sound pool) :
    Ensures pool (do call given; return Signal.next) n (After pool) := by
  refine ensures_then (P := fun _ o => o.Sound pool) ?_ fun _ o sound => sound
  have size := holding.size
  refine ensures_get ?_
  have enough : ¬ n.stack.size < given + 1 := by omega
  simp only [enough, if_false]
  have below : n.stack.size - (given + 1) < n.stack.size := by omega
  have callee := holding.stack _ (Array.getElem_mem below)
  rw [Array.getElem?_eq_getElem below, Option.getD_some]
  cases value : n.stack[n.stack.size - (given + 1)] with
  | closure f captured =>
    rw [value] at callee
    exact invoke_ensures (callee.callee rfl) (fun v present => callee.inside (w := v) present) holding constants chain
  | function f =>
    rw [value] at callee
    have nothing : ∀ v ∈ ([] : List Value), v.Sound pool := by simp
    exact invoke_ensures (callee.callee rfl) nothing holding constants chain
  | builtin b =>
    rw [Nat.add_comm given, ← Nat.add_assoc] at holding
    refine ensures_then (popMany_ensures holding) fun args o ⟨_, each, popped⟩ => ?_
    refine ensures_then (pop_ensures popped) fun _ o ⟨_, popped⟩ => ?_
    have result := Operation.call_sound (b := b) each
    cases called : Operation.call b args with
    | error f =>
      rw [called] at result
      exact ⟨result, popped.globals⟩
    | ok pair =>
      rw [called] at result
      have printed : Holding pool m { o with output := o.output ++ pair.2 } s :=
        ⟨popped.constants, popped.frame, popped.callers, popped.globals, popped.stack, popped.size, popped.small⟩
      exact ensures_mono (push_ensures printed result) fun _ o pushed => rest o pushed
  | _ => exact ⟨id, holding.globals⟩

theorem leave_ensures {v : Value} (holding : Holding pool m n s) (constants : m.constants = pool) (sound : v.Sound pool)
    (enough : m.frame.base ≤ s)
    (back : m.callers.toList.reverse = [] ∨ ∃ caller rest, m.callers.toList.reverse = caller :: rest ∧ 0 < m.frame.base ∧
      Chain pool rest caller m.frame.base) : Ensures pool (leave v) n (After pool) := by
  have size := holding.size
  have small := holding.small
  unfold leave
  rcases back with outermost | ⟨caller, rest, callers, above, chain⟩
  · have empty : n.callers = #[] := by
      rw [holding.callers]
      simpa using outermost
    simp only [Ensures, empty]
    exact holding.globals
  · have shape : m.callers = rest.reverse.toArray.push caller := by
      apply Array.toList_inj.mp
      rw [← List.reverse_reverse m.callers.toList, callers]
      simp
    have top : n.callers.back? = some caller := by
      rw [holding.callers, shape, Array.back?_push]
    simp only [Ensures, top]
    have shrunk : Holding pool { m with frame := caller, callers := n.callers.pop }
        { n with stack := n.stack.shrink (n.frame.base - 1), frame := caller, callers := n.callers.pop }
        (m.frame.base - 1) := by
      refine ⟨holding.constants, rfl, rfl, holding.globals, ?_, ?_, ?_⟩
      · intro w present
        obtain ⟨i, _, rfl⟩ := Array.mem_iff_getElem.mp present
        simp only [Array.getElem_shrink]
        exact holding.stack _ (Array.getElem_mem _)
      · simp only [Array.size_shrink, holding.frame]
        omega
      · simp only [Array.size_shrink]
        omega
    have pushed := push_ensures shrunk sound
    unfold Ensures at pushed
    split
    · rename_i o equal
      split at equal
      · rename_i _ p run
        cases equal
        rw [run] at pushed
        refine ⟨pushed.constants.trans constants, pushed.globals, pushed.stack, pushed.small, ?_⟩
        rw [pushed.callers, pushed.frame, pushed.size, Nat.sub_add_cancel above, holding.callers, shape]
        simpa using chain
      · cases equal
    · rename_i f o equal
      split at equal
      · cases equal
      · rename_i _ p run
        cases equal
        rw [run] at pushed
        exact pushed

def goto (m : Machine) (next : Nat) : Machine := { m with frame := { m.frame with next } }

theorem jump_ensures (t : Nat) (holding : Holding pool m n s) :
    Ensures pool (jump t) n fun _ o => Holding pool (goto m t) o s :=
  ⟨holding.constants, congrArg (fun f : Frame => { f with next := t }) holding.frame, holding.callers, holding.globals,
    holding.stack, holding.size, holding.small⟩

theorem step_instruction {i : Instruction} {Q : Signal → Machine → Prop}
    (item : m.frame.routine.code.itemAt m.frame.next = .instruction i)
    (done : Ensures pool (execute i.opcode (i.operands[0]?.getD 0) (i.operands[1]?.getD 0))
      (goto m (m.frame.next + i.opcode.width)) Q) :
    Ensures pool step m Q := by
  unfold step
  refine ensures_get ?_
  simp only [item]
  exact done

theorem execute_getBuiltin {n b : Nat} {builtin : Builtin} (known : Builtin.ofIndex? n = some builtin) :
    execute .getBuiltin n b = (do push (.builtin builtin); return Signal.next) := by
  simp only [execute, known]

theorem literal_sound {v : Value} (literal : v.Literal) : v.Sound pool := by
  cases v with
  | integer n => exact .simple rfl rfl
  | float x => exact .simple rfl rfl
  | string s => exact .simple rfl rfl
  | _ => exact literal.elim

-- A sound machine in front of a step: the region that its frame runs in, and how high its stack is above the locals.
structure Standing (pool : Array Value) (m : Machine) (r : Region) (h : Nat) : Prop where
  code : r.code = m.frame.routine.code
  locals : r.locals = m.frame.routine.locals
  captures : r.captured = m.frame.captured.length
  constants : m.constants = pool
  held : ∀ t, Holding pool (goto m t) (goto m t) (m.frame.base + r.locals + h)
  captured : ∀ v ∈ m.frame.captured, v.Sound pool
  runs : r.nested = true → m.frame.routine.Runs pool m.frame.captured.length
  main : r.nested = false → m.callers.toList.reverse = []
  back : r.nested = true → ∃ caller rest, m.callers.toList.reverse = caller :: rest ∧ 0 < m.frame.base ∧
    Chain pool rest caller m.frame.base
  -- where the code is safe, the frame may go on
  chain : ∀ t g, Safe pool r t g →
    Chain pool m.callers.toList.reverse { m.frame with next := t } (m.frame.base + r.locals + g)

theorem standing (sound : m.Sound pool) : ∃ r h, Standing pool m r h ∧ Safe pool r m.frame.next h := by
  obtain ⟨nested, h, size, good, main, move, back⟩ := sound.chain.move
  have held (t : Nat) : Holding pool (goto m t) (goto m t) (m.frame.base + m.frame.routine.locals + h) :=
    ⟨rfl, rfl, rfl, sound.globals, sound.stack, size, sound.small⟩
  exact ⟨_, h, ⟨rfl, rfl, rfl, sound.constants, held, good.captured, good.runs, main, back, move⟩, good.safe⟩

namespace Standing

variable {r : Region} {h t g : Nat} {i : Instruction}

theorem size (standing : Standing pool m r h) : m.stack.size = m.frame.base + m.frame.routine.locals + h := by
  rw [← standing.locals]
  exact (standing.held m.frame.next).size

theorem goes (standing : Standing pool m r h) (safe : Safe pool r t g)
    (holding : Holding pool (goto m t) n (m.frame.base + r.locals + g)) : n.Sound pool := by
  refine ⟨holding.constants.trans standing.constants, holding.globals, holding.stack, holding.small, ?_⟩
  rw [holding.callers, holding.frame, holding.size]
  exact standing.chain t g safe

theorem pushes {v : Value} (standing : Standing pool m r h) (safe : Safe pool r t (g + 1)) (sound : v.Sound pool)
    (holding : Holding pool (goto m t) n (m.frame.base + r.locals + g)) :
    Ensures pool (do push v; return Signal.next) n (After pool) := by
  refine ensures_mono (pushes_ensures holding sound) ?_
  rintro signal o ⟨rfl, held⟩
  exact standing.goes safe held

theorem returns {v : Value} (standing : Standing pool m r h) (sound : v.Sound pool) (enough : m.frame.base ≤ s)
    (holding : Holding pool (goto m t) n s) : Ensures pool (do return ← leave v) n (After pool) := by
  refine leave_ensures holding standing.constants sound enough ?_
  cases nested : r.nested with
  | false => exact .inl (standing.main nested)
  | true => exact .inr (standing.back nested)

theorem ends (standing : Standing pool m r h) (sound : m.Sound pool) (outside : r.nested = false)
    (next : m.frame.next = r.code.size) : Ensures pool step m (After pool) := by
  have empty : m.callers = #[] := by simpa using standing.main outside
  have nothing : m.frame.routine.code.itemAt m.frame.next = .nothing := by
    rw [next, standing.code, Code.itemAt, Array.getElem?_eq_none (Nat.le_refl _)]
  unfold step
  refine ensures_get ?_
  simp only [nothing]
  refine ensures_get ?_
  simp only [empty]
  exact sound.globals

theorem plain {takes gives : Nat} (standing : Standing pool m r (h + takes)) (effect : i.effect? = some (takes, gives))
    (straight : i.opcode ≠ .returnValue) (rest : Safe pool r t (h + gives)) :
    Ensures pool (execute i.opcode (i.operands[0]?.getD 0) (i.operands[1]?.getD 0)) (goto m t) (After pool) := by
  have held := standing.held t
  by_cases call : i.opcode = .call
  · obtain ⟨given, rfl, rfl, rfl⟩ := Instruction.effect_call effect call
    rw [← Nat.add_assoc] at held
    exact call_ensures held standing.constants (standing.chain t _ rest) fun o => standing.goes rest
  · rw [← Nat.add_assoc] at held
    refine ensures_mono (plain_ensures effect straight call held) ?_
    rintro signal n ⟨rfl, holding⟩
    rw [Nat.add_assoc] at holding
    exact standing.goes rest holding

theorem read (standing : Standing pool m r h) (reads : r.Reads i) (rest : Safe pool r t (h + 1)) :
    Ensures pool (execute i.opcode (i.operands[0]?.getD 0) (i.operands[1]?.getD 0)) (goto m t) (After pool) := by
  have held := standing.held t
  unfold Region.Reads at reads
  split at reads
  · exact ensures_then (global_ensures _ held) fun v o got => standing.pushes rest got.1 got.2
  · rename_i n
    have inside : m.frame.base + n < m.frame.base + r.locals + h := by omega
    exact ensures_then (getLocal_ensures held inside) fun v o got => standing.pushes rest got.1 got.2
  · rename_i n
    have known : Builtin.ofIndex? n = some Builtin.all[n] := List.getElem?_eq_getElem reads
    show Ensures pool (execute .getBuiltin n 0) _ _
    rw [execute_getBuiltin known]
    exact standing.pushes rest (.simple rfl rfl) held
  · rename_i n
    rw [standing.captures] at reads
    exact ensures_then (captured_ensures held reads standing.captured) fun v o got => standing.pushes rest got.1 got.2
  · refine ensures_get (standing.pushes rest (.of ?_ standing.captured) held)
    rintro f n equal
    cases equal
    exact standing.runs reads
  · cases reads

theorem write (standing : Standing pool m r (h + 1)) (writes : r.Writes i) (rest : Safe pool r t h) :
    Ensures pool (execute i.opcode (i.operands[0]?.getD 0) (i.operands[1]?.getD 0)) (goto m t) (After pool) := by
  have popped := pop_ensures (standing.held t)
  have inside {n : Nat} (below : n < r.locals) : m.frame.base + n < m.frame.base + r.locals + h := by omega
  unfold Region.Writes at writes
  split at writes
  · exact ensures_then popped fun v o got =>
      ensures_then (setGlobal_ensures got.2 got.1 writes) fun _ o held => standing.goes rest held
  · exact ensures_then popped fun v o got =>
      ensures_then (setGlobal_ensures got.2 got.1 writes) fun _ o held => standing.goes rest held
  · exact ensures_then popped fun v o got =>
      ensures_then (setLocal_ensures got.2 got.1 (inside writes)) fun _ o held => standing.goes rest held
  · exact ensures_then popped fun v o got =>
      ensures_then (setLocal_ensures got.2 got.1 (inside writes)) fun _ o held => standing.goes rest held
  · cases writes

theorem constant {k : Nat} {v : Value} (standing : Standing pool m r h) (present : pool[k]? = some v)
    (sound : v.Sound pool) (rest : Safe pool r t (h + 1)) :
    Ensures pool (execute .constant k 0) (goto m t) (After pool) := by
  rw [← standing.constants] at present
  refine ensures_then (constant_ensures (standing.held t) present) ?_
  rintro w o ⟨rfl, holding⟩
  exact standing.pushes rest sound holding

theorem closure {k count : Nat} {f : Routine} (standing : Standing pool m r (h + count))
    (present : pool[k]? = some (.function f)) (runs : f.Runs pool count) (rest : Safe pool r t (h + 1)) :
    Ensures pool (execute .closure k count) (goto m t) (After pool) := by
  rw [← standing.constants] at present
  refine ensures_then (constant_ensures (standing.held t) present) ?_
  rintro w o ⟨rfl, holding⟩
  rw [← Nat.add_assoc] at holding
  refine ensures_then (popMany_ensures holding) ?_
  rintro captured o ⟨rfl, each, popped⟩
  refine standing.pushes rest (.of ?_ each) popped
  rintro g n equal
  cases equal
  exact runs

theorem jumpUnless {target : Nat} (standing : Standing pool m r (h + 1)) (taken : Safe pool r target h)
    (rest : Safe pool r t h) : Ensures pool (execute .jumpUnless target 0) (goto m t) (After pool) := by
  refine ensures_then (pop_ensures (standing.held t)) ?_
  rintro condition o ⟨_, popped⟩
  by_cases truthy : condition.truthy
  · simp only [truthy, Bool.not_true, Bool.false_eq_true, if_false]
    exact standing.goes rest popped
  · simp only [truthy, Bool.not_false, if_true]
    exact ensures_then (jump_ensures target popped) fun _ o holding => standing.goes taken holding

end Standing

theorem function_sound {f : Routine} (runs : f.Runs pool 0) : (Value.function f).Sound pool := by
  refine .of ?_ fun part inside => by cases inside
  rintro g n equal
  cases equal
  exact runs

theorem step_ensures (sound : m.Sound pool) : Ensures pool step m (After pool) := by
  obtain ⟨r, h, standing, safe⟩ := standing sound
  generalize next : m.frame.next = a at safe
  have instruction {i : Instruction} (item : r.code.itemAt a = .instruction i)
      (done : Ensures pool (execute i.opcode (i.operands[0]?.getD 0) (i.operands[1]?.getD 0))
        (goto m (a + i.opcode.width)) (After pool)) : Ensures pool step m (After pool) := by
    rw [← next, standing.code] at item
    rw [← next] at done
    exact step_instruction item done
  cases safe with
  | ends outside => exact standing.ends sound outside next
  | plain item effect straight rest => exact instruction item (standing.plain effect straight rest)
  | read item reads rest => exact instruction item (standing.read reads rest)
  | write item writes rest => exact instruction item (standing.write writes rest)
  | literal item present literal rest =>
    exact instruction item (standing.constant present (literal_sound literal) rest)
  | function item present parameters locals inner rest =>
    have runs : Routine.Runs _ pool 0 := ⟨Array.mem_of_getElem? present, parameters, locals, inner⟩
    exact instruction item (standing.constant present (function_sound runs) rest)
  | closure item present parameters locals inner rest =>
    have runs : Routine.Runs _ pool _ := ⟨Array.mem_of_getElem? present, parameters, locals, inner⟩
    exact instruction item (standing.closure present runs rest)
  | jump item rest =>
    exact instruction item (ensures_then (jump_ensures _ (standing.held _)) fun _ o holding => standing.goes rest holding)
  | jumpUnless item taken rest => exact instruction item (standing.jumpUnless taken rest)
  | returnValue item =>
    refine instruction item (ensures_then (pop_ensures (standing.held _)) fun v o got => ?_)
    exact standing.returns got.1 (Nat.le_trans (Nat.le_add_right ..) (Nat.le_add_right ..)) got.2
  | returnNull item =>
    refine instruction item (standing.returns Operation.null_sound ?_ (standing.held _))
    exact Nat.le_trans (Nat.le_add_right ..) (Nat.le_add_right ..)

end Running

theorem Machine.Sound.after_step {pool : Array Value} {m n : Machine} (sound : m.Sound pool)
    (step : Running.step m = .ok .next n) : n.Sound pool := by
  have ensured := Running.step_ensures sound
  unfold Running.Ensures at ensured
  rw [step] at ensured
  exact ensured

end StackScript
