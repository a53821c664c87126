import StackScript.Proofs.Machine.Run
import StackScript.Proofs.Meaning.Environments

-- What single instructions do to a machine that stands where an evaluation is.
namespace StackScript

open Running (execute step push pop popMany)

section
variable {ε σ : Type}

theorem get_run (s : σ) : (get : EStateM ε σ σ) s = .ok s s := rfl

theorem modify_run (f : σ → σ) (s : σ) : (modify f : EStateM ε σ PUnit) s = .ok ⟨⟩ (f s) := rfl

end

namespace Machine

def holding (m : Machine) (stack : Array Value) : Machine := { m with stack }

theorem pop_run {m : Machine} {stack : Array Value} {v : Value} (top : m.stack = stack.push v) :
    pop m = .ok v (m.holding stack) := by
  simp [pop, top, holding]

theorem popMany_run {m : Machine} {stack : Array Value} {vs : List Value} (top : m.stack = stack ++ vs.toArray) :
    popMany vs.length m = .ok vs (m.holding stack) := by
  have size : m.stack.size = stack.size + vs.length := by simp [top]
  simp only [popMany, size, Nat.le_add_left, if_true, Nat.add_sub_cancel]
  have taken : (m.stack.extract stack.size (stack.size + vs.length)).toList = vs := by
    simp [top]
  have left : m.stack.shrink stack.size = stack := by
    rw [top]
    apply Array.toList_inj.mp
    simp
  rw [taken, left]
  rfl

theorem step_at {m : Machine} {i : Instruction} (item : m.frame.routine.code.itemAt m.frame.next = .instruction i) :
    step m = execute i.opcode (i.operands[0]?.getD 0) (i.operands[1]?.getD 0) (Running.goto m (m.frame.next + i.opcode.width)) := by
  simp only [step, bind, EStateM.bind, get_run, item, Running.jump, modify_run]
  rfl

theorem leads_push {m o : Machine} {v : Value} {goal : Machine → Prop}
    (run : step m = (do push v; return Signal.next : Running Signal) o)
    (reached : o.stack.size + 1 ≤ stackCapacity → goal (o.holding (o.stack.push v))) : m.Leads goal Overflow := by
  by_cases full : stackCapacity ≤ o.stack.size
  · refine .fail (o := o) ?_ rfl
    rw [run]
    simp [bind, EStateM.bind, push, full]
  · refine .next (o := o.holding (o.stack.push v)) ?_ (.here (reached (by omega)))
    rw [run]
    simp [bind, EStateM.bind, push, full, pure, EStateM.pure, holding]

end Machine

namespace Activation

def Arrives (a : Activation) (q : Point) (n : Names) (operands : List Value) : Datum → Situation → Machine → Prop :=
  fun d t o => a.Holds q n t (operands ++ [d.value]) o ∧ d.Sound a.Known

variable {a : Activation} {p q : Point} {n l : Names} {s t : Situation} {operands rest : List Value} {m o : Machine}
  {d : Datum}

theorem Holds.settle (holds : a.Holds p n s operands m) (frame : o.frame = (Running.goto m q.position).frame)
    (callers : o.callers = m.callers) (constants : o.constants = m.constants) (stack : o.stack = a.stack t.env.vars rest)
    (small : o.stack.size ≤ Machine.stackCapacity) (shows : t.world.Shows o) (reflects : q.Reflects l)
    (agrees : t.env.Agrees l a.finished) (itself : t.env.itself = s.env.itself)
    (captured : t.env.captured = s.env.captured) (sound : t.Sound a.Known) : a.Holds q l t rest o := by
  refine ⟨?_, ?_, ?_, ?_, ?_, callers.trans holds.callers, constants.trans holds.constants, stack, small, shows, reflects,
    agrees, sound⟩
  · rw [frame]
    exact holds.code
  · rw [frame]
    rfl
  · rw [frame]
    exact holds.base
  · rw [frame, captured]
    exact holds.captured
  · rw [frame, itself]
    exact holds.itself

theorem Holds.step (holds : a.Holds p n s operands m) {i : Instruction}
    (item : a.finished.code.itemAt p.position = .instruction i) :
    Running.step m = execute i.opcode (i.operands[0]?.getD 0) (i.operands[1]?.getD 0)
      (Running.goto m (p.position + i.opcode.width)) := by
  rw [← holds.code, ← holds.next] at item
  rw [Machine.step_at item, holds.next]

theorem Holds.move (holds : a.Holds p n s operands m) (reflects : q.Reflects n)
    (small : (a.stack s.env.vars rest).size ≤ Machine.stackCapacity) :
    a.Holds q n s rest ((Running.goto m q.position).holding (a.stack s.env.vars rest)) :=
  holds.settle rfl rfl rfl rfl small ⟨holds.shows.output, holds.shows.last, holds.shows.globals⟩ reflects holds.agrees
    rfl rfl holds.sound

theorem Holds.leads_push (holds : a.Holds p n s operands m) (reflects : q.Reflects n) {v : Value}
    (run : Running.step m = (do push v; return Signal.next : Running Signal)
      ((Running.goto m q.position).holding (a.stack s.env.vars rest))) :
    m.Leads (a.Holds q n s (rest ++ [v])) Overflow := by
  refine Machine.leads_push run fun small => ?_
  have moved (room : (a.stack s.env.vars (rest ++ [v])).size ≤ Machine.stackCapacity) := holds.move reflects room
  rw [stack_snoc] at moved
  refine moved ?_
  rw [Array.size_push]
  exact small

-- An operation on values that were on the stack gives a value or fails, as the evaluation does.
theorem Holds.follows_result (holds : a.Holds p n s operands m) (reflects : q.Reflects n) {r : Except Fault Datum}
    (run : Running.step m = (do push (← Running.ofExcept (r.map Datum.value)); return Signal.next : Running Signal)
      ((Running.goto m q.position).holding (a.stack s.env.vars rest)))
    (sound : ∀ d, r = .ok d → d.Sound a.Known) (back : Datum → Situation → Machine → Prop) :
    Follows m (Doing.ofExcept r s) (a.Arrives q n rest) back := by
  cases r with
  | ok d =>
    have pushed := holds.leads_push (v := d.value) reflects run
    exact pushed.mono (fun o reached => ⟨reached, sound d rfl⟩) fun _ _ spilled => spilled
  | error f => exact .fail run (.inr ⟨rfl, holds.shows.output, holds.shows.last, holds.shows.globals⟩)

theorem Holds.leads_more (holds : a.Holds p n s operands m) (reflects : q.Reflects n) {v : Value}
    (run : Running.step m = (do push v; return Signal.next : Running Signal) (Running.goto m q.position)) :
    m.Leads (a.Holds q n s (operands ++ [v])) Overflow := by
  refine holds.leads_push reflects ?_
  rw [← holds.stack]
  exact run

theorem Holds.slot (holds : a.Holds p n s operands m) {i : Nat} {x : String} {d : Datum} (within : i < a.finished.locals)
    (here : s.env.vars[i]? = some (x, d)) : m.stack[m.frame.base + i]? = some d.value := by
  rw [holds.stack, holds.base, Activation.stack, List.getElem?_toArray, List.getElem?_append_right (Nat.le_add_right _ _),
    Nat.add_sub_cancel_left, List.getElem?_append_left (by rw [slots_length]; exact within)]
  exact slots_getElem? within here

theorem Holds.leads_read (holds : a.Holds p n s operands m) {x : String} {symbol : Symbol}
    (item : a.finished.code.itemAt p.position = .instruction symbol.reading)
    (position : q.position = p.position + symbol.reading.opcode.width) (reflects : q.Reflects n)
    (within : symbol.Within a.finished) (gives : s.Gives x symbol) :
    m.Leads (a.Holds q n s (operands ++ [(s.lookup x).value])) Overflow := by
  refine holds.leads_more reflects ?_
  rw [holds.step item, position]
  rw [Situation.Gives] at gives
  rw [Symbol.Within] at within
  cases storage : symbol.storage <;> simp only [storage] at gives within <;>
    simp only [Symbol.reading, storage, execute, List.getElem?_cons_zero, Option.getD_some, bind, EStateM.bind]
  case global =>
    have looked (t : Nat) : Running.global symbol.index (Running.goto m t) = .ok (s.lookup x).value (Running.goto m t) := by
      rw [gives, ← holds.shows.globals]
      rfl
    rw [looked]
  case frame =>
    have looked (t : Nat) : Running.getLocal .getLocal symbol.index (Running.goto m t) =
        .ok (s.lookup x).value (Running.goto m t) := by
      have here := holds.slot within.1 gives
      simp only [Running.getLocal, Running.goto, here]
    rw [looked]
  case native =>
    obtain ⟨b, known, value⟩ := gives
    rw [known, value]
    rfl
  case captured =>
    have looked (t : Nat) : Running.captured .getFree symbol.index (Running.goto m t) =
        .ok (s.lookup x).value (Running.goto m t) := by
      have here : m.frame.captured[symbol.index]? = some (s.lookup x).value := by
        rw [holds.captured, List.getElem?_map, gives]
        rfl
      simp only [Running.captured, Running.goto, here]
    rw [looked]
  case itself =>
    rw [holds.itself x _ gives]
    rfl

theorem stack_set (a : Activation) (vars : List (String × Datum)) (operands : List Value) {i : Nat}
    (within : i < a.finished.locals) (v : Value) :
    (a.stack vars operands).setIfInBounds (a.lower.length + i) v =
      (a.lower ++ ((slots a.finished.locals vars).set i v ++ operands)).toArray := by
  rw [Activation.stack, List.setIfInBounds_toArray, List.set_append_right _ _ (Nat.le_add_right _ _),
    Nat.add_sub_cancel_left, List.set_append_left _ _ (by rw [slots_length]; exact within)]

theorem Holds.distinct (holds : a.Holds p n s operands m) : (s.env.vars.map Prod.fst).Nodup := by
  have inside := holds.agrees.inside
  have reflects := holds.reflects.symbols
  cases shape : n.scans with
  | nil =>
    rw [shape] at inside
    obtain ⟨-, vars, -⟩ := inside
    rw [vars]
    exact List.nodup_nil
  | cons scan rest =>
    rw [SymbolTable.Reflects, shape] at reflects
    rw [shape] at inside
    obtain ⟨-, vars, -⟩ := inside
    rw [vars]
    cases around : p.symbols.enclosing with
    | nil =>
      rw [around] at reflects
      exact reflects.elim
    | cons outer others =>
      rw [around] at reflects
      exact reflects.1.distinct

theorem set_global (globals : Array Value) (n j : Nat) (v : Value) :
    (((globals ++ List.replicate (n + 1 - globals.size) Value.null).setIfInBounds n v)[j]?).getD .null =
      if j = n then v else globals[j]?.getD .null := by
  rw [Array.getElem?_setIfInBounds]
  by_cases same : n = j
  · subst same
    have within : n < (globals ++ List.replicate (n + 1 - globals.size) Value.null).size := by
      rw [← Array.length_toList, Array.toList_appendList, List.length_append, List.length_replicate, Array.length_toList]
      omega
    simp [within]
  · have other : ¬ j = n := fun equal => same equal.symm
    rw [if_neg same, if_neg other, ← Array.getElem?_toList, Array.toList_appendList]
    by_cases old : j < globals.size
    · rw [List.getElem?_append_left old, Array.getElem?_toList]
    · rw [List.getElem?_append_right (Nat.le_of_not_lt old), Array.getElem?_eq_none (Nat.le_of_not_lt old),
        List.getElem?_replicate]
      split <;> rfl

theorem Holds.top (holds : a.Holds p n s (operands ++ [d.value]) m) (t : Nat) :
    (Running.goto m t).stack = (a.stack s.env.vars operands).push d.value ∧
      (a.stack s.env.vars operands).size ≤ Machine.stackCapacity := by
  have small := holds.small
  rw [holds.stack, stack_snoc, Array.size_push] at small
  refine ⟨?_, Nat.le_of_succ_le small⟩
  rw [← stack_snoc, ← holds.stack]
  rfl

-- The globals grow as far as the name lies.
theorem Holds.leads_write_global (holds : a.Holds p n s (operands ++ [d.value]) m) (new : d.Sound a.Known) {x : String}
    {j : Nat} {i : Instruction} (item : a.finished.code.itemAt p.position = .instruction i)
    (shape : i = ⟨.setGlobal, [j]⟩ ∨ i = ⟨.assignGlobal, [j]⟩) (position : q.position = p.position + i.opcode.width)
    (reflects : q.Reflects n) (place : n.place? x = some (.global, j)) :
    m.Leads (a.Holds q n (s.assign x d) operands) Overflow := by
  obtain ⟨itself, captured, output, last⟩ := s.assign_same x d
  have assigned := Situation.assign_global holds.agrees place d
  obtain ⟨top, small⟩ := holds.top q.position
  have popped := Machine.pop_run top
  have bound : j < 65536 := by
    rcases shape with rfl | rfl <;> exact Code.operand_small item _ List.mem_cons_self
  let grown := (m.globals ++ List.replicate (j + 1 - m.globals.size) Value.null).setIfInBounds j d.value
  have run : Running.step m = .ok .next
      { (Running.goto m q.position).holding (a.stack s.env.vars operands) with globals := grown } := by
    rw [holds.step item, ← position]
    rcases shape with rfl | rfl <;>
      simp only [execute, bind, EStateM.bind, popped, Running.setGlobal, List.getElem?_cons_zero, Option.getD_some] <;>
      rw [if_pos (show j < Machine.globalCapacity from bound)] <;> rfl
  refine .next run (.here ?_)
  refine holds.settle rfl rfl rfl ?_ ?_ ⟨?_, ?_, fun k => ?_⟩ reflects (Situation.assign_agrees holds.agrees x d) itself
    captured (Situation.assign_sound holds.sound x new)
  · rw [assigned]
    rfl
  · exact small
  · rw [output]
    exact holds.shows.output
  · rw [last]
    exact holds.shows.last
  · rw [assigned]
    have before := holds.shows.globals k
    simp only [grown]
    rw [set_global]
    split
    · rfl
    · exact before

theorem Holds.leads_write_frame (holds : a.Holds p n s (operands ++ [d.value]) m) (new : d.Sound a.Known) {x : String}
    {j : Nat} {i : Instruction} (item : a.finished.code.itemAt p.position = .instruction i)
    (shape : i = ⟨.setLocal, [j]⟩ ∨ i = ⟨.assignLocal, [j]⟩) (position : q.position = p.position + i.opcode.width)
    (reflects : q.Reflects n) (within : j < a.finished.locals) (place : n.place? x = some (.frame, j)) :
    m.Leads (a.Holds q n (s.assign x d) operands) Overflow := by
  obtain ⟨itself, captured, -, -⟩ := s.assign_same x d
  obtain ⟨here, assigned⟩ := Situation.assign_frame holds.agrees place d
  obtain ⟨top, small⟩ := holds.top q.position
  have popped := Machine.pop_run top
  have inside : a.lower.length + j < (a.stack s.env.vars operands).size := by
    have length := slots_length a.finished.locals s.env.vars
    simp only [Activation.stack, List.size_toArray, List.length_append, length]
    omega
  have run : Running.step m = .ok .next ((Running.goto m q.position).holding
      ((a.stack s.env.vars operands).setIfInBounds (a.lower.length + j) d.value)) := by
    rw [holds.step item, ← position]
    have base : ((Running.goto m q.position).holding (a.stack s.env.vars operands)).frame.base = a.lower.length :=
      holds.base
    rcases shape with rfl | rfl <;>
      simp only [execute, bind, EStateM.bind, popped, Running.setLocal, base, List.getElem?_cons_zero, Option.getD_some] <;>
      rw [if_pos (by exact inside)] <;> rfl
  refine .next run (.here ?_)
  refine holds.settle rfl rfl rfl ?_ ?_ ?_ reflects (Situation.assign_agrees holds.agrees x d) itself captured
    (Situation.assign_sound holds.sound x new)
  · rw [assigned]
    simp only [Machine.holding]
    rw [stack_set _ _ _ within, Activation.stack, slots_assign holds.distinct here]
  · rw [Machine.holding, Array.size_setIfInBounds]
    exact small
  · rw [assigned]
    exact ⟨holds.shows.output, holds.shows.last, holds.shows.globals⟩

theorem Holds.leads_write (holds : a.Holds p n s (operands ++ [d.value]) m) (new : d.Sound a.Known) {x : String}
    {symbol : Symbol} {i : Instruction} (item : a.finished.code.itemAt p.position = .instruction i)
    (kept : symbol.storage = .global ∨ symbol.storage = .frame)
    (writes : i = symbol.setting ∨ symbol.assigning? = some i) (position : q.position = p.position + i.opcode.width)
    (reflects : q.Reflects n) (within : symbol.Within a.finished) (place : n.place? x = some symbol.place) :
    m.Leads (a.Holds q n (s.assign x d) operands) Overflow := by
  rw [Symbol.Within] at within
  rcases Symbol.writing_shape kept writes with ⟨storage, shape⟩ | ⟨storage, shape⟩
  · rw [Symbol.place, storage] at place
    exact holds.leads_write_global new item shape position reflects place
  · simp only [storage] at within
    rw [Symbol.place, storage] at place
    exact holds.leads_write_frame new item shape position reflects within.1 place

-- The value of an expression statement is dropped, but remembered.
theorem Holds.leads_drop (holds : a.Holds p n s (operands ++ [d.value]) m)
    (item : a.finished.code.itemAt p.position = .instruction ⟨.pop, []⟩)
    (position : q.position = p.position + OpCode.pop.width) (reflects : q.Reflects n) :
    m.Leads (a.Holds q n { s with world := { s.world with last := some d } } operands) Overflow := by
  obtain ⟨top, small⟩ := holds.top q.position
  have run : Running.step m = .ok .next
      { (Running.goto m q.position).holding (a.stack s.env.vars operands) with last := some d.value } := by
    rw [holds.step item, ← position]
    simp only [execute, Running.drop, bind, EStateM.bind, modify_run, top, Array.back?_push, Array.pop_push]
    rfl
  refine .next run (.here ?_)
  refine holds.settle rfl rfl rfl rfl small ?_ reflects holds.agrees rfl rfl ?_
  · exact ⟨holds.shows.output, rfl, holds.shows.globals⟩
  · exact ⟨holds.sound.globals, holds.sound.vars, holds.sound.itself, holds.sound.captured⟩

theorem Holds.leads_jump (holds : a.Holds p n s operands m)
    (item : a.finished.code.itemAt p.position = .instruction ⟨.jump, [q.position]⟩) (reflects : q.Reflects n) :
    m.Leads (a.Holds q n s operands) Overflow := by
  have run : Running.step m = .ok .next (Running.goto m q.position) := by
    rw [holds.step item]
    rfl
  have small := holds.small
  rw [holds.stack] at small
  have moved := holds.move (q := q) reflects small
  rw [← holds.stack] at moved
  exact .next run (.here moved)

theorem Holds.leads_test (holds : a.Holds p n s (operands ++ [d.value]) m) {t : Nat}
    (item : a.finished.code.itemAt p.position = .instruction ⟨.jumpUnless, [t]⟩) :
    m.Leads (a.Holds { p with position := if d.value.truthy then p.position + OpCode.jumpUnless.width else t } n s operands)
      Overflow := by
  have behind := holds.top (p.position + OpCode.jumpUnless.width)
  have popped := Machine.pop_run behind.1
  refine .next (o := (Running.goto m (if d.value.truthy then p.position + OpCode.jumpUnless.width else t)).holding
    (a.stack s.env.vars operands)) ?_ (.here (holds.move (holds.reflects.moved _) behind.2))
  rw [holds.step item]
  simp only [execute, bind, EStateM.bind, popped]
  cases d.value.truthy <;> rfl

theorem Holds.leads_constant (holds : a.Holds p n s operands m) {i : Nat} {v : Value}
    (item : a.finished.code.itemAt p.position = .instruction ⟨.constant, [i]⟩)
    (position : q.position = p.position + OpCode.constant.width) (here : a.finished.constants[i]? = some v)
    (reflects : q.Reflects n) : m.Leads (a.Holds q n s (operands ++ [v])) Overflow := by
  refine holds.leads_more reflects ?_
  rw [holds.step item, ← position]
  rw [← holds.constants] at here
  have looked : Running.constant .constant i (Running.goto m q.position) = .ok v (Running.goto m q.position) := by
    simp only [Running.constant, Running.goto, here]
  simp only [execute, bind, EStateM.bind, List.getElem?_cons_zero, Option.getD_some, looked]

theorem Holds.follows_unary (holds : a.Holds p n s (operands ++ [d.value]) m) {operator : String} {op : OpCode}
    (known : Compiling.unaryOpCode? operator = some op)
    (item : a.finished.code.itemAt p.position = .instruction ⟨op, []⟩)
    (position : q.position = p.position + op.width) (reflects : q.Reflects n)
    (back : Datum → Situation → Machine → Prop) :
    Follows m (Doing.ofExcept (Doing.unary operator d) s) (a.Arrives q n operands) back := by
  obtain ⟨top, -⟩ := holds.top q.position
  have popped := Machine.pop_run top
  refine holds.follows_result reflects ?_ (fun e done => ?_) back
  · rw [holds.step item, ← position, unary_code known, Datum.unary_value]
    unfold Compiling.unaryOpCode? at known
    split at known <;> cases known <;> simp only [execute, bind, EStateM.bind, popped]
  · rw [unary_code known] at done
    exact Datum.mapped_sound done

theorem Holds.follows_binary {lhs rhs : Datum} (holds : a.Holds p n s (operands ++ [lhs.value] ++ [rhs.value]) m)
    {operator : String} {op : OpCode} (known : Compiling.binaryOpCode? operator = some op)
    (item : a.finished.code.itemAt p.position = .instruction ⟨op, []⟩)
    (position : q.position = p.position + op.width) (reflects : q.Reflects n)
    (back : Datum → Situation → Machine → Prop) :
    Follows m (Doing.ofExcept (Datum.binary op lhs rhs) s) (a.Arrives q n operands) back := by
  obtain ⟨top, -⟩ := holds.top q.position
  have popped := Machine.pop_run top
  rw [stack_snoc] at popped
  have again : pop ((Running.goto m q.position).holding ((a.stack s.env.vars operands).push lhs.value)) =
      .ok lhs.value ((Running.goto m q.position).holding (a.stack s.env.vars operands)) := Machine.pop_run rfl
  refine holds.follows_result (r := Datum.binary op lhs rhs) reflects ?_ (fun e done => Datum.mapped_sound done) back
  rw [holds.step item, ← position, Datum.binary_value]
  unfold Compiling.binaryOpCode? at known
  split at known <;> cases known <;> simp only [execute, bind, EStateM.bind, popped, again]

theorem Holds.follows_index {target place : Datum}
    (holds : a.Holds p n s (operands ++ [target.value] ++ [place.value]) m) (sound : target.Sound a.Known)
    (item : a.finished.code.itemAt p.position = .instruction ⟨.index, []⟩)
    (position : q.position = p.position + OpCode.index.width) (reflects : q.Reflects n)
    (back : Datum → Situation → Machine → Prop) :
    Follows m (Doing.ofExcept (Datum.index target place) s) (a.Arrives q n operands) back := by
  obtain ⟨top, -⟩ := holds.top q.position
  have popped := Machine.pop_run top
  rw [stack_snoc] at popped
  have again : pop ((Running.goto m q.position).holding ((a.stack s.env.vars operands).push target.value)) =
      .ok target.value ((Running.goto m q.position).holding (a.stack s.env.vars operands)) := Machine.pop_run rfl
  refine holds.follows_result reflects ?_ (fun e done => Datum.index_sound sound done) back
  rw [holds.step item, ← position, Datum.index_value]
  simp only [execute, bind, EStateM.bind, popped, again]

theorem Holds.tops {vs : List Value} (holds : a.Holds p n s (operands ++ vs) m) (t : Nat) :
    popMany vs.length (Running.goto m t) =
      .ok vs ((Running.goto m t).holding (a.stack s.env.vars operands)) := by
  refine Machine.popMany_run ?_
  rw [← stack_append, ← holds.stack]
  rfl

theorem Holds.leads_array {ds : List Datum} (holds : a.Holds p n s (operands ++ ds.map Datum.value) m)
    (item : a.finished.code.itemAt p.position = .instruction ⟨.array, [ds.length]⟩)
    (position : q.position = p.position + OpCode.array.width) (reflects : q.Reflects n) :
    m.Leads (a.Holds q n s (operands ++ [(Datum.array ds).value])) Overflow := by
  have popped := holds.tops q.position
  rw [List.length_map] at popped
  refine holds.leads_push reflects ?_
  rw [holds.step item, ← position, Datum.value, Datum.values_eq]
  simp only [execute, bind, EStateM.bind, List.getElem?_cons_zero, Option.getD_some, popped]

theorem Holds.follows_hash {items : List (Datum × Datum)} (holds : a.Holds p n s (operands ++ Datum.alternating items) m)
    (sound : ∀ pair ∈ items, pair.2.Sound a.Known)
    (item : a.finished.code.itemAt p.position = .instruction ⟨.hash, [2 * items.length]⟩)
    (position : q.position = p.position + OpCode.hash.width) (reflects : q.Reflects n)
    (back : Datum → Situation → Machine → Prop) :
    Follows m (Doing.ofExcept (Datum.pairUp items []) s) (a.Arrives q n operands) back := by
  have popped := holds.tops q.position
  have length : (Datum.alternating items).length = 2 * items.length := by
    simp [Datum.alternating, List.length_flatMap, Nat.mul_comm]
  rw [length] at popped
  refine holds.follows_result reflects ?_ (fun d done => Datum.pairUp_sound sound (by simp) done) back
  rw [holds.step item, ← position, Datum.pairUp_value]
  simp only [execute, bind, EStateM.bind, List.getElem?_cons_zero, Option.getD_some, popped]
  rfl

theorem Holds.leads_make {captured : List Datum} {f : Literal} {i : Nat}
    (holds : a.Holds p n s (operands ++ captured.map Datum.value) m)
    (item : a.finished.code.itemAt p.position = .instruction (Layout.making i captured.length))
    (position : q.position = p.position + (Layout.making i captured.length).opcode.width)
    (here : a.finished.constants[i]? = some (.function f.routine)) (reflects : q.Reflects n) :
    m.Leads (a.Holds q n s (operands ++ [(f.made captured).value])) Overflow := by
  cases captured with
  | nil =>
    rw [List.map_nil, List.append_nil] at holds
    exact holds.leads_constant item position here reflects
  | cons d rest =>
    have popped := holds.tops q.position
    rw [List.length_map] at popped
    rw [← holds.constants] at here
    have looked : Running.constant .closure i (Running.goto m q.position) =
        .ok (.function f.routine) (Running.goto m q.position) := by
      simp only [Running.constant, Running.goto, here]
    refine holds.leads_push reflects ?_
    rw [holds.step item, ← position, Literal.made, if_neg (List.cons_ne_nil d rest), Datum.value, Datum.values_eq]
    simp only [Layout.making, List.length_cons, Nat.succ_ne_zero, if_false, execute, bind, EStateM.bind,
      List.getElem?_cons_zero, List.getElem?_cons_succ, Option.getD_some, looked] at popped ⊢
    rw [popped]

end Activation

end StackScript
