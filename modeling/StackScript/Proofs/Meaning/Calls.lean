import StackScript.Proofs.Machine.Reserving
import StackScript.Proofs.Meaning.Instructions

-- A function that is called runs in an activation of its own, above the one that calls it, and comes back with a value.
namespace StackScript

open Running (execute step push pop popMany)

namespace Running

def callOf (given : Nat) : Value → Running Unit
  | .closure routine captured => invoke routine captured given
  | .function routine => invoke routine [] given
  | .builtin b => do
    let args ← popMany given
    let _ ← pop
    let (v, lines) ← ofExcept (Operation.call b args)
    modify fun m => { m with output := m.output ++ lines }
    push v
  | other => fail (.callingNonFunction other.text)

theorem call_run {m : Machine} {given : Nat} {v : Value} (enough : given + 1 ≤ m.stack.size)
    (here : m.stack[m.stack.size - (given + 1)]? = some v) : call given m = callOf given v m := by
  simp only [call, bind, EStateM.bind, get_run, Nat.not_lt.mpr enough, if_false, here, Option.getD_some]
  cases v <;> rfl

theorem leave_run {m : Machine} {caller : Frame} {callers : Array Frame} (v : Value)
    (called : m.callers = callers.push caller) :
    leave v m = (do push v; return Signal.next : Running Signal)
      { m with stack := m.stack.shrink (m.frame.base - 1), frame := caller, callers } := by
  simp only [leave, called, Array.back?_push, Array.pop_push, bind, EStateM.bind]
  split
  · rename_i run
    rw [run]
    rfl
  · rename_i run
    rw [run]

theorem invoke_run {m : Machine} {routine : Routine} (captured : List Value)
    (small : m.stack.size ≤ Machine.stackCapacity) (few : routine.locals ≤ 255) :
    invoke routine captured routine.parameters m = .error (.fault .stackOverflow) m ∨
      (m.callers.size + 1 < Machine.frameCapacity ∧
        m.stack.size + (routine.locals - routine.parameters) ≤ Machine.stackCapacity ∧
        invoke routine captured routine.parameters m = .ok () { m with
          stack := m.stack ++ List.replicate (routine.locals - routine.parameters) Value.null
          frame := ⟨routine, captured, 0, m.stack.size - routine.parameters⟩
          callers := m.callers.push m.frame }) := by
  rcases Nat.lt_or_ge m.frames.size Machine.frameCapacity with shallow | deep
  · rcases Nat.lt_or_ge Machine.stackCapacity (m.wanted routine) with full | room
    · have fits : m.wanted routine < Machine.sizeWord := by
        simp only [Machine.stackCapacity] at small
        simp only [Machine.wanted, Routine.further, Machine.sizeWord, UInt64.size]
        omega
      exact .inl (invoke_full captured shallow full fits)
    · have callers : m.callers.size + 1 < Machine.frameCapacity := by rwa [Machine.frames, Array.size_push] at shallow
      exact .inr ⟨callers, room, invoke_reserves captured shallow room⟩
  · exact .inl (invoke_deep captured deep)

end Running

namespace Activation

variable {a b : Activation} {p q : Point} {n : Names} {s t : Situation} {operands : List Value} {m o : Machine}
  {d callee : Datum} {args : List Datum}

structure Returning (a : Activation) (d : Datum) (t : Situation) (o : Machine) : Prop where
  leaves : ∃ target vars operands, step o = Running.leave d.value ((Running.goto o target).holding (a.stack vars operands))
  base : o.frame.base = a.lower.length
  callers : o.callers = a.callers
  constants : o.constants = a.finished.constants
  shows : t.world.Shows o
  sound : t.Sound a.Known
  value : d.Sound a.Known

theorem Holds.returns_value (holds : a.Holds p n s (operands ++ [d.value]) m) (sound : d.Sound a.Known)
    (item : a.finished.code.itemAt p.position = .instruction ⟨.returnValue, []⟩) : a.Returning d s m := by
  obtain ⟨top, -⟩ := holds.top (p.position + OpCode.returnValue.width)
  have popped := Machine.pop_run top
  refine ⟨⟨p.position + OpCode.returnValue.width, s.env.vars, operands, ?_⟩, holds.base, holds.callers, holds.constants,
    holds.shows, holds.sound, sound⟩
  rw [holds.step item]
  simp only [execute, bind, EStateM.bind, popped]

theorem Holds.returns_null (holds : a.Holds p n s operands m)
    (item : a.finished.code.itemAt p.position = .instruction ⟨.returnNull, []⟩) : a.Returning .null s m := by
  refine ⟨⟨p.position + OpCode.returnNull.width, s.env.vars, operands, ?_⟩, holds.base, holds.callers, holds.constants,
    holds.shows, holds.sound, .simple rfl rfl⟩
  rw [holds.step item, ← holds.stack]
  rfl

-- The code of a function body comes to its end, or returns before.
def Finishes (a : Activation) (layout : Layout) (body : Doing Datum) : Prop :=
  ∀ p q n s m, layout a.finished p q → a.Holds p n s [] m → Follows m (body s) a.Returning a.Returning

theorem Holds.called (holds : a.Holds p n s (operands ++ callee.value :: args.map Datum.value) m) :
    args.length + 1 ≤ m.stack.size ∧ m.stack[m.stack.size - (args.length + 1)]? = some callee.value := by
  have stack := holds.stack
  rw [stack_append] at stack
  have size : m.stack.size = (a.stack s.env.vars operands).size + (args.length + 1) := by simp [stack]
  refine ⟨by omega, ?_⟩
  rw [size, Nat.add_sub_cancel, stack, Array.getElem?_append_right (Nat.le_refl _), Nat.sub_self]
  simp

-- The activation of a function above the values that are left where it is called.
def above (a : Activation) (k : Finished) (vars : List (String × Datum)) (operands : List Value) (caller : Frame) :
    Activation :=
  ⟨k, a.lower ++ (slots a.finished.locals vars ++ operands), a.callers.push caller⟩

theorem slots_zip {names : List String} {args : List Datum} {count : Nat} (same : args.length = names.length)
    (enough : names.length ≤ count) : slots count (names.zip args) =
      args.map Datum.value ++ List.replicate (count - names.length) .null := by
  apply List.ext_getElem?
  intro i
  rw [← same] at enough ⊢
  by_cases given : i < args.length
  · have named : i < names.length := Nat.lt_of_lt_of_eq given same
    have here : (names.zip args)[i]? = some (names[i], args[i]) := by
      rw [List.getElem?_eq_getElem (by rw [List.length_zip]; omega), List.getElem_zip]
    rw [List.getElem?_append_left (by rw [List.length_map]; exact given)]
    simp [slots, Nat.lt_of_lt_of_le given enough, given, here]
  · have behind := Nat.le_of_not_lt given
    have beyond : (names.zip args)[i]? = none := by
      rw [List.getElem?_eq_none_iff, List.length_zip]
      omega
    rw [List.getElem?_append_right (by rw [List.length_map]; exact behind), List.length_map, List.getElem?_replicate]
    by_cases within : i < count
    · have rest : i - args.length < count - args.length := by omega
      simp [slots, within, rest, beyond]
    · have rest : ¬ i - args.length < count - args.length := by omega
      simp [slots, within, rest]

-- A function that is called knows itself as closed.
theorem closure_sound {known : Literal → Prop} {f : Literal} {captured : List Datum} (sound : callee.Sound known)
    (called : callee.callee? = some (f, captured)) : (f.closed captured).Sound known := by
  have functions := sound.callee called
  cases callee with
  | function g =>
    cases called
    refine .of (fun h copied same => ?_) (fun part present => by cases present)
    cases same
    exact functions
  | closure g copied =>
    cases called
    exact sound
  | _ => cases called

theorem env_agrees {f : Literal} {captured : List Datum} {k : Finished} {first last : Point} {scans : List Scan}
    (compiled : f.CompiledTo k first last scans) (arity : args.length = f.parameters.length)
    (copied : captured.length = f.captured.length) :
    (f.env Literal.closed captured args).Agrees ⟨⟨f.parameters, f.own, []⟩ :: scans, f.globals, f.literals⟩ k := by
  refine ⟨rfl, rfl, rfl, List.map_fst_zip (Nat.le_of_eq arity.symm), ?_, ?_, ?_, ?_⟩
  · cases own : f.own <;> simp [Literal.env, own]
  · exact (List.map_fst_zip (Nat.le_of_eq copied.symm)).trans compiled.captured
  · rw [← compiled.captured]
    exact compiled.distinct
  · rw [← compiled.captured]
    exact compiled.around

theorem env_sound {known : Literal → Prop} {f : Literal} {captured : List Datum} (sound : s.Sound known)
    (function : callee.Sound known) (called : callee.callee? = some (f, captured))
    (each : ∀ d ∈ args, d.Sound known) : Situation.Sound ⟨f.env Literal.closed captured args, s.world⟩ known := by
  have closure := closure_sound function called
  refine ⟨sound.globals, fun v present => ?_, fun v present => ?_, fun v present => ?_⟩
  · exact each _ (List.of_mem_zip present).2
  · obtain ⟨x, -, rfl⟩ := Option.map_eq_some_iff.mp present
    exact closure
  · exact closure.inside (e := v.2) (List.of_mem_zip present).2

theorem Holds.begins {f : Literal} {captured : List Datum} {k : Finished} {first last : Point} {scans : List Scan}
    (holds : a.Holds p n s (operands ++ callee.value :: args.map Datum.value) m) (constants : k.constants = a.finished.constants)
    (compiled : f.CompiledTo k first last scans) (sound : s.Sound (Literal.Compiled k.constants k.globals))
    (known : callee.Sound (Literal.Compiled k.constants k.globals)) (called : callee.callee? = some (f, captured))
    (each : ∀ d ∈ args, d.Sound (Literal.Compiled k.constants k.globals)) (arity : args.length = f.parameters.length)
    (small : m.stack.size + (k.locals - f.parameters.length) ≤ Machine.stackCapacity) (caller : Frame) :
    (a.above k s.env.vars (operands ++ [callee.value]) caller).Holds first
      ⟨⟨f.parameters, f.own, []⟩ :: scans, f.globals, f.literals⟩ ⟨f.env Literal.closed captured args, s.world⟩ []
      { m with
        stack := m.stack ++ List.replicate (k.locals - f.parameters.length) Value.null
        frame := ⟨f.routine, captured.map Datum.value, 0, m.stack.size - f.parameters.length⟩
        callers := m.callers.push caller } := by
  obtain ⟨-, copied⟩ := known.callee called
  have values : (f.captured.zip captured).map Prod.snd = captured := List.map_snd_zip (Nat.le_of_eq copied)
  have stack := holds.stack
  refine ⟨?_, compiled.position.symm, ?_, ?_, ?_, ?_, ?_, ?_, ?_, ?_, compiled.reflects, ?_, ?_⟩
  · rw [compiled.routine]
    rfl
  · rw [stack]
    simp [Activation.stack, above, arity]
    omega
  · rw [← values, List.map_map, values]
    rfl
  · intro x d own
    obtain ⟨y, -, same⟩ := Option.map_eq_some_iff.mp own
    cases same
    rw [Literal.closed, Datum.value, Datum.values_eq]
  · rw [holds.callers]
    rfl
  · exact holds.constants.trans constants.symm
  · rw [stack]
    have given := slots_zip arity compiled.locals
    apply Array.toList_inj.mp
    rw [Array.toList_appendList]
    simp [Activation.stack, above, Literal.env, given]
  · rw [← Array.length_toList, Array.toList_appendList, List.length_append, List.length_replicate]
    exact small
  · exact ⟨holds.shows.output, holds.shows.last, holds.shows.globals⟩
  · exact env_agrees compiled arity copied
  · exact env_sound sound known called each

theorem stack_shrink (lower rest : List Value) (v : Value) :
    (lower ++ [v] ++ rest).toArray.shrink ((lower ++ [v]).length - 1) = lower.toArray := by
  apply Array.toList_inj.mp
  simp

theorem Returning.leads_back {k : Finished} {v : Value} {rest : List Value}
    (returning : (a.above k s.env.vars (operands ++ [v]) (Running.goto m q.position).frame).Returning d t o)
    (holds : a.Holds p n s rest m) (constants : k.constants = a.finished.constants) (globals : k.globals = a.finished.globals)
    (reflects : q.Reflects n) : o.Leads (a.Arrives q n operands d ⟨s.env, t.world⟩) Overflow := by
  obtain ⟨target, vars, others, leaves⟩ := returning.leaves
  have known : (a.above k s.env.vars (operands ++ [v]) (Running.goto m q.position).frame).Known = a.Known := by
    simp only [Known, above, constants, globals]
  have sound := returning.sound.globals
  have value := returning.value
  rw [known] at sound value
  have left : ((Running.goto o target).holding ((a.above k s.env.vars (operands ++ [v])
      (Running.goto m q.position).frame).stack vars others)).stack.shrink (o.frame.base - 1) = a.stack s.env.vars operands := by
    have shrunk := stack_shrink (a.lower ++ (slots a.finished.locals s.env.vars ++ operands))
      (slots k.locals vars ++ others) v
    rw [returning.base]
    simpa [Machine.holding, Activation.stack, above] using shrunk
  have run := leaves.trans (Running.leave_run d.value returning.callers)
  refine Machine.leads_push run fun small => ⟨?_, value⟩
  have pushed : ((a.stack s.env.vars operands).push d.value).size ≤ Machine.stackCapacity := by
    rw [Array.size_push, ← left]
    exact small
  refine holds.settle rfl holds.callers.symm ?_ ?_ ?_ ⟨returning.shows.output, returning.shows.last, returning.shows.globals⟩
    reflects holds.agrees rfl rfl ⟨sound, holds.sound.vars, holds.sound.itself, holds.sound.captured⟩
  · exact (returning.constants.trans constants).trans holds.constants.symm
  · rw [stack_snoc, ← left]
    rfl
  · rw [← left] at pushed
    exact pushed

theorem Holds.leads_invoke {f : Literal} {captured : List Datum} {k : Finished} {first last : Point} {scans : List Scan}
    (holds : a.Holds p n s (operands ++ callee.value :: args.map Datum.value) m) (sound : callee.Sound a.Known)
    (called : callee.callee? = some (f, captured)) (each : ∀ d ∈ args, d.Sound a.Known)
    (constants : k.constants = a.finished.constants) (globals : k.globals = a.finished.globals)
    (compiled : f.CompiledTo k first last scans) (arity : args.length = f.parameters.length)
    (run : Running.step m = (do Running.invoke f.routine (captured.map Datum.value) args.length; return Signal.next :
      Running Signal) (Running.goto m q.position)) :
    m.Leads (fun o => a.callers.size + 1 < Machine.frameCapacity ∧
      (a.above k s.env.vars (operands ++ [callee.value]) (Running.goto m q.position).frame).Holds first
        ⟨⟨f.parameters, f.own, []⟩ :: scans, f.globals, f.literals⟩ ⟨f.env Literal.closed captured args, s.world⟩ [] o) Overflow := by
  have routine := compiled.routine
  have few : f.routine.locals ≤ 255 := by rw [routine]; exact compiled.few
  have given : args.length = f.routine.parameters := by rw [routine, arity]
  have known : a.Known = Literal.Compiled k.constants k.globals := by rw [Known, constants, globals]
  have world := holds.sound
  rw [known] at sound each world
  rw [given] at run
  simp only [bind, EStateM.bind] at run
  rcases Running.invoke_run (m := Running.goto m q.position) (captured.map Datum.value) holds.small few with
    spilled | ⟨frames, room, invoked⟩
  · rw [spilled] at run
    exact .fail run rfl
  · rw [invoked] at run
    rw [routine] at room
    have frames : a.callers.size + 1 < Machine.frameCapacity := by
      rw [← holds.callers]
      exact frames
    have begins := holds.begins constants compiled world sound called each arity room (Running.goto m q.position).frame
    refine .next run (.here ⟨frames, ?_⟩)
    rw [routine]
    rw [routine] at begins
    exact begins

theorem follows_within {f : Literal} {captured : List Datum} {body : Doing Datum}
    {goal back : Datum → Situation → Machine → Prop}
    (inside : Follows m (body ⟨f.env Literal.closed captured args, s.world⟩) b.Returning b.Returning)
    (comes : ∀ d t o, b.Returning d t o → o.Leads (goal d ⟨s.env, t.world⟩) Overflow) :
    Follows m (Doing.within Literal.closed f captured args body s) goal back := by
  rw [Doing.within]
  cases run : body ⟨f.env Literal.closed captured args, s.world⟩ with
  | ok d t =>
    rw [run] at inside
    exact Machine.Leads.bind inside fun o returning => comes d t o returning
  | error e t =>
    rw [run] at inside
    cases e with
    | returned d => exact Machine.Leads.bind inside fun o returning => comes d t o returning
    | failed f => exact inside
    | exhausted => exact inside

-- How a function that is called runs: in an activation that ends it.
def Runs (a : Activation) (start : Literal → List Datum → List Datum → Doing Datum) : Prop :=
  ∃ body : Literal → Doing Datum, (∀ f captured args, start f captured args = Doing.within Literal.closed f captured args (body f)) ∧
    ∀ (b : Activation) (f : Literal), b.finished.constants = a.finished.constants →
      b.finished.globals = a.finished.globals → b.callers.size = a.callers.size + 1 →
      b.Finishes (Layout.finish f.body) (body f)

theorem Holds.follows_function {f : Literal} {captured : List Datum} {start : Literal → List Datum → List Datum → Doing Datum}
    (runs : a.callers.size + 1 < Machine.frameCapacity → a.Runs start)
    (holds : a.Holds p n s (operands ++ callee.value :: args.map Datum.value) m) (sound : callee.Sound a.Known)
    (called : callee.callee? = some (f, captured)) (each : ∀ d ∈ args, d.Sound a.Known) (reflects : q.Reflects n)
    (run : Running.step m = (do Running.invoke f.routine (captured.map Datum.value) args.length; return Signal.next :
      Running Signal) (Running.goto m q.position)) :
    Follows m ((if args.length = f.parameters.length then start f captured args
      else Doing.fail (.wrongArgumentCount f.parameters.length args.length)) s) (a.Arrives q n operands) a.Returning := by
  obtain ⟨k, first, last, scans, constants, globals, compiled⟩ := (sound.callee called).1
  by_cases arity : args.length = f.parameters.length
  · rw [if_pos arity]
    have invoked := holds.leads_invoke sound called each constants globals compiled arity run
    refine .after_leads invoked fun o ⟨frames, begins⟩ => ?_
    obtain ⟨body, same, finishes⟩ := runs frames
    rw [same]
    have inside := finishes _ f constants globals (by simp [above]) _ _ _ _ _ compiled.lies begins
    exact follows_within inside fun d t r returning => returning.leads_back holds constants globals reflects
  · rw [if_neg arity]
    have wrong : Running.step m =
        .error (.fault (.wrongArgumentCount f.parameters.length args.length)) (Running.goto m q.position) := by
      simp only [run, bind, EStateM.bind, Running.invoke, compiled.routine, ne_eq, arity, not_false_eq_true, if_true]
    exact .fail wrong (.inr ⟨rfl, holds.shows.output, holds.shows.last, holds.shows.globals⟩)

theorem Holds.step_call (holds : a.Holds p n s (operands ++ callee.value :: args.map Datum.value) m)
    (item : a.finished.code.itemAt p.position = .instruction ⟨.call, [args.length]⟩)
    (position : q.position = p.position + OpCode.call.width) : Running.step m =
      (do Running.callOf args.length callee.value; return Signal.next : Running Signal) (Running.goto m q.position) := by
  obtain ⟨enough, here⟩ := holds.called
  have called := Running.call_run (m := Running.goto m q.position) enough here
  rw [holds.step item, ← position]
  simp only [execute, bind, EStateM.bind, List.getElem?_cons_zero, Option.getD_some, called]

theorem Holds.follows_native {native : Builtin} {start : Literal → List Datum → List Datum → Doing Datum}
    (holds : a.Holds p n s (operands ++ (Datum.builtin native).value :: args.map Datum.value) m)
    (each : ∀ d ∈ args, d.Sound a.Known) (reflects : q.Reflects n)
    (item : a.finished.code.itemAt p.position = .instruction ⟨.call, [args.length]⟩)
    (position : q.position = p.position + OpCode.call.width) :
    Follows m (Doing.called start (.builtin native) args s) (a.Arrives q n operands) a.Returning := by
  have apart := holds
  rw [show operands ++ (Datum.builtin native).value :: args.map Datum.value =
    operands ++ [(Datum.builtin native).value] ++ args.map Datum.value by simp] at apart
  have many := apart.tops q.position
  rw [List.length_map] at many
  have one : pop ((Running.goto m q.position).holding (a.stack s.env.vars (operands ++ [(Datum.builtin native).value]))) =
      .ok (Datum.builtin native).value ((Running.goto m q.position).holding (a.stack s.env.vars operands)) :=
    Machine.pop_run (by rw [stack_snoc]; rfl)
  have value := Datum.call_value native args
  rw [Datum.values_eq] at value
  have run := holds.step_call item position
  rw [show (Datum.builtin native).value = .builtin native by rw [Datum.value]] at run one many
  simp only [Running.callOf, bind, EStateM.bind, many, one, ← value] at run
  cases given : Datum.call native args with
  | error f =>
    rw [given] at run
    have result : Doing.called start (.builtin native) args s = .error (.failed f) s := by
      simp only [Doing.called, given]
      rfl
    rw [result]
    exact .fail run (.inr ⟨rfl, holds.shows.output, holds.shows.last, holds.shows.globals⟩)
  | ok r =>
    obtain ⟨d, lines⟩ := r
    rw [given] at run
    have result : Doing.called start (.builtin native) args s =
        .ok d { s with world := { s.world with output := s.world.output ++ lines } } := by
      simp only [Doing.called, given]
      rfl
    rw [result]
    refine Machine.leads_push (o := { (Running.goto m q.position).holding (a.stack s.env.vars operands) with
      output := m.output ++ lines }) run fun small => ⟨?_, Datum.call_sound each given⟩
    refine holds.settle rfl rfl rfl ?_ ?_ ⟨?_, holds.shows.last, holds.shows.globals⟩ reflects holds.agrees rfl rfl
      ⟨holds.sound.globals, holds.sound.vars, holds.sound.itself, holds.sound.captured⟩
    · rw [stack_snoc]
      rfl
    · simp only [Machine.holding, Array.size_push]
      exact small
    · rw [← holds.shows.output]
      rfl

def Calls (a : Activation) (call : Datum → List Datum → Doing Datum) : Prop :=
  ∀ p q n s operands callee args m, a.Holds p n s (operands ++ callee.value :: args.map Datum.value) m →
    callee.Sound a.Known → (∀ d ∈ args, d.Sound a.Known) → q.Reflects n →
    a.finished.code.itemAt p.position = .instruction ⟨.call, [args.length]⟩ →
    q.position = p.position + OpCode.call.width →
    Follows m (call callee args s) (a.Arrives q n operands) a.Returning

theorem called_calls {start : Literal → List Datum → List Datum → Doing Datum}
    (runs : a.callers.size + 1 < Machine.frameCapacity → a.Runs start) : a.Calls (Doing.called start) := by
  intro p q n s operands callee args m holds sound each reflects item position
  have run := holds.step_call item position
  have wrong (other : Running.step m = .error (.fault (.callingNonFunction callee.value.text)) (Running.goto m q.position))
      (result : Doing.called start callee args = Doing.fail (.callingNonFunction callee.value.text)) :
      Follows m (Doing.called start callee args s) (a.Arrives q n operands) a.Returning := by
    rw [result]
    exact .fail other (.inr ⟨rfl, holds.shows.output, holds.shows.last, holds.shows.globals⟩)
  cases callee with
  | function f => exact holds.follows_function runs sound rfl each reflects run
  | closure f captured =>
    rw [Datum.value, Datum.values_eq] at run
    exact holds.follows_function runs sound rfl each reflects run
  | builtin native => exact holds.follows_native each reflects item position
  | _ => exact wrong run rfl

end Activation
end StackScript
