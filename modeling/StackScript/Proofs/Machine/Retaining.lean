import StackScript.Proofs.Machine.Moves

-- What an instruction retains, however it ends. A view of a machine that sees neither its stack and frames nor what it prints
-- is changed only by the instructions that give a global a value, drop a value or end the main program.
namespace StackScript

variable {γ : Type}

def Machine.Blind (view : Machine → γ) : Prop := ∀ (m : Machine) (stack : Array Value) (frame : Frame)
  (callers : Array Frame) (output : Array String), view { m with stack, frame, callers, output } = view m

namespace Running

variable {α β : Type} {view : Machine → γ} {m n : Machine}

def reached : EStateM.Result Stop Machine α → Machine
  | .ok _ n | .error _ n => n

def Retains (view : Machine → γ) (x : Running α) : Prop := ∀ m, view (reached (x m)) = view m

theorem retains_bind {x : Running α} {f : α → Running β} (first : Retains view x) (rest : ∀ v, Retains view (f v)) :
    Retains view (x >>= f) := by
  intro m
  have one := first m
  simp only [bind, EStateM.bind]
  cases run : x m with
  | error e n =>
    rw [run] at one
    exact one
  | ok v n =>
    rw [run] at one
    exact (rest v n).trans one

theorem retains_pure (v : α) : Retains view (pure v : Running α) := fun _ => rfl

theorem retains_fail (f : Fault) : Retains view (fail f : Running α) := fun _ => rfl

theorem retains_get : Retains view (get : Running Machine) := fun _ => rfl

theorem ofExcept_retains (r : Except Fault α) : Retains view (ofExcept r) := by
  cases r with
  | ok v => exact retains_pure v
  | error f => exact retains_fail f

theorem constant_retains (op : OpCode) (n : Nat) : Retains view (constant op n) := by
  intro m
  unfold constant
  split <;> rfl

theorem global_retains (n : Nat) : Retains view (global n) := fun _ => rfl

theorem getLocal_retains (op : OpCode) (n : Nat) : Retains view (getLocal op n) := by
  intro m
  unfold getLocal
  split <;> rfl

theorem captured_retains (op : OpCode) (n : Nat) : Retains view (captured op n) := by
  intro m
  unfold captured
  split <;> rfl

section
variable (blind : Machine.Blind view)
include blind

theorem push_retains (v : Value) : Retains view (push v) := by
  intro m
  unfold push
  split
  · rfl
  · exact blind m _ _ _ _

theorem pop_retains : Retains view pop := by
  intro m
  unfold pop
  split
  · exact blind m _ _ _ _
  · rfl

theorem popMany_retains (k : Nat) : Retains view (popMany k) := by
  intro m
  unfold popMany
  split
  · exact blind m _ _ _ _
  · rfl

theorem jump_retains (target : Nat) : Retains view (jump target) := fun m => blind m _ _ _ _

theorem print_retains (lines : List String) :
    Retains view (modify fun m => { m with output := m.output ++ lines } : Running PUnit) := fun m => blind m _ _ _ _

theorem setLocal_retains (op : OpCode) (n : Nat) (v : Value) : Retains view (setLocal op n v) := by
  intro m
  unfold setLocal
  split
  · exact blind m _ _ _ _
  · rfl

theorem invoke_retains (routine : Routine) (captured : List Value) (given : Nat) :
    Retains view (invoke routine captured given) := by
  intro m
  unfold invoke
  split
  · rfl
  · split
    · rfl
    · simp only
      split
      · rfl
      · split
        · rfl
        · exact blind m _ _ _ _

theorem leave_retains (v : Value) (called : m.callers ≠ #[]) : view (reached (leave v m)) = view m := by
  obtain ⟨callers, caller, shape⟩ := Array.eq_push_of_size_ne_zero fun empty => called (Array.eq_empty_of_size_eq_zero empty)
  rw [leave_run v shape]
  exact (retains_bind (push_retains blind v) (fun _ => retains_pure _) _).trans (blind m _ _ _ _)

theorem native_retains (b : Builtin) (given : Nat) : Retains view (callOf given (.builtin b)) :=
  retains_bind (popMany_retains blind given) fun _ => retains_bind (pop_retains blind) fun _ =>
    retains_bind (ofExcept_retains _) fun _ => retains_bind (print_retains blind _) fun _ => push_retains blind _

theorem call_retains (given : Nat) : Retains view (call given) := by
  intro m
  by_cases enough : given + 1 ≤ m.stack.size
  · have here : m.stack[m.stack.size - (given + 1)]? = some m.stack[m.stack.size - (given + 1)] :=
      Array.getElem?_eq_getElem (by omega)
    generalize m.stack[m.stack.size - (given + 1)] = v at here
    rw [call_run enough here]
    cases v with
    | closure routine captured => exact invoke_retains blind routine captured given m
    | function routine => exact invoke_retains blind routine [] given m
    | builtin b => exact native_retains blind b given m
    | _ => rfl
  · rw [call_short (by omega)]
    rfl

theorem pushes_retains {x : Running Value} (retains : Retains view x) : Retains view (do push (← x); return Signal.next) :=
  retains_bind retains fun v => retains_bind (push_retains blind v) fun _ => retains_pure _

theorem unary_retains (f : Value → Except Fault Value) :
    Retains view (do let operand ← pop; push (← ofExcept (f operand)); return Signal.next) :=
  retains_bind (pop_retains blind) fun operand => pushes_retains blind (ofExcept_retains (f operand))

theorem binary_retains (f : Value → Value → Except Fault Value) :
    Retains view (do let rhs ← pop; let lhs ← pop; push (← ofExcept (f lhs rhs)); return Signal.next) :=
  retains_bind (pop_retains blind) fun rhs => retains_bind (pop_retains blind) fun lhs =>
    pushes_retains blind (ofExcept_retains (f lhs rhs))

theorem writes_retains {f : Value → Running Unit} (retains : ∀ v, Retains view (f v)) :
    Retains view (do let v ← pop; f v; return Signal.next) :=
  retains_bind (pop_retains blind) fun v => retains_bind (retains v) fun _ => retains_pure _

theorem execute_retains {op : OpCode} {x y : Nat}
    (sets : op = .setGlobal ∨ op = .assignGlobal → ∀ v, Retains view (setGlobal op x v))
    (drops : op ≠ .pop) (value : op ≠ .returnValue) (null : op ≠ .returnNull) : Retains view (execute op x y) := by
  cases op
  case pop | returnValue | returnNull => contradiction
  case setGlobal => exact writes_retains blind (sets (.inl rfl))
  case assignGlobal => exact writes_retains blind (sets (.inr rfl))
  case setLocal | assignLocal => exact writes_retains blind fun v => setLocal_retains blind _ x v
  case constant => exact pushes_retains blind (constant_retains _ x)
  case getGlobal => exact pushes_retains blind (global_retains x)
  case getLocal => exact pushes_retains blind (getLocal_retains _ x)
  case getFree => exact pushes_retains blind (captured_retains _ x)
  case pushTrue | pushFalse | pushNull => exact retains_bind (push_retains blind _) fun _ => retains_pure _
  case jump => exact retains_bind (jump_retains blind x) fun _ => retains_pure _
  case call => exact retains_bind (call_retains blind x) fun _ => retains_pure _
  case minus | bang => exact unary_retains blind _
  case add | sub | mul | div | equal | notEqual | greater | atLeast => exact binary_retains blind _
  case index => exact binary_retains blind fun target position => Operation.index target position
  case array =>
    exact retains_bind (popMany_retains blind _) fun items => retains_bind (push_retains blind _) fun _ => retains_pure _
  case hash =>
    exact retains_bind (popMany_retains blind _) fun items => pushes_retains blind (ofExcept_retains (pairUp items []))
  case currentClosure => exact retains_bind retains_get fun m => retains_bind (push_retains blind _) fun _ => retains_pure _
  case jumpUnless =>
    refine retains_bind (pop_retains blind) fun condition => ?_
    split
    · exact retains_bind (jump_retains blind x) fun _ => retains_pure _
    · exact retains_pure _
  case getBuiltin =>
    unfold execute
    cases Builtin.ofIndex? x with
    | some b => exact retains_bind (push_retains blind _) fun _ => retains_pure _
    | none => exact retains_fail _
  case closure =>
    refine retains_bind (constant_retains _ x) fun v => ?_
    cases v with
    | function routine =>
      exact retains_bind (popMany_retains blind _) fun captured =>
        retains_bind (push_retains blind _) fun _ => retains_pure _
    | _ => exact retains_fail _

end

end Running
end StackScript
