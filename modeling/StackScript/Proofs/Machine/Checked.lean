import StackScript.Machine.Step

-- The stack machine with its accesses checked. What the plain machine does without asking first is done here by operations
-- that stop it when an index, a slice, a difference, a sum or a quotient is out of range.
namespace StackScript

inductive Checked.Trap where
  | fault (f : Fault)
  | outOfRange
deriving DecidableEq

abbrev Checked := EStateM Checked.Trap Machine

namespace Checked

variable {α : Type}

-- What asks before each of its accesses is done as it is, but a sum that no word holds is out of range.
def plain (x : Running α) : Checked α := fun m =>
  match x m with
  | .ok a n => .ok a n
  | .error (.fault f) n => .error (.fault f) n
  | .error .additionOverflow n => .error .outOfRange n

def fail (f : Fault) : Checked α := throw (.fault f)

def inRange (result : Option α) : Checked α :=
  match result with
  | some x => pure x
  | none => throw .outOfRange

section
variable {β : Type} (m n : Machine)

@[simp] theorem get_bind (f : Machine → Checked β) : (get >>= f : Checked β) m = f m m := rfl

@[simp] theorem set_bind (f : PUnit → Checked β) : (set n >>= f : Checked β) m = f ⟨⟩ n := rfl

@[simp] theorem set_apply : (set n : Checked PUnit) m = .ok ⟨⟩ n := rfl

@[simp] theorem pure_apply (x : α) : (pure x : Checked α) m = .ok x m := rfl

@[simp] theorem fail_apply (f : Fault) : (fail f : Checked α) m = .error (.fault f) m := rfl

@[simp] theorem inRange_bind (x : α) (f : α → Checked β) : (inRange (some x) >>= f) m = f x m := rfl

@[simp] theorem inRange_apply (x : α) : inRange (some x) m = .ok x m := rfl

variable {x : Checked α} {f : α → Checked β} {m n}

theorem bind_goes {a : α} (run : x m = .ok a n) : (x >>= f) m = f a n := by
  simp only [bind, EStateM.bind, run]

theorem bind_stops {trap : Trap} (run : x m = .error trap n) : (x >>= f) m = .error trap n := by
  simp only [bind, EStateM.bind, run]

end

def entry (xs : Array α) (i : Nat) : Checked α := inRange xs[i]?

def replace (xs : Array α) (i : Nat) (x : α) : Checked (Array α) :=
  inRange (if i < xs.size then some (xs.setIfInBounds i x) else none)

def splitAt (xs : Array α) (n : Nat) : Checked (Array α × Array α) :=
  inRange (if n ≤ xs.size then some (xs.shrink n, xs.extract n xs.size) else none)

def minus (a b : Nat) : Checked Nat := inRange (if b ≤ a then some (a - b) else none)

def plus (a b : Nat) : Checked Nat := inRange (if a + b < Machine.sizeWord then some (a + b) else none)

def quotient (a b : Int32) : Checked Int32 := inRange (if b = 0 then none else some (a / b))

def resize (values : Array Value) (size : Nat) : Array Value :=
  values.shrink size ++ List.replicate (size - values.size) Value.null

theorem resize_size (values : Array Value) (size : Nat) : (resize values size).size = size := by
  rw [resize, ← Array.length_toList, Array.toList_appendList, List.length_append, List.length_replicate, Array.length_toList,
    Array.size_shrink]
  omega

theorem resize_mem {values : Array Value} {size : Nat} {v : Value} (present : v ∈ resize values size) :
    v ∈ values ∨ v = .null := by
  rw [resize, ← Array.mem_toList_iff, Array.toList_appendList] at present
  rcases List.mem_append.mp present with old | new
  · obtain ⟨i, _, rfl⟩ := Array.mem_iff_getElem.mp (Array.mem_toList_iff.mp old)
    rw [Array.getElem_shrink]
    exact .inl (Array.getElem_mem _)
  · exact .inr (List.eq_of_mem_replicate new)

theorem resize_more {values : Array Value} {size : Nat} (more : values.size ≤ size) :
    resize values size = values ++ List.replicate (size - values.size) Value.null := by
  have same : values.shrink size = values := by
    apply Array.toList_inj.mp
    rw [Array.toList_shrink, List.take_of_length_le more]
  rw [resize, same]

def popMany (n : Nat) : Checked (List Value) := do
  let m ← get
  if m.stack.size < n then fail .stackUnderflow
  else
    let (below, taken) ← splitAt m.stack (m.stack.size - n)
    set { m with stack := below }
    return taken.toList

def binary (op : OpCode) (lhs rhs : Value) : Checked Value :=
  match op, lhs, rhs with
  | .div, .integer a, .integer b =>
    if b = 0 then fail .divisionByZero else return .integer (← quotient a b)
  | op, lhs, rhs => plain (Running.ofExcept (Operation.binary op lhs rhs))

def setGlobal (op : OpCode) (n : Nat) (v : Value) : Checked Unit := do
  let m ← get
  if Machine.globalCapacity ≤ n then fail (.invalidOperand op n)
  else if m.globals.size ≤ n then
    let globals := resize m.globals (← plus n 1)
    set { m with globals := ← replace globals n v }
  else set { m with globals := ← replace m.globals n v }

def localSlot (op : OpCode) (n : Nat) : Checked Nat := do
  let m ← get
  let slot ← plus m.frame.base n
  if slot < m.stack.size then return slot else fail (.invalidOperand op n)

def getLocal (op : OpCode) (n : Nat) : Checked Value := do
  let slot ← localSlot op n
  entry (← get).stack slot

def setLocal (op : OpCode) (n : Nat) (v : Value) : Checked Unit := do
  let slot ← localSlot op n
  let m ← get
  set { m with stack := ← replace m.stack slot v }

def runningFrame : Checked Frame := do
  let frames := (← get).frames
  entry frames (← minus frames.size 1)

def captured (op : OpCode) (n : Nat) : Checked Value := do
  match (← runningFrame).captured[n]? with
  | some v => return v
  | none => fail (.invalidOperand op n)

def native (b : Builtin) (args : List Value) : Checked (Value × List String) :=
  match b, args with
  | .rest, [.array (first :: items)] => do
    let (_, others) ← splitAt (first :: items).toArray 1
    return (.array others.toList, [])
  | b, args => plain (Running.ofExcept (Operation.call b args))

def invoke (routine : Routine) (captured : List Value) (given : Nat) : Checked Unit := do
  let m ← get
  if given ≠ routine.parameters then fail (.wrongArgumentCount routine.parameters given)
  else if Machine.frameCapacity ≤ m.frames.size then fail .stackOverflow
  else
    let base ← minus m.stack.size given
    let size ← plus m.stack.size (routine.locals - routine.parameters)
    if Machine.stackCapacity < size then fail .stackOverflow
    else
      set { m with
        stack := resize m.stack size
        frame := ⟨routine, captured, 0, base⟩
        callers := m.callers.push m.frame }

def callOf (given : Nat) : Value → Checked Unit
  | .closure routine captured => invoke routine captured given
  | .function routine => invoke routine [] given
  | .builtin b => do
    let args ← popMany given
    let _ ← plain Running.pop
    let (v, lines) ← native b args
    modify fun m => { m with output := m.output ++ lines }
    plain (Running.push v)
  | other => fail (.callingNonFunction other.text)

def call (given : Nat) : Checked Unit := do
  let m ← get
  let needed ← plus given 1
  if m.stack.size < needed then fail .stackUnderflow
  else callOf given (← entry m.stack (m.stack.size - needed))

def execute (op : OpCode) (a b : Nat) : Checked Signal := do
  match op with
  | .add | .sub | .mul | .div | .equal | .notEqual | .greater | .atLeast =>
    let rhs ← plain Running.pop
    let lhs ← plain Running.pop
    plain (Running.push (← binary op lhs rhs))
  | .setGlobal | .assignGlobal =>
    let v ← plain Running.pop
    setGlobal op a v
  | .setLocal | .assignLocal =>
    let v ← plain Running.pop
    setLocal op a v
  | .getLocal => plain (Running.push (← getLocal op a))
  | .array => plain (Running.push (.array (← popMany a)))
  | .hash =>
    let items ← popMany a
    plain (Running.push (← plain (Running.ofExcept (Running.pairUp items []))))
  | .call => call a
  | .closure =>
    match ← plain (Running.constant op a) with
    | .function routine =>
      let captured ← popMany b
      plain (Running.push (.closure routine captured))
    | _ => fail (.invalidOperand op a)
  | .getFree => plain (Running.push (← captured op a))
  | .currentClosure =>
    let frame ← runningFrame
    plain (Running.push (.closure frame.routine frame.captured))
  | op => return ← plain (Running.execute op a b)
  return .next

def step : Checked Signal := do
  let frame := (← get).frame
  match frame.routine.code.itemAt frame.next with
  | .instruction i =>
    plain (Running.jump (frame.next + i.opcode.width))
    execute i.opcode (i.operands[0]?.getD 0) (i.operands[1]?.getD 0)
  | _ => plain Running.step

end Checked
end StackScript
