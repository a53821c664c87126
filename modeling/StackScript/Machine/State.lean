import StackScript.Bytecode.Basic
import StackScript.Machine.Operation

-- The stack machine between two instructions, and what instructions are made of. A step that fails keeps what it
-- did before it failed.
namespace StackScript

-- A function being run. Its arguments and other locals begin at slot `base` of the stack.
structure Frame where
  routine : Routine
  captured : List Value
  next : Nat
  base : Nat
deriving Inhabited

-- The frames below the running one stand in `callers`, the main program first.
structure Machine where
  constants : Array Value
  globals : Array Value
  stack : Array Value
  frame : Frame
  callers : Array Frame
  last : Option Value -- the value most recently popped
  output : Array String -- the lines printed
deriving Inhabited

namespace Machine

def stackCapacity : Nat := 2048
def globalCapacity : Nat := 65536
def frameCapacity : Nat := 1024

-- Sizes are 64-bit words.
def sizeWord : Nat := UInt64.size

-- The functions that are running, the main program first.
def frames (m : Machine) : Array Frame := m.callers.push m.frame

-- A machine about to run a program on globals that earlier ones left.
def start (b : Bytecode) (globals : Array Value) : Machine :=
  ⟨b.constants, globals, #[], ⟨⟨b.code, 0, 0⟩, [], 0, 0⟩, #[], none, #[]⟩

end Machine

-- Why the machine stops in the middle of an instruction: for a fault, which it reports, or because it adds two sizes
-- whose sum no word holds, which nothing asks before.
inductive Stop where
  | fault (f : Fault)
  | additionOverflow
deriving DecidableEq

abbrev Running := EStateM Stop Machine

inductive Signal where
  | next
  | halt
deriving DecidableEq

namespace Running

def fail (f : Fault) : Running α := throw (.fault f)

def ofExcept (r : Except Fault α) : Running α :=
  match r with
  | .ok x => pure x
  | .error f => fail f

def push (v : Value) : Running Unit := fun m =>
  if Machine.stackCapacity ≤ m.stack.size then .error (.fault .stackOverflow) m
  else .ok () { m with stack := m.stack.push v }

def pop : Running Value := fun m =>
  match m.stack.back? with
  | some v => .ok v { m with stack := m.stack.pop }
  | none => .error (.fault .stackUnderflow) m

-- Takes the top `n` values, the lowest first.
def popMany (n : Nat) : Running (List Value) := fun m =>
  if n ≤ m.stack.size then
    let below := m.stack.size - n
    let taken := (m.stack.extract below m.stack.size).toList
    .ok taken { m with stack := m.stack.shrink below }
  else .error (.fault .stackUnderflow) m

-- Drops the top value and keeps it as the last one popped. Of an empty stack it is none.
def drop : Running Unit := modify fun m =>
  let last := m.stack.back?
  { m with stack := m.stack.pop, last }

def jump (target : Nat) : Running Unit := modify fun m => { m with frame := { m.frame with next := target } }

def constant (op : OpCode) (n : Nat) : Running Value := fun m =>
  match m.constants[n]? with
  | some v => .ok v m
  | none => .error (.fault (.invalidOperand op n)) m

-- What was never set is null.
def global (n : Nat) : Running Value := fun m => .ok (m.globals[n]?.getD .null) m

def setGlobal (op : OpCode) (n : Nat) (v : Value) : Running Unit := fun m =>
  if n < Machine.globalCapacity then
    let missing := n + 1 - m.globals.size
    .ok () { m with globals := (m.globals ++ List.replicate missing Value.null).setIfInBounds n v }
  else .error (.fault (.invalidOperand op n)) m

def getLocal (op : OpCode) (n : Nat) : Running Value := fun m =>
  match m.stack[m.frame.base + n]? with
  | some v => .ok v m
  | none => .error (.fault (.invalidOperand op n)) m

def setLocal (op : OpCode) (n : Nat) (v : Value) : Running Unit := fun m =>
  if m.frame.base + n < m.stack.size then .ok () { m with stack := m.stack.setIfInBounds (m.frame.base + n) v }
  else .error (.fault (.invalidOperand op n)) m

def captured (op : OpCode) (n : Nat) : Running Value := fun m =>
  match m.frame.captured[n]? with
  | some v => .ok v m
  | none => .error (.fault (.invalidOperand op n)) m

-- Starts a function on the arguments that lie on top of the stack. The locals behind them begin as null.
def invoke (routine : Routine) (captured : List Value) (given : Nat) : Running Unit := fun m =>
  if given ≠ routine.parameters then .error (.fault (.wrongArgumentCount routine.parameters given)) m
  else if Machine.frameCapacity ≤ m.callers.size + 1 then .error (.fault .stackOverflow) m
  else
    let base := m.stack.size - given
    let further := routine.locals - routine.parameters
    let size := m.stack.size + further
    if Machine.sizeWord ≤ size then .error .additionOverflow m
    else if Machine.stackCapacity < size then .error (.fault .stackOverflow) m
    else .ok () { m with
      stack := m.stack ++ List.replicate further Value.null
      frame := ⟨routine, captured, 0, base⟩
      callers := m.callers.push m.frame }

-- Ends the running function. Its arguments, its locals and the function itself make room for its value; of the
-- main program, it is what was popped last.
def leave (v : Value) : Running Signal := fun m =>
  match m.callers.back? with
  | none => .ok .halt { m with last := some v }
  | some caller =>
    match push v { m with stack := m.stack.shrink (m.frame.base - 1), frame := caller, callers := m.callers.pop } with
    | .ok _ m => .ok .next m
    | .error stop m => .error stop m

end Running
end StackScript
