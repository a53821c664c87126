import StackScript.Machine.State

-- One instruction of the stack machine.
namespace StackScript.Running

-- The hash of keys and values that take turns. A key without a value is ignored.
def pairUp : List Value → List (Key × Value) → Except Fault Value
  | k :: v :: rest, pairs => do pairUp rest (Value.insert (← Operation.key k) v pairs)
  | _, pairs => return .hash pairs

-- Calls the value that lies below `given` arguments.
def call (given : Nat) : Running Unit := do
  let m ← get
  if m.stack.size < given + 1 then fail .stackUnderflow
  match m.stack[m.stack.size - (given + 1)]?.getD .null with
  | .closure routine captured => invoke routine captured given
  | .function routine => invoke routine [] given
  | .builtin b =>
    let args ← popMany given
    let _ ← pop
    let (v, lines) ← ofExcept (Operation.call b args)
    modify fun m => { m with output := m.output ++ lines }
    push v
  | other => fail (.callingNonFunction other.text)

def execute (op : OpCode) (a b : Nat) : Running Signal := do
  match op with
  | .constant => push (← constant op a)
  | .pop => drop
  | .add | .sub | .mul | .div | .equal | .notEqual | .greater | .atLeast =>
    let rhs ← pop
    let lhs ← pop
    push (← ofExcept (Operation.binary op lhs rhs))
  | .minus | .bang =>
    let operand ← pop
    push (← ofExcept (Operation.unary op operand))
  | .pushTrue => push (.boolean true)
  | .pushFalse => push (.boolean false)
  | .pushNull => push .null
  | .jump => jump a
  | .jumpUnless =>
    let condition ← pop
    if !condition.truthy then jump a
  | .setGlobal | .assignGlobal =>
    let v ← pop
    setGlobal op a v
  | .getGlobal => push (← global a)
  | .setLocal | .assignLocal =>
    let v ← pop
    setLocal op a v
  | .getLocal => push (← getLocal op a)
  | .array => push (.array (← popMany a))
  | .hash =>
    let items ← popMany a
    push (← ofExcept (pairUp items []))
  | .index =>
    let position ← pop
    let target ← pop
    push (← ofExcept (Operation.index target position))
  | .call => call a
  | .returnValue => return ← leave (← pop)
  | .returnNull => return ← leave .null
  | .getBuiltin =>
    match Builtin.ofIndex? a with
    | some b => push (.builtin b)
    | none => fail (.invalidOperand op a)
  | .closure =>
    match ← constant op a with
    | .function routine =>
      let captured ← popMany b
      push (.closure routine captured)
    | _ => fail (.invalidOperand op a)
  | .getFree => push (← captured op a)
  | .currentClosure =>
    let frame := (← get).frame
    push (.closure frame.routine frame.captured)
  return .next

-- Does the next instruction. A function that runs off its end gives back null; there the main program halts.
def step : Running Signal := do
  let frame := (← get).frame
  match frame.routine.code.itemAt frame.next with
  | .nothing => if (← get).callers.isEmpty then return .halt else leave .null
  | .unknown byte => fail (.unknownOpCode byte frame.next)
  | .truncated op => fail (.truncatedInstruction op frame.next)
  | .instruction i =>
    jump (frame.next + i.opcode.width)
    execute i.opcode (i.operands[0]?.getD 0) (i.operands[1]?.getD 0)

end Running

-- How a run ends: by itself, in the middle of an instruction, or not within its budget of steps.
inductive Ending where
  | halted
  | stopped (stop : Stop)
  | unfinished
deriving DecidableEq

@[match_pattern]
abbrev Ending.failed (f : Fault) : Ending := .stopped (.fault f)

namespace Machine

-- A budget beyond what any computer spends.
def ample : Nat := Nat.pow 2 62

def run : (budget : Nat) → Machine → Ending × Machine
  | 0, m => (.unfinished, m)
  | budget + 1, m =>
    match Running.step m with
    | .ok .next m => run budget m
    | .ok .halt m => (.halted, m)
    | .error stop m => (.stopped stop, m)

end Machine
end StackScript
