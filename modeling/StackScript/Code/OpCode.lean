namespace StackScript

-- The kinds of instruction, in the order of their bytes.
inductive OpCode where
  | constant
  | pop
  | add
  | sub
  | mul
  | div
  | pushTrue
  | pushFalse
  | equal
  | notEqual
  | greater
  | atLeast
  | minus
  | bang
  | jumpUnless
  | jump
  | pushNull
  | getGlobal
  | setGlobal
  | assignGlobal
  | array
  | hash
  | index
  | call
  | returnValue
  | returnNull
  | getLocal
  | setLocal
  | assignLocal
  | getBuiltin
  | closure
  | getFree
  | currentClosure
deriving DecidableEq, Inhabited

namespace OpCode

def all : Array OpCode := #[
  constant, pop, add, sub, mul, div, pushTrue, pushFalse, equal, notEqual, greater, atLeast, minus, bang,
  jumpUnless, jump, pushNull, getGlobal, setGlobal, assignGlobal, array, hash, index, call, returnValue,
  returnNull, getLocal, setLocal, assignLocal, getBuiltin, closure, getFree, currentClosure]

def byte (op : OpCode) : UInt8 := op.ctorIdx.toUInt8

def ofByte? (b : UInt8) : Option OpCode := all[b.toNat]?

theorem ofByte?_byte (op : OpCode) : ofByte? op.byte = some op := by cases op <;> rfl

def operandWidths : OpCode → List Nat
  | constant | jumpUnless | jump | getGlobal | setGlobal | assignGlobal | array | hash => [2]
  | call | getLocal | setLocal | assignLocal | getBuiltin | getFree => [1]
  | closure => [2, 1]
  | _ => []

def width (op : OpCode) : Nat := 1 + op.operandWidths.foldr (· + ·) 0

theorem width_pos (op : OpCode) : 0 < op.width := by unfold width; omega

def name : OpCode → String
  | constant => "Constant"
  | pop => "Pop"
  | add => "Add"
  | sub => "Sub"
  | mul => "Mul"
  | div => "Div"
  | pushTrue => "True"
  | pushFalse => "False"
  | equal => "Equal"
  | notEqual => "NotEqual"
  | greater => "GreaterThan"
  | atLeast => "GreaterThanOrEqual"
  | minus => "Minus"
  | bang => "Bang"
  | jumpUnless => "JumpNotTruthy"
  | jump => "Jump"
  | pushNull => "Null"
  | getGlobal => "GetGlobal"
  | setGlobal => "SetGlobal"
  | assignGlobal => "AssignGlobal"
  | array => "Array"
  | hash => "Hash"
  | index => "Index"
  | call => "Call"
  | returnValue => "ReturnValue"
  | returnNull => "Return"
  | getLocal => "GetLocal"
  | setLocal => "SetLocal"
  | assignLocal => "AssignLocal"
  | getBuiltin => "GetBuiltin"
  | closure => "Closure"
  | getFree => "GetFree"
  | currentClosure => "CurrentClosure"

def ofName? (s : String) : Option OpCode := all.find? (·.name = s)

end OpCode
end StackScript
