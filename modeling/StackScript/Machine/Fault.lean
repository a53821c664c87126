import StackScript.Value.Basic

namespace StackScript

inductive Fault where
  | stackOverflow
  | stackUnderflow
  | unknownOpCode (byte : UInt8) (offset : Nat)
  | truncatedInstruction (opcode : OpCode) (offset : Nat)
  | invalidOperand (opcode : OpCode) (operand : Nat)
  | invalidHashKey (text : String)
  | invalidArrayIndex (text : String)
  | indexNotSupported (text : String)
  | callingNonFunction (text : String)
  | wrongArgumentCount (expected given : Nat)
  | divisionByZero
  | unsupportedOperation (text : String)
  | unsupportedArgument (builtin : Builtin) (typeName : String)
deriving DecidableEq

def Fault.message : Fault → String
  | stackOverflow => "stack overflow"
  | stackUnderflow => "stack underflow"
  | unknownOpCode byte offset => s!"unknown opcode: 0x{Text.hex 2 byte.toNat} at offset {offset}"
  | truncatedInstruction op offset => s!"truncated {op.name} instruction at offset {offset}"
  | invalidOperand op operand => s!"{op.name} operand {operand} is out of range"
  | invalidHashKey text => s!"value {text} cannot be used as hash key"
  | invalidArrayIndex text => s!"index {text} can't be applied to type Array"
  | indexNotSupported text => s!"can't apply index to: {text}"
  | callingNonFunction text => s!"calling non-function: {text}"
  | wrongArgumentCount expected given => s!"wrong number of arguments: expected {expected} but got {given}"
  | divisionByZero => "division by zero"
  | unsupportedOperation text => s!"unsupported operation: {text}"
  | unsupportedArgument builtin typeName => s!"argument to `{builtin.name}` not supported, got {typeName}"

end StackScript
