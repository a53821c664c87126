import StackScript.Machine.Step

-- What each step asks of the meaning of values: every operator, condition, index, hash key and native function that
-- it evaluates, with the values that it evaluates it on.
namespace StackScript

inductive Request where
  | binary (opcode : OpCode) (lhs rhs : Value)
  | unary (opcode : OpCode) (operand : Value)
  | truthy (condition : Value)
  | index (target position : Value)
  | key (value : Value)
  | native (builtin : Builtin) (arguments : List Value)

namespace Machine

def below? (m : Machine) (depth : Nat) : Option Value :=
  if depth < m.stack.size then m.stack[m.stack.size - (depth + 1)]? else none

-- The top `n` values, the lowest first.
def top? (m : Machine) (n : Nat) : Option (List Value) :=
  if n ≤ m.stack.size then some (m.stack.extract (m.stack.size - n) m.stack.size).toList else none

-- Keys that take turns with values, up to the first that is none.
def keysAsked : List Value → List Request
  | k :: _ :: rest => .key k :: if k.key?.isSome then keysAsked rest else []
  | _ => []

-- What the next step asks, in order.
def requests (m : Machine) : List Request :=
  match m.frame.routine.code.itemAt m.frame.next with
  | .instruction ⟨op, operands⟩ =>
    let n := operands[0]?.getD 0
    match op with
    | .add | .sub | .mul | .div | .equal | .notEqual | .greater | .atLeast =>
      match m.below? 1, m.below? 0 with
      | some lhs, some rhs => [.binary op lhs rhs]
      | _, _ => []
    | .minus | .bang => (m.below? 0).toList.map (.unary op)
    | .jumpUnless => (m.below? 0).toList.map .truthy
    | .hash => ((m.top? n).map keysAsked).getD []
    | .index =>
      match m.below? 1, m.below? 0 with
      | some target, some position => [.index target position]
      | _, _ => []
    | .call =>
      match m.below? n, m.top? n with
      | some (.builtin b), some arguments => [.native b arguments]
      | _, _ => []
    | _ => []
  | _ => []

-- Runs as `run` does and adds up what the steps ask.
def observe : (budget : Nat) → Array Request → Machine → Ending × Machine × Array Request
  | 0, asked, m => (.unfinished, m, asked)
  | budget + 1, asked, m =>
    let asked := asked ++ m.requests
    match Running.step m with
    | .ok .next m => observe budget asked m
    | .ok .halt m => (.halted, m, asked)
    | .error stop m => (.stopped stop, m, asked)

end Machine
end StackScript
