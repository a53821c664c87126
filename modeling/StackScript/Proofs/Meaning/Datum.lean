import StackScript.Machine.Operation
import StackScript.Syntax.Basic

-- Values of a program that is evaluated as a tree. They differ from those of a machine in functions, which are known
-- by what was written.
namespace StackScript

structure Literal where
  routine : Routine -- what it shows when it is printed or compared
  own : Option String
  parameters : List String
  body : List Stmt
  captured : List String -- the names that it copies where it is made
  globals : List String -- the global names declared before it
  literals : Nat -- how many numbers, strings and functions come before its body

inductive Datum where
  | null
  | integer (n : Int32)
  | float (x : Binary64)
  | boolean (b : Bool)
  | string (s : String)
  | builtin (b : Builtin)
  | array (items : List Datum)
  | hash (pairs : List (Key × Datum))
  | function (f : Literal) -- one that copied nothing
  | closure (f : Literal) (captured : List Datum)
deriving Inhabited

namespace Datum

mutual

-- What the operators, indexing and the native functions see.
def value : Datum → Value
  | .null => .null
  | .integer n => .integer n
  | .float x => .float x
  | .boolean b => .boolean b
  | .string s => .string s
  | .builtin b => .builtin b
  | .array items => .array (values items)
  | .hash pairs => .hash (pairValues pairs)
  | .function f => .function f.routine
  | .closure f captured => .closure f.routine (values captured)

def values : List Datum → List Value
  | [] => []
  | d :: rest => d.value :: values rest

def pairValues : List (Key × Datum) → List (Key × Value)
  | [] => []
  | (k, d) :: rest => (k, d.value) :: pairValues rest

end

-- A value without parts. Nothing else comes out of an operator.
def ofScalar : Value → Datum
  | .integer n => .integer n
  | .float x => .float x
  | .boolean b => .boolean b
  | .string s => .string s
  | _ => .null

def binary (op : OpCode) (lhs rhs : Datum) : Except Fault Datum :=
  (Operation.binary op lhs.value rhs.value).map ofScalar

def unary (op : OpCode) (operand : Datum) : Except Fault Datum := (Operation.unary op operand.value).map ofScalar

def insert (k : Key) (d : Datum) : List (Key × Datum) → List (Key × Datum)
  | [] => [(k, d)]
  | (l, e) :: rest =>
    match k.compare l with
    | .lt => (k, d) :: (l, e) :: rest
    | .eq => (k, d) :: rest
    | .gt => (l, e) :: insert k d rest

def pairUp : List (Datum × Datum) → List (Key × Datum) → Except Fault Datum
  | [], pairs => .ok (.hash pairs)
  | (k, d) :: rest, pairs => do pairUp rest (insert (← Operation.key k.value) d pairs)

def index (target position : Datum) : Except Fault Datum :=
  match target, position with
  | .array items, .integer n => .ok (if n < 0 then .null else items[n.toInt.toNat]?.getD .null)
  | .hash pairs, other => do
    let k ← Operation.key other.value
    return ((pairs.find? fun (l, _) => k = l).map Prod.snd).getD .null
  | target, position => (Operation.index target.value position.value).map ofScalar

-- A native function. With what it gives come the lines that it prints.
def call (b : Builtin) (args : List Datum) : Except Fault (Datum × List String) :=
  match b, args with
  | .first, [.array items] => .ok (items.head?.getD .null, [])
  | .last, [.array items] => .ok (items.getLast?.getD .null, [])
  | .rest, [.array (_ :: items)] => .ok (.array items, [])
  | .push, [.array items, d] => .ok (.array (items ++ [d]), [])
  | b, args => (Operation.call b (values args)).map fun (v, lines) => (ofScalar v, lines)

end Datum
end StackScript
