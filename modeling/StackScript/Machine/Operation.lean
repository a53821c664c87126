import StackScript.Machine.Fault

-- What the operators, indexing and the native functions mean on values.
namespace StackScript.Operation

def symbol : OpCode → String
  | .add => "+"
  | .sub | .minus => "-"
  | .mul => "*"
  | .div => "/"
  | .equal => "=="
  | .notEqual => "!="
  | .greater => ">"
  | .atLeast => ">="
  | .bang => "!"
  | op => op.name

def unsupported (lhs rhs : Value) (op : OpCode) : Fault :=
  .unsupportedOperation s!"{lhs.typeName} {symbol op} {rhs.typeName}"

-- Integers wrap at 32 bits; division truncates.
def onIntegers (a b : Int32) (op : OpCode) : Except Fault Value :=
  match op with
  | .add => .ok (.integer (a + b))
  | .sub => .ok (.integer (a - b))
  | .mul => .ok (.integer (a * b))
  | .div => if b = 0 then .error .divisionByZero else .ok (.integer (a / b))
  | .equal => .ok (.boolean (a = b))
  | .notEqual => .ok (.boolean (a ≠ b))
  | .greater => .ok (.boolean (b < a))
  | .atLeast => .ok (.boolean (b ≤ a))
  | op => .error (unsupported (.integer a) (.integer b) op)

def onFloats (x y : Binary64) (op : OpCode) : Except Fault Value :=
  match op with
  | .add => .ok (.float (x.add y))
  | .sub => .ok (.float (x.sub y))
  | .mul => .ok (.float (x.mul y))
  | .div => .ok (.float (x.div y))
  | .equal => .ok (.boolean (x.same y))
  | .notEqual => .ok (.boolean (!x.same y))
  | .greater => .ok (.boolean (x.greater y))
  | .atLeast => .ok (.boolean (x.atLeast y))
  | op => .error (unsupported (.float x) (.float y) op)

def asFloat? : Value → Option Binary64
  | .integer n => some (.ofInt32 n)
  | .float x => some x
  | _ => none

def isString : Value → Bool
  | .string _ => true
  | _ => false

-- Anything may be joined to a string or compared for equality; only strings among themselves have an order.
def onOthers (lhs rhs : Value) (op : OpCode) : Except Fault Value :=
  match op, lhs, rhs with
  | .equal, _, _ => .ok (.boolean (lhs.same rhs))
  | .notEqual, _, _ => .ok (.boolean (!lhs.same rhs))
  | .greater, .string s, .string t => .ok (.boolean (t < s))
  | .atLeast, .string s, .string t => .ok (.boolean (t ≤ s))
  | .add, _, _ =>
    if isString lhs || isString rhs then .ok (.string (lhs.text ++ rhs.text))
    else .error (unsupported lhs rhs op)
  | _, _, _ => .error (unsupported lhs rhs op)

-- Two integers give an integer; an integer and a float meet as floats.
def binary (op : OpCode) (lhs rhs : Value) : Except Fault Value :=
  match lhs, rhs with
  | .integer a, .integer b => onIntegers a b op
  | _, _ =>
    match asFloat? lhs, asFloat? rhs with
    | some x, some y => onFloats x y op
    | _, _ => onOthers lhs rhs op

def unary (op : OpCode) (operand : Value) : Except Fault Value :=
  match op, operand with
  | .bang, _ => .ok (.boolean (!operand.truthy))
  | .minus, .integer n => .ok (.integer (-n))
  | .minus, .float x => .ok (.float x.neg)
  | _, _ => .error (.unsupportedOperation (symbol op ++ operand.typeName))

def key (v : Value) : Except Fault Key :=
  match v.key? with
  | some k => .ok k
  | none => .error (.invalidHashKey v.text)

-- What is not there is null.
def index (target position : Value) : Except Fault Value :=
  match target, position with
  | .array items, .integer n => .ok (if n < 0 then .null else items[n.toInt.toNat]?.getD .null)
  | .array _, other => .error (.invalidArrayIndex other.text)
  | .hash pairs, other => do return (Value.find? (← key other) pairs).getD .null
  | other, _ => .error (.indexNotSupported other.text)

-- A native function on arguments of its arity. With the value come the lines that it prints.
def native (b : Builtin) (args : List Value) : Except Fault (Value × List String) :=
  match b, args with
  | .puts, args => .ok (.null, args.map Value.text)
  | .len, [.string s] => .ok (.integer (.ofNat s.length), [])
  | .len, [.array items] => .ok (.integer (.ofNat items.length), [])
  | .first, [.array items] => .ok (items.head?.getD .null, [])
  | .last, [.array items] => .ok (items.getLast?.getD .null, [])
  | .rest, [.array []] => .ok (.null, [])
  | .rest, [.array (_ :: items)] => .ok (.array items, [])
  | .push, [.array items, v] => .ok (.array (items ++ [v]), [])
  | b, args => .error (.unsupportedArgument b ((args.head?.map Value.typeName).getD "nothing"))

def call (b : Builtin) (args : List Value) : Except Fault (Value × List String) :=
  match b.arity? with
  | some expected =>
    if args.length = expected then native b args else .error (.wrongArgumentCount expected args.length)
  | none => native b args

end StackScript.Operation
