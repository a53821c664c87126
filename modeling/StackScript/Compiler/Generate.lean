import StackScript.Compiler.Emission
import StackScript.Syntax.Render

-- Code for statements and expressions. Every expression adds one value to the stack and every statement none.
namespace StackScript.Compiling

-- The operand of a jump until its target is known.
def placeholder : Nat := 9999

def unaryOpCode? : String → Option OpCode
  | "-" => some .minus
  | "!" => some .bang
  | _ => none

def binaryOpCode? : String → Option OpCode
  | "+" => some .add
  | "-" => some .sub
  | "*" => some .mul
  | "/" => some .div
  | ">" | "<" => some .greater
  | ">=" | "<=" => some .atLeast
  | "==" => some .equal
  | "!=" => some .notEqual
  | _ => none

-- There is no opcode for less than: `a < b` is `b > a`, and its right operand comes first.
def rightFirst (operator : String) : Bool := operator = "<" || operator = "<="

-- A branch adds the value of its last statement if that is an expression, and null otherwise.
def branch (body : Compiling Unit) : Compiling Unit := do
  let start ← position
  body
  if (← get).fragment.endsWith .pop start then modify fun c => { c with fragment := c.fragment.dropLast }
  else emit .pushNull []

def conditional (span : Span) (condition consequence alternative : Compiling Unit) : Compiling Unit := do
  condition
  let skip ← position
  emit .jumpUnless [placeholder]
  branch consequence
  let leap ← position
  emit .jump [placeholder]
  patch skip (← position) span
  alternative
  patch leap (← position) span

def declareAll (span : Span) : List String → Compiling Unit
  | [] => pure ()
  | name :: rest => do
    let _ ← define name .fixed span
    declareAll span rest

-- A function body gives back the value of its last statement if that is an expression.
def finishBody : Compiling Unit := do
  if (← get).fragment.endsWith .pop 0 then modify fun c => { c with fragment := c.fragment.replaceLast .returnValue }
  if !(← get).fragment.endsWith .returnValue 0 then emit .returnNull []

-- Code that makes a function. What it captures is loaded first, in the scope around it.
def makeFunction (name : Option (String × Mutability)) (parameters : List String) (span : Span)
    (body : Compiling Unit) : Compiling Unit := do
  checkLimit parameters.length narrow "parameters" span
  enter
  if let some (name, mutability) := name then
    modify fun c => { c with symbols := (c.symbols.defineItself name mutability).2 }
  declareAll span parameters
  body
  finishBody
  let (code, scope) ← leave
  checkLimit scope.slots narrow "local bindings" span
  checkLimit scope.captures.size narrow "captured variables" span
  loadAll scope.captures.toList
  let index ← addConstant (.function ⟨code, parameters.length, scope.slots⟩) span
  if scope.captures.isEmpty then emit .constant [index]
  else emit .closure [index, scope.captures.size]

def assignTo (name : String) (span : Span) : Compiling Unit := do
  let symbol ← resolve name span
  match symbol.mutability, symbol.storage with
  | .assignable, .global => emit .assignGlobal [symbol.index]
  | .assignable, .frame => emit .assignLocal [symbol.index]
  | .assignable, .itself => refuse (.assignItself name span)
  | _, _ => refuse (.assignConstant name span)

def inOrder : List (String × Compiling Unit) → Compiling Unit
  | [] => pure ()
  | (_, step) :: rest => do
    step
    inOrder rest

mutual

def statement : Stmt → Compiling Unit
  | .expression _ value => do
    expression value
    emit .pop []
  | .returns _ value => do
    expression value
    emit .returnValue []
  | .assign span name value => do
    expression value
    assignTo name span
  -- A global `var` function sees its own name as the global it is kept in, so that its body can assign it.
  | .declare span mutability name (.function place _ parameters body) => do
    if mutability = .assignable && (← get).symbols.isGlobal then
      let symbol ← define name mutability span
      makeFunction none parameters place (statements body)
      store symbol span
    else
      makeFunction (some (name, mutability)) parameters place (statements body)
      store (← define name mutability span) span
  | .declare span mutability name value => do
    expression value
    store (← define name mutability span) span

def statements : List Stmt → Compiling Unit
  | [] => pure ()
  | s :: rest => do
    statement s
    statements rest

def expression : Expr → Compiling Unit
  | .integer span n => emitConstant (.integer n) span
  | .float span x => emitConstant (.float x) span
  | .string span s => emitConstant (.string s) span
  | .boolean _ true => emit .pushTrue []
  | .boolean _ false => emit .pushFalse []
  | .identifier span name => do load (← resolve name span)
  | .unary span operator right => do
    match unaryOpCode? operator with
    | none => refuse (.unknownOperator operator span)
    | some op =>
      expression right
      emit op []
  | .binary span operator left right => do
    match binaryOpCode? operator with
    | none => refuse (.unknownOperator operator span)
    | some op =>
      if rightFirst operator then
        expression right
        expression left
      else
        expression left
        expression right
      emit op []
  | .conditional span condition consequence none =>
    conditional span (expression condition) (statements consequence) (emit .pushNull [])
  | .conditional span condition consequence (some alternative) =>
    conditional span (expression condition) (statements consequence) (branch (statements alternative))
  | .array span elements => do
    checkLimit elements.length wide "array elements" span
    expressions elements
    emit .array [elements.length]
  -- The order in which pairs are written does not matter: they are compiled in the order of their keys' texts.
  | .hash span pairs => do
    checkLimit (2 * pairs.length) wide "hash entries" span
    inOrder ((pairSteps pairs).mergeSort fun a b => a.1 ≤ b.1)
    emit .hash [2 * pairs.length]
  | .index _ target position => do
    expression target
    expression position
    emit .index []
  | .function span name parameters body =>
    makeFunction (name.map (·, .fixed)) parameters span (statements body)
  | .call span callee arguments => do
    checkLimit arguments.length narrow "call arguments" span
    expression callee
    expressions arguments
    emit .call [arguments.length]

def expressions : List Expr → Compiling Unit
  | [] => pure ()
  | e :: rest => do
    expression e
    expressions rest

def pairSteps : List (Expr × Expr) → List (String × Compiling Unit)
  | [] => []
  | (key, value) :: rest => (key.text, do expression key; expression value) :: pairSteps rest

end

end Compiling

-- Compiles a program behind what a compiler has already written.
def Compiler.compile (p : Program) (c : Compiler) : EStateM.Result Rejection Compiler Unit :=
  Compiling.statements p.statements c

end StackScript
