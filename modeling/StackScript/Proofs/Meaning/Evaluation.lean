import StackScript.Proofs.Meaning.Datum
import StackScript.Proofs.Meaning.Names

-- The meaning of a program as a tree: it is evaluated by name, statement after statement, without code, stack or slots.
namespace StackScript

-- What names mean in the running function, or in the main program. Declarations that have been passed over count as
-- made, and their names mean null.
structure Env where
  nested : Bool -- in a function
  vars : List (String × Datum)
  itself : Option (String × Datum)
  captured : List (String × Datum)
  globals : List String
  literals : Nat -- how many numbers, strings and functions were passed

-- The values of functions around have been copied, and hide global ones.
def Env.inner (e : Env) : List (String × Datum) := e.vars ++ e.itself.toList ++ e.captured

def Env.knows (e : Env) (x : String) : Bool := (e.inner.lookup x).isSome

namespace Literal

-- The value that a function literal makes.
def made (f : Literal) (captured : List Datum) : Datum := if captured = [] then .function f else .closure f captured

-- What compiled code has for the function that is running: a closure, also of nothing, which is no value that a literal
-- makes. It is called as the function is, but is printed as something else, and does not equal it.
def closed (f : Literal) (captured : List Datum) : Datum := .closure f captured

-- Where the body of a function begins. What its own name denotes there is a parameter: the function, that is what its
-- literal `made`, or, as compiled code has it, the function `closed`.
def env (itself : Literal → List Datum → Datum) (f : Literal) (captured args : List Datum) : Env :=
  ⟨true, f.parameters.zip args, f.own.map (·, itself f captured), f.captured.zip captured, f.globals, f.literals⟩

end Literal

structure World where
  globals : Nat → Datum -- in the order of their declarations
  last : Option Datum -- of the expression statement that was evaluated last
  output : Array String

structure Situation where
  env : Env
  world : World

namespace Situation

def lookup (s : Situation) (x : String) : Datum :=
  (((s.env.inner.lookup x).or ((s.env.globals.idxOf? x).map s.world.globals)).or
    ((Builtin.all.find? fun b => b.name = x).map Datum.builtin)).getD .null

-- A new name means null until it is given a value. Global names mean null from the beginning.
def introduce (s : Situation) (x : String) : Situation :=
  if s.env.nested then { s with env := { s.env with vars := s.env.vars ++ [(x, .null)] } }
  else { s with env := { s.env with globals := s.env.globals ++ [x] } }

def assign (s : Situation) (x : String) (d : Datum) : Situation :=
  if (s.env.vars.lookup x).isSome then
    { s with env := { s.env with vars := s.env.vars.map fun (y, e) => (y, if x = y then d else e) } }
  else
    match s.env.globals.idxOf? x with
    | some n => { s with world := { s.world with globals := fun m => if m = n then d else s.world.globals m } }
    | none => s

def declare (s : Situation) (x : String) (d : Datum) : Situation := (s.introduce x).assign x d

def skip (s : Situation) : List Event → Situation
  | [] => s
  | .mention _ :: rest => s.skip rest
  | .declare x :: rest => (s.introduce x).skip rest
  | .literal :: rest => { s with env := { s.env with literals := s.env.literals + 1 } }.skip rest

end Situation

inductive Exit where
  | returned (d : Datum)
  | failed (f : Fault)
  | exhausted -- more calls within calls than allowed

abbrev Doing := EStateM Exit Situation

namespace Doing

def fail (f : Fault) : Doing α := throw (.failed f)

def ofExcept (r : Except Fault α) : Doing α :=
  match r with
  | .ok x => pure x
  | .error f => fail f

def constant (d : Datum) : Doing Datum := fun s => .ok d (s.skip [.literal])

def read (x : String) : Doing Datum := fun s => .ok (s.lookup x) s

def skip (events : List Event) : Doing Unit := modify fun s => s.skip events

-- A function copies what the names mean that it mentions and that are known in the function around it.
def make (label : Nat → Routine) (own : Option String) (parameters : List String) (body : List Stmt) :
    Doing Datum := fun s =>
  let inside := Event.outward (own.toList ++ parameters) (bodyEvents body)
  let captured := Event.capturing s.env.knows [] inside
  let after := s.skip (inside.filter (· = .literal))
  let f : Literal := ⟨label after.env.literals, own, parameters, body, captured, s.env.globals, s.env.literals⟩
  .ok (f.made (captured.map s.lookup)) (after.skip [.literal])

-- Calls a value. How a function runs on its arguments is left open.
def called (start : Literal → List Datum → List Datum → Doing Datum) (callee : Datum) (args : List Datum) :
    Doing Datum :=
  let checked (f : Literal) (captured : List Datum) : Doing Datum :=
    if args.length = f.parameters.length then start f captured args
    else fail (.wrongArgumentCount f.parameters.length args.length)
  match callee with
  | .function f => checked f []
  | .closure f captured => checked f captured
  | .builtin b => do
    let (d, lines) ← ofExcept (Datum.call b args)
    modify fun s => { s with world := { s.world with output := s.world.output ++ lines } }
    return d
  | other => fail (.callingNonFunction other.value.text)

def within (itself : Literal → List Datum → Datum) (f : Literal) (captured args : List Datum) (body : Doing Datum) :
    Doing Datum := fun s =>
  match body ⟨f.env itself captured args, s.world⟩ with
  | .ok d t | .error (.returned d) t => .ok d ⟨s.env, t.world⟩
  | .error e t => .error e ⟨s.env, t.world⟩

def unary : String → Datum → Except Fault Datum
  | "-" => Datum.unary .minus
  | _ => Datum.unary .bang

def binary : String → Datum → Datum → Except Fault Datum
  | "+" => Datum.binary .add
  | "-" => Datum.binary .sub
  | "*" => Datum.binary .mul
  | "/" => Datum.binary .div
  | "==" => Datum.binary .equal
  | "!=" => Datum.binary .notEqual
  | ">" => Datum.binary .greater
  | ">=" => Datum.binary .atLeast
  | "<" => fun lhs rhs => Datum.binary .greater rhs lhs
  | _ => fun lhs rhs => Datum.binary .atLeast rhs lhs

def inOrder : List (String × Doing (Datum × Datum)) → Doing (List (Datum × Datum))
  | [] => return []
  | (_, step) :: rest => return (← step) :: (← inOrder rest)

section
variable (label : Nat → Routine) (call : Datum → List Datum → Doing Datum)

mutual

def statement : Stmt → Doing Unit
  | .expression _ value => do
    let d ← expression value
    modify fun s => { s with world := { s.world with last := some d } }
  | .returns _ value => do throw (.returned (← expression value))
  | .assign _ name value => do
    let d ← expression value
    modify fun s => s.assign name d
  -- A global `var` function mentions the variable itself, not the function that it holds at first.
  | .declare _ mutability name (.function _ _ parameters body) => do
    if mutability = .assignable && !(← get).env.nested then
      modify fun s => s.introduce name
      let d ← make label none parameters body
      modify fun s => s.assign name d
    else
      let d ← make label (some name) parameters body
      modify fun s => s.declare name d
  | .declare _ _ name value => do
    let d ← expression value
    modify fun s => s.declare name d

def statements : List Stmt → Doing Unit
  | [] => return
  | s :: rest => do
    statement s
    statements rest

-- The value of statements is that of a last expression statement, or else null.
def block : List Stmt → Doing Datum
  | [] => return .null
  | [.expression _ value] => expression value
  | s :: rest => do
    statement s
    block rest

def expression : Expr → Doing Datum
  | .identifier _ name => read name
  | .integer _ n => constant (.integer n)
  | .float _ x => constant (.float x)
  | .string _ s => constant (.string s)
  | .boolean _ b => return .boolean b
  | .unary _ operator right => do
    let d ← expression right
    ofExcept (unary operator d)
  | .binary _ operator left right =>
    if swapped operator then do
      let rhs ← expression right
      let lhs ← expression left
      ofExcept (binary operator lhs rhs)
    else do
      let lhs ← expression left
      let rhs ← expression right
      ofExcept (binary operator lhs rhs)
  | .conditional _ condition consequence none => do
    let d ← expression condition
    if d.value.truthy then block consequence
    else
      skip (bodyEvents consequence)
      return .null
  | .conditional _ condition consequence (some alternative) => do
    let d ← expression condition
    if d.value.truthy then
      let e ← block consequence
      skip (bodyEvents alternative)
      return e
    else
      skip (bodyEvents consequence)
      block alternative
  | .function _ own parameters body => make label own parameters body
  | .call _ callee arguments => do
    let d ← expression callee
    let args ← expressions arguments
    call d args
  | .array _ elements => return .array (← expressions elements)
  | .hash _ pairs => do
    let items ← inOrder ((pairSteps pairs).mergeSort fun a b => a.1 ≤ b.1)
    ofExcept (Datum.pairUp items [])
  | .index _ target position => do
    let d ← expression target
    let e ← expression position
    ofExcept (Datum.index d e)

def expressions : List Expr → Doing (List Datum)
  | [] => return []
  | e :: rest => return (← expression e) :: (← expressions rest)

def pairSteps : List (Expr × Expr) → List (String × Doing (Datum × Datum))
  | [] => []
  | (key, value) :: rest => (key.text, do return (← expression key, ← expression value)) :: pairSteps rest

end

end

-- Calls within calls, up to a depth.
def apply (itself : Literal → List Datum → Datum) (label : Nat → Routine) :
    (depth : Nat) → Datum → List Datum → Doing Datum
  | 0 => called fun _ _ _ => throw .exhausted
  | depth + 1 => called fun f captured args =>
    within itself f captured args (block label (apply itself label depth) f.body)

end Doing

def Situation.initial : Situation := ⟨⟨false, [], none, [], [], 0⟩, ⟨fun _ => .null, none, #[]⟩⟩

-- Evaluates a program. What its functions show when they are printed or compared is given by their place among the
-- numbers, strings and functions of the program.
def Program.perform (itself : Literal → List Datum → Datum) (label : Nat → Routine) (depth : Nat) (p : Program) :
    EStateM.Result Exit Situation Unit :=
  Doing.statements label (Doing.apply itself label depth) p.statements .initial

end StackScript
