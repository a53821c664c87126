import StackScript.Compiler.Generate
import StackScript.Proofs.Scope.Valid

-- How the code of a syntax tree lies in a finished code. A layout says it as a relation between the point where the
-- code of the tree begins and the point behind it, without the order in which a compiler writes and patches.
namespace StackScript

-- What is known once a function body or the main program is compiled to its end.
structure Finished where
  code : Code
  constants : Array Value
  locals : Nat
  captures : List Symbol
  globals : Nat -- how many global names there are
  nested : Bool -- a function body, not the main program

def Finished.inner (k : Finished) (code : Code) (scope : Scope) : Finished :=
  ⟨code, k.constants, scope.slots, scope.captures.toList, k.globals, true⟩

structure Point where
  symbols : SymbolTable
  constants : Nat
  position : Nat

def Symbol.Within (symbol : Symbol) (k : Finished) : Prop :=
  match symbol.storage with
  | .global => symbol.index < k.globals
  | .frame => symbol.index < k.locals ∧ k.nested = true
  | .native => symbol.index < Builtin.all.length
  | .captured => (k.captures[symbol.index]?).map Symbol.name = some symbol.name
  | .itself => k.nested = true

def Symbol.reading (symbol : Symbol) : Instruction :=
  match symbol.storage with
  | .global => ⟨.getGlobal, [symbol.index]⟩
  | .frame => ⟨.getLocal, [symbol.index]⟩
  | .native => ⟨.getBuiltin, [symbol.index]⟩
  | .captured => ⟨.getFree, [symbol.index]⟩
  | .itself => ⟨.currentClosure, []⟩

def Symbol.setting (symbol : Symbol) : Instruction :=
  if symbol.storage = .global then ⟨.setGlobal, [symbol.index]⟩ else ⟨.setLocal, [symbol.index]⟩

-- The instruction that gives a name a new value, for the names that may have one.
def Symbol.assigning? (symbol : Symbol) : Option Instruction :=
  match symbol.mutability, symbol.storage with
  | .assignable, .global => some ⟨.assignGlobal, [symbol.index]⟩
  | .assignable, .frame => some ⟨.assignLocal, [symbol.index]⟩
  | _, _ => none

namespace SymbolTable

-- The table in which a function body is compiled, but for the parameters.
def enterAs (t : SymbolTable) : Option (String × Mutability) → SymbolTable
  | some (name, mutability) => (t.enter.defineItself name mutability).2
  | none => t.enter

theorem enterAs_shape (t : SymbolTable) (own : Option (String × Mutability)) :
    (t.enterAs own).enclosing = t.innermost :: t.enclosing ∧ (t.enterAs own).innermost.slots = 0 := by
  cases own <;> exact ⟨rfl, rfl⟩

-- Constant names declared one after the other.
def Declares : List String → SymbolTable → SymbolTable → Prop
  | [], t, u => u = t
  | name :: rest, t, u => ∃ symbol v, t.define name .fixed = .ok (symbol, v) ∧ Declares rest v u

end SymbolTable

namespace Compiling

def entered (own : Option (String × Mutability)) (c : Compiler) : Compiler :=
  { c with symbols := c.symbols.enterAs own, fragment := .empty, enclosing := c.fragment :: c.enclosing }

-- The steps of making a function from where its scope is open to where it is closed.
def functionBody (parameters : List String) (span : Span) (body : List Stmt) : Compiling (Code × Scope) := do
  declareAll span parameters
  statements body
  finishBody
  leave

end Compiling

-- What a compiler makes of the body of some function: the routine, the names that it had in scope at the end, and the
-- names around it.
def Routine.Compiled (r : Routine) (scope : Scope) (around : SymbolTable) : Prop :=
  ∃ own parameters span body c d, c.symbols.Valid ∧
    Compiling.functionBody parameters span body (Compiling.entered own c) = .ok (r.code, scope) d ∧
    r.parameters = parameters.length ∧ r.locals = scope.slots ∧ d.symbols = around

abbrev Layout := Finished → Point → Point → Prop

namespace Layout

def seq (first second : Layout) : Layout := fun k p q => ∃ m, first k p m ∧ second k m q

def nothing : Layout := fun _ p q => q = p

def instruction (i : Instruction) : Layout := fun k p q =>
  k.code.itemAt p.position = .instruction i ∧ q = { p with position := p.position + i.opcode.width }

def constant (v : Value) : Layout := fun k p q =>
  k.constants[p.constants]? = some v ∧
    instruction ⟨.constant, [p.constants]⟩ k { p with constants := p.constants + 1 } q

def read (symbol : Symbol) : Layout := fun k p q => symbol.Within k ∧ instruction symbol.reading k p q

def reads : List Symbol → Layout
  | [] => nothing
  | symbol :: rest => (read symbol).seq (reads rest)

def name (x : String) : Layout := fun k p q =>
  ∃ symbol table, p.symbols.resolve x = .ok (symbol, table) ∧ read symbol k { p with symbols := table } q

def assign (x : String) : Layout := fun k p q =>
  ∃ symbol table i, p.symbols.resolve x = .ok (symbol, table) ∧ symbol.assigning? = some i ∧ symbol.Within k ∧
    instruction i k { p with symbols := table } q

def set (symbol : Symbol) : Layout := fun k p q => symbol.Within k ∧ instruction symbol.setting k p q

def bind (x : String) (mutability : Mutability) : Layout := fun k p q =>
  ∃ symbol table, p.symbols.define x mutability = .ok (symbol, table) ∧ set symbol k { p with symbols := table } q

-- A name is declared before the code of its value.
def bindEarly (x : String) (mutability : Mutability) (value : Layout) : Layout := fun k p q =>
  ∃ symbol table m, p.symbols.define x mutability = .ok (symbol, table) ∧
    value k { p with symbols := table } m ∧ set symbol k m q

-- One of two codes runs, after a jump over the other.
def choice (condition yes no : Layout) : Layout := fun k p q =>
  ∃ a b c d, condition k p a ∧ instruction ⟨.jumpUnless, [d.position]⟩ k a b ∧ yes k b c ∧
    instruction ⟨.jump, [q.position]⟩ k c d ∧ no k d q

def making (index captured : Nat) : Instruction :=
  if captured = 0 then ⟨.constant, [index]⟩ else ⟨.closure, [index, captured]⟩

-- A function has a code of its own, which is a constant. Where it is made, what it captures is read first.
def function (own : Option (String × Mutability)) (parameters : List String) (body : Layout) : Layout :=
  fun k p q => ∃ code first last scope table m,
    (p.symbols.enterAs own).Declares parameters first ∧
    body (k.inner code scope) ⟨first, p.constants, 0⟩ last ∧
    last.position = code.size ∧ last.symbols.leave? = some (scope, table) ∧
    parameters.length ≤ 255 ∧ scope.slots ≤ 255 ∧ scope.captures.size ≤ 255 ∧
    (Routine.mk code parameters.length scope.slots).Compiled scope table ∧
    k.constants[last.constants]? = some (.function ⟨code, parameters.length, scope.slots⟩) ∧
    reads scope.captures.toList k ⟨table, last.constants, p.position⟩ m ∧
    instruction (making last.constants scope.captures.size) k { m with constants := m.constants + 1 } q

def inOrder : List (String × Layout) → Layout
  | [] => nothing
  | (_, part) :: rest => part.seq (inOrder rest)

mutual

def statement : Stmt → Layout
  | .expression _ value => (expression value).seq (instruction ⟨.pop, []⟩)
  | .returns _ value => (expression value).seq (instruction ⟨.returnValue, []⟩)
  | .assign _ name value => (expression value).seq (assign name)
  | .declare _ mutability name (.function _ _ parameters body) => fun k p q =>
    if mutability = .assignable && p.symbols.isGlobal then
      bindEarly name mutability (function none parameters (finish body)) k p q
    else ((function (some (name, mutability)) parameters (finish body)).seq (bind name mutability)) k p q
  | .declare _ mutability name value => (expression value).seq (bind name mutability)

def statements : List Stmt → Layout
  | [] => nothing
  | s :: rest => (statement s).seq (statements rest)

-- Statements that leave a value: that of a last expression, or null.
def branch : List Stmt → Layout
  | [] => instruction ⟨.pushNull, []⟩
  | [.expression _ value] => expression value
  | s :: rest => (statement s).seq (branch rest)

def finish : List Stmt → Layout
  | [] => instruction ⟨.returnNull, []⟩
  | [.expression _ value] => (expression value).seq (instruction ⟨.returnValue, []⟩)
  | [.returns _ value] => (expression value).seq (instruction ⟨.returnValue, []⟩)
  | s :: rest => (statement s).seq (finish rest)

def expression : Expr → Layout
  | .integer _ n => constant (.integer n)
  | .float _ x => constant (.float x)
  | .string _ s => constant (.string s)
  | .boolean _ true => instruction ⟨.pushTrue, []⟩
  | .boolean _ false => instruction ⟨.pushFalse, []⟩
  | .identifier _ x => name x
  | .unary _ operator right => fun k p q =>
    ∃ op, Compiling.unaryOpCode? operator = some op ∧ ((expression right).seq (instruction ⟨op, []⟩)) k p q
  | .binary _ operator left right => fun k p q =>
    ∃ op, Compiling.binaryOpCode? operator = some op ∧
      (if Compiling.rightFirst operator then (expression right).seq ((expression left).seq (instruction ⟨op, []⟩)) k p q
      else (expression left).seq ((expression right).seq (instruction ⟨op, []⟩)) k p q)
  | .conditional _ condition consequence none =>
    choice (expression condition) (branch consequence) (instruction ⟨.pushNull, []⟩)
  | .conditional _ condition consequence (some alternative) =>
    choice (expression condition) (branch consequence) (branch alternative)
  | .array _ elements => (expressions elements).seq (instruction ⟨.array, [elements.length]⟩)
  | .hash _ pairs =>
    (inOrder ((pairParts pairs).mergeSort fun a b => a.1 ≤ b.1)).seq (instruction ⟨.hash, [2 * pairs.length]⟩)
  | .index _ target position => (expression target).seq ((expression position).seq (instruction ⟨.index, []⟩))
  | .function _ own parameters body => function (own.map (·, .fixed)) parameters (finish body)
  | .call _ callee arguments =>
    (expression callee).seq ((expressions arguments).seq (instruction ⟨.call, [arguments.length]⟩))

def expressions : List Expr → Layout
  | [] => nothing
  | e :: rest => (expression e).seq (expressions rest)

def pairParts : List (Expr × Expr) → List (String × Layout)
  | [] => []
  | (key, value) :: rest => (key.text, (expression key).seq (expression value)) :: pairParts rest

end

end Layout
end StackScript
