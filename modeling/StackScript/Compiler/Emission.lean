import StackScript.Bytecode.Basic
import StackScript.Compiler.Error

-- What a compiler has written so far, and how it writes more.
namespace StackScript

structure Emitted where
  opcode : OpCode
  position : Nat
deriving DecidableEq

-- The code of one function body or of the main program, and its last two instructions.
structure Fragment where
  code : Code
  last : Option Emitted
  previous : Option Emitted
deriving Inhabited

namespace Fragment

def empty : Fragment := ⟨#[], none, none⟩

def append (f : Fragment) (op : OpCode) (bytes : List UInt8) : Fragment :=
  let position := f.code.size
  ⟨f.code.append bytes, some ⟨op, position⟩, f.last⟩

-- Whether the newest instruction is of a kind and lies at or behind `since`.
def endsWith (f : Fragment) (op : OpCode) (since : Nat) : Bool :=
  match f.last with
  | some last => last.opcode = op && since ≤ last.position
  | none => false

-- Without its newest instruction. What came before the one before it is not remembered.
def dropLast (f : Fragment) : Fragment :=
  match f.last with
  | some last => ⟨f.code.shrink last.position, f.previous, none⟩
  | none => f

def replaceLast (f : Fragment) (op : OpCode) : Fragment :=
  match f.last with
  | some last => ⟨f.code.setIfInBounds last.position op.byte, some ⟨op, last.position⟩, f.previous⟩
  | none => f

end Fragment

-- The constants and names of everything compiled so far, and the code of each open function, innermost first; the
-- outermost is the main program.
structure Compiler where
  constants : Array Value
  symbols : SymbolTable
  fragment : Fragment
  enclosing : List Fragment
deriving Inhabited

namespace Compiler

-- A compiler that goes on from the names and constants of an earlier one.
def resume (symbols : SymbolTable) (constants : Array Value) : Compiler := ⟨constants, symbols, .empty, []⟩

def nativeNames : SymbolTable := Builtin.all.foldl (fun t b => (t.defineNative b.index b.name).2) .empty

def new : Compiler := resume nativeNames #[]

-- What the main program is compiled to, as far as it goes.
def bytecode (c : Compiler) : Bytecode := ⟨((c.enclosing.getLast?).getD c.fragment).code, c.constants⟩

end Compiler

inductive Rejection where
  | error (e : CompileError)
  | defect (d : Defect)

-- A step of a compiler. What it wrote before it failed stays written.
abbrev Compiling := EStateM Rejection Compiler

namespace Compiling

def refuse (e : CompileError) : Compiling α := throw (.error e)

def checkLimit (value limit : Nat) (what : String) (span : Span) : Compiling Unit :=
  if limit < value then refuse (.tooMany what limit span) else pure ()

-- The greatest operands of two bytes and of one.
def wide : Nat := 65535
def narrow : Nat := 255

def emit (op : OpCode) (operands : List Nat) : Compiling Unit := fun c =>
  match Instruction.encode ⟨op, operands⟩ with
  | .ok bytes => .ok () { c with fragment := c.fragment.append op bytes }
  | .error m => .error (.defect (.misfit m)) c

def position : Compiling Nat := do return (← get).fragment.code.size

def patch (position target : Nat) (span : Span) : Compiling Unit := do
  checkLimit target wide "bytes of code in a function" span
  match ((← get).fragment.code[position]?).bind OpCode.ofByte? with
  | some op =>
    if op = .jump || op = .jumpUnless then
      match Instruction.encode ⟨op, [target]⟩ with
      | .ok bytes => modify fun c => { c with fragment := { c.fragment with code := c.fragment.code.write position bytes } }
      | .error m => throw (.defect (.misfit m))
    else throw (.defect (.noJump position))
  | none => throw (.defect (.noJump position))

def addConstant (v : Value) (span : Span) : Compiling Nat := do
  let index := (← get).constants.size
  checkLimit index wide "constants" span
  modify fun c => { c with constants := c.constants.push v }
  return index

def emitConstant (v : Value) (span : Span) : Compiling Unit := do
  let index ← addConstant v span
  emit .constant [index]

def define (name : String) (mutability : Mutability) (span : Span) : Compiling Symbol := fun c =>
  match c.symbols.define name mutability with
  | .ok (symbol, symbols) => .ok symbol { c with symbols }
  | .error e => .error (.error (.naming e span)) c

def resolve (name : String) (span : Span) : Compiling Symbol := fun c =>
  match c.symbols.resolve name with
  | .ok (symbol, symbols) => .ok symbol { c with symbols }
  | .error e => .error (.error (.naming e span)) c

def load (symbol : Symbol) : Compiling Unit :=
  match symbol.storage with
  | .global => emit .getGlobal [symbol.index]
  | .frame => emit .getLocal [symbol.index]
  | .native => emit .getBuiltin [symbol.index]
  | .captured => emit .getFree [symbol.index]
  | .itself => emit .currentClosure []

def loadAll : List Symbol → Compiling Unit
  | [] => pure ()
  | symbol :: rest => do
    load symbol
    loadAll rest

def store (symbol : Symbol) (span : Span) : Compiling Unit := do
  if symbol.storage = .global then
    checkLimit symbol.index wide "global bindings" span
    emit .setGlobal [symbol.index]
  else
    checkLimit symbol.index narrow "local bindings" span
    emit .setLocal [symbol.index]

def enter : Compiling Unit :=
  modify fun c => { c with symbols := c.symbols.enter, fragment := .empty, enclosing := c.fragment :: c.enclosing }

-- Closes the innermost function and gives its code and its scope, which are empty where no function is open.
def leave : Compiling (Code × Scope) := fun c =>
  match c.symbols.leave?, c.enclosing with
  | some (scope, symbols), outer :: rest =>
    .ok (c.fragment.code, scope) { c with symbols, fragment := outer, enclosing := rest }
  | _, _ => .ok (#[], .empty) c

end Compiling
end StackScript
