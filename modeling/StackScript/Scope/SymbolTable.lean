import Std.Data.TreeMap.Basic
import StackScript.Syntax.Basic

-- Names in scope while a program is compiled. Functions nest; a name of an enclosing function is captured by every
-- function between that one and the place where it is used.
namespace StackScript

-- Where the value of a name is found at run time.
inductive Storage where
  | global
  | frame -- a parameter or other local of the running function
  | native
  | captured -- by the running function when it was made
  | itself -- the running function, under its own name
deriving DecidableEq

structure Symbol where
  name : String
  index : Nat
  mutability : Mutability
  storage : Storage
deriving DecidableEq

inductive NameError where
  | redeclared (name : String)
  | undefined (name : String)
deriving DecidableEq

def NameError.message : NameError → String
  | redeclared name => s!"'{name}' is already declared in this scope"
  | undefined name => s!"undefined name: {name}"

-- The names of one function body, or of the program outside all functions.
structure Scope where
  symbols : Std.TreeMap String Symbol
  slots : Nat -- how many names were declared
  captures : Array Symbol -- what the captured names mean in the scope around
deriving Inhabited

-- The open scopes. The last of the enclosing ones, or else the innermost, is the global one.
structure SymbolTable where
  innermost : Scope
  enclosing : List Scope
deriving Inhabited

namespace Scope

def empty : Scope := ⟨∅, 0, #[]⟩

def bind (s : Scope) (symbol : Symbol) : Scope := { s with symbols := s.symbols.insert symbol.name symbol }

-- Whether a name was declared here, rather than captured, native or the function's own.
def declares (s : Scope) (name : String) : Bool :=
  match s.symbols[name]? with
  | some symbol => symbol.storage = .global || symbol.storage = .frame
  | none => false

-- Makes a name of the scope around available here.
def capture (s : Scope) (outer : Symbol) : Symbol × Scope :=
  let symbol : Symbol := { outer with index := s.captures.size, storage := .captured }
  (symbol, { s.bind symbol with captures := s.captures.push outer })

end Scope

namespace SymbolTable

def empty : SymbolTable := ⟨.empty, []⟩

def enter (t : SymbolTable) : SymbolTable := ⟨.empty, t.innermost :: t.enclosing⟩

def leave? (t : SymbolTable) : Option (Scope × SymbolTable) :=
  match t.enclosing with
  | [] => none
  | s :: rest => some (t.innermost, ⟨s, rest⟩)

def depth (t : SymbolTable) : Nat := t.enclosing.length

def isGlobal (t : SymbolTable) : Bool := t.enclosing.isEmpty

-- Declares a name in the innermost scope. What is not declared there may be shadowed.
def define (t : SymbolTable) (name : String) (mutability : Mutability) : Except NameError (Symbol × SymbolTable) :=
  if t.innermost.declares name then .error (.redeclared name)
  else
    let symbol : Symbol := ⟨name, t.innermost.slots, mutability, if t.isGlobal then .global else .frame⟩
    let innermost := t.innermost.bind symbol
    .ok (symbol, { t with innermost := { innermost with slots := innermost.slots + 1 } })

def defineNative (t : SymbolTable) (index : Nat) (name : String) : Symbol × SymbolTable :=
  let symbol : Symbol := ⟨name, index, .fixed, .native⟩
  match t.enclosing.reverse with
  | [] => (symbol, { t with innermost := t.innermost.bind symbol })
  | outermost :: rest => (symbol, { t with enclosing := (outermost.bind symbol :: rest).reverse })

-- Names the function whose body is the innermost scope.
def defineItself (t : SymbolTable) (name : String) (mutability : Mutability) : Symbol × SymbolTable :=
  let symbol : Symbol := ⟨name, 0, mutability, .itself⟩
  (symbol, { t with innermost := t.innermost.bind symbol })

-- Looks a name up in a scope and then in those around it. On the way back in, every scope captures what lies
-- neither in itself nor in the global one.
def resolveIn (name : String) : Scope → List Scope → Option (Symbol × Scope × List Scope)
  | s, [] => s.symbols[name]?.map (·, s, [])
  | s, around :: rest =>
    match s.symbols[name]? with
    | some symbol => some (symbol, s, around :: rest)
    | none =>
      match resolveIn name around rest with
      | none => none
      | some (symbol, around, rest) =>
        match symbol.storage with
        | .global | .native => some (symbol, s, around :: rest)
        | _ =>
          let (symbol, s) := s.capture symbol
          some (symbol, s, around :: rest)

def resolve (t : SymbolTable) (name : String) : Except NameError (Symbol × SymbolTable) :=
  match resolveIn name t.innermost t.enclosing with
  | some (symbol, innermost, enclosing) => .ok (symbol, ⟨innermost, enclosing⟩)
  | none => .error (.undefined name)

end SymbolTable
end StackScript
