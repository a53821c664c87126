import StackScript.Compiler.Generate
import StackScript.Failure
import StackScript.Machine.Step
import StackScript.Syntax.Parse

-- From source texts to results, for one text and for many that build on each other.
namespace StackScript

def Program.ofSource (source : String) : Except Failure Program :=
  match lexemes source with
  | .error e => .error (.token e)
  | .ok lexemes =>
    match Program.ofLexemes lexemes.toList with
    | .error errors => .error (.parse errors)
    | .ok p => .ok { p with source := some source }

def Compiler.after (c : Compiler) (p : Program) : Except Failure Compiler :=
  match c.compile p with
  | .ok _ c => .ok c
  | .error (.error e) _ => .error (.compile e)
  | .error (.defect d) _ => .error (.defect d)

def Bytecode.ofSource (source : String) : Except Failure Bytecode := do
  let p ← Program.ofSource source
  return (← Compiler.new.after p).bytecode

-- What evaluating a text gives, and the lines that it prints on the way.
structure Outcome (α : Type) where
  result : Except Failure α
  output : Array String

-- What a run gave: the value that was popped last, if any was.
def Ending.result (e : Ending) (m : Machine) : Except Failure (Option Value) :=
  match e with
  | .halted => .ok m.last
  | .failed fault => .error (.run fault)
  | .stopped .additionOverflow => .error .additionOverflow
  | .unfinished => .error .unfinished

-- Runs a program on no globals. Its value is that of its last expression statement, or null.
def Bytecode.evaluate (budget : Nat) (b : Bytecode) : Outcome Value :=
  let (ending, m) := (Machine.start b #[]).run budget
  ⟨(ending.result m).map (·.getD .null), m.output⟩

def evaluate (budget : Nat) (source : String) : Outcome Value :=
  match Bytecode.ofSource source with
  | .ok b => b.evaluate budget
  | .error e => ⟨.error e, #[]⟩

-- What the texts of a session leave to later ones.
structure Session where
  symbols : SymbolTable
  constants : Array Value
  globals : Array Value

namespace Session

def new : Session := ⟨Compiler.nativeNames, #[], #[]⟩

-- Evaluates one more text. One that does not compile changes nothing; one whose run fails keeps the globals that
-- it set before.
def eval (budget : Nat) (source : String) (s : Session) : Outcome (Option Value) × Session :=
  match do (Compiler.resume s.symbols s.constants).after (← Program.ofSource source) with
  | .error e => (⟨.error e, #[]⟩, s)
  | .ok c =>
    let (ending, m) := (Machine.start c.bytecode s.globals).run budget
    (⟨ending.result m, m.output⟩, ⟨c.symbols, c.constants, m.globals⟩)

end Session
end StackScript
