import StackScript.Command.Basic
import StackScript.Session
import StackScript.Syntax.Document

-- What each command does with the files and the input it is given.
namespace StackScript

-- The characters that Unicode counts as white space.
def Text.isBlank (c : Char) : Bool :=
  let n := c.toNat
  (9 ≤ n && n ≤ 13) || n = 0x20 || n = 0x85 || n = 0xa0 || n = 0x1680 || (0x2000 ≤ n && n ≤ 0x200a) ||
    n = 0x2028 || n = 0x2029 || n = 0x202f || n = 0x205f || n = 0x3000

namespace Path

def split (path : String) : String × String :=
  let name := (path.toList.reverse.takeWhile (· ≠ '/')).reverse
  (String.ofList (path.toList.take (path.toList.length - name.length)), String.ofList name)

-- A name without its last dot and what is behind that. A dot in front does not count.
def stem (name : String) : String :=
  let before := (name.toList.reverse.dropWhile (· ≠ '.')).drop 1
  if before.isEmpty then name else String.ofList before.reverse

-- The path with another extension. One that does not end in a name is left as it is.
def withExtension (path extension : String) : String :=
  let (directory, name) := split path
  if name = "" || name = "." || name = ".." then path else directory ++ stem name ++ "." ++ extension

end Path

structure Host (m : Type → Type) where
  read : String → m (Except String (List UInt8))
  write : String → List UInt8 → m (Except String Unit)

structure Report where
  status : Nat
  output : String
  errors : String

namespace Report

def success (output : String) : Report := ⟨0, output, ""⟩

def failure (output file message : String) : Report := ⟨1, output, s!"error: {file}: {message}\n"⟩

def misuse : Report := ⟨2, "", "usage: hermes run|build|exec|disasm|ast FILE, or hermes repl\n"⟩

end Report

namespace Command

def printed (lines : Array String) : String := lines.foldl (fun s line => s ++ line ++ "\n") ""

def textOf (bytes : List UInt8) : Except String String :=
  match String.fromUTF8? ⟨bytes.toArray⟩ with
  | some s => .ok s
  | none => .error "stream did not contain valid UTF-8"

def withSource [Monad m] (host : Host m) (file : String) (go : String → m Report) : m Report := do
  match (← host.read file).bind textOf with
  | .ok source => go source
  | .error reason => return .failure "" file reason

def withCompiled [Monad m] (host : Host m) (file : String) (go : Bytecode → m Report) : m Report :=
  withSource host file fun source =>
    match Bytecode.ofSource source with
    | .ok b => go b
    | .error e => return ⟨1, "", e.render source (some file)⟩

def loaded (file : String) (bytes : List UInt8) (go : Bytecode → Report) : Report :=
  match Bytecode.ofFile Bytecode.languageSignature bytes with
  | .ok b => go b
  | .error e => .failure "" file e.message

-- Runs a program and prints its value unless that is null.
def runProgram (budget : Nat) (file : String) (b : Bytecode) : Report :=
  let outcome := b.evaluate budget
  let lines := printed outcome.output
  match outcome.result with
  | .ok .null => .success lines
  | .ok v => .success (lines ++ v.text ++ "\n")
  | .error e => .failure lines file e.message

def inputLines : List UInt8 → (line : List UInt8) → (lines : List (List UInt8)) → List (List UInt8)
  | [], [], lines => lines.reverse
  | [], line, lines => (line.reverse :: lines).reverse
  | b :: rest, line, lines =>
    if b = 0x0a then inputLines rest [] ((b :: line).reverse :: lines) else inputLines rest (b :: line) lines

-- Evaluates lines one after the other in one session. Blank lines are passed over.
def interactWith (budget : Nat) : List (List UInt8) → Session → (output errors : String) → Report
  | [], _, output, errors => ⟨0, output, errors⟩
  | line :: rest, s, output, errors =>
    match textOf line with
    | .error reason => ⟨1, output, errors ++ s!"error: <stdin>: {reason}\n"⟩
    | .ok source =>
      if source.toList.all Text.isBlank then interactWith budget rest s output errors
      else
        let (outcome, s) := s.eval budget source
        let output := output ++ printed outcome.output
        match outcome.result with
        | .ok (some v) => interactWith budget rest s (output ++ v.text ++ "\n") errors
        | .ok none => interactWith budget rest s output errors
        | .error e => interactWith budget rest s output (errors ++ e.render source none)

def execute [Monad m] (host : Host m) (budget : Nat) (input : List UInt8) : Command → m Report
  | run file => withCompiled host file fun b => return runProgram budget file b
  | build file out => withCompiled host file fun b => do
    let out := out.getD (Path.withExtension file "hbc")
    match b.toFile Bytecode.languageSignature with
    | .error e => return .failure "" out (LoadError.notEncodable e).message
    | .ok bytes =>
      match ← host.write out bytes.toList with
      | .ok _ => return .success s!"wrote {out}\n"
      | .error reason => return .failure "" out reason
  | exec file => do
    match ← host.read file with
    | .ok bytes => return loaded file bytes (runProgram budget file)
    | .error reason => return .failure "" file reason
  -- A file that begins as program files do is one; any other is compiled.
  | disassemble file => do
    match ← host.read file with
    | .error reason => return .failure "" file reason
    | .ok bytes =>
      if Bytecode.magic.isPrefixOf bytes then return loaded file bytes fun b => .success b.listing
      else withCompiled host file fun b => return .success b.listing
  | tree file => withSource host file fun source =>
    match Program.ofSource source with
    | .ok p => return .success (p.json.pretty ++ "\n")
    | .error e => return ⟨1, "", e.render source (some file)⟩
  | interact => return interactWith budget (inputLines input [] []) .new "" ""
  | help => return .success "usage: hermes run|build|exec|disasm|ast FILE, or hermes repl\n"
  | version => return .success "hermes 0.1.0\n"

end Command
end StackScript
