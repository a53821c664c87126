import StackScript.Proofs.Meaning.Names
import StackScript.Value.Basic

-- Which programs use names as they may, said without a compiler: a program is a walk through scopes that reads, assigns and
-- declares names on its way.
namespace StackScript

-- What a program does with names. A function is entered under its own name, if it has one.
inductive Act where
  | read (x : String)
  | assign (x : String)
  | declare (x : String) (mutability : Mutability)
  | enter (own : Option String)
  | leave
deriving DecidableEq

-- The names that a function has declared so far, and its own.
structure Level where
  declared : List (String × Mutability)
  own : Option String
deriving DecidableEq

-- The open functions, the innermost first, and the names declared outside all of them.
structure Scopes where
  functions : List Level
  globals : List (String × Mutability)
deriving DecidableEq

inductive Binding where
  | here (mutability : Mutability) -- declared in the running function
  | own -- the running function itself
  | around -- declared in a function around it, or the own name of one
  | global (mutability : Mutability)
  | native
deriving DecidableEq

-- What a binding is to a function inside of the one that it is a binding of.
def Binding.inward : Binding → Binding
  | here _ | own | around => around
  | global mutability => global mutability
  | native => native

def Level.find? (l : Level) (x : String) : Option Binding :=
  match l.declared.lookup x with
  | some mutability => some (.here mutability)
  | none => if l.own = some x then some .own else none

namespace Scopes

def initial : Scopes := ⟨[], []⟩

def outside? (globals : List (String × Mutability)) (x : String) : Option Binding :=
  match globals.lookup x with
  | some mutability => some (.global mutability)
  | none => if x ∈ Builtin.all.map Builtin.name then some .native else none

def nearest? (globals : List (String × Mutability)) (x : String) : List Level → Option Binding
  | [] => outside? globals x
  | l :: rest => (l.find? x).or ((nearest? globals x rest).map Binding.inward)

def find? (s : Scopes) (x : String) : Option Binding := nearest? s.globals x s.functions

def declared (s : Scopes) : List (String × Mutability) :=
  match s.functions with
  | [] => s.globals
  | l :: _ => l.declared

def declare (s : Scopes) (x : String) (mutability : Mutability) : Scopes :=
  match s.functions with
  | [] => { s with globals := (x, mutability) :: s.globals }
  | l :: rest => { s with functions := { l with declared := (x, mutability) :: l.declared } :: rest }

-- Whether something may be done: names that are used are bound, names that are assigned are variables of the running function
-- or of the program, and no name is declared twice in one scope.
def Permits (s : Scopes) : Act → Prop
  | .read x => (s.find? x).isSome
  | .assign x => s.find? x = some (.here .assignable) ∨ s.find? x = some (.global .assignable)
  | .declare x _ => x ∉ s.declared.map Prod.fst
  | .enter _ | .leave => True

instance decidablePermits (s : Scopes) : (a : Act) → Decidable (s.Permits a)
  | .read x => inferInstanceAs (Decidable ((s.find? x).isSome = true))
  | .assign x => inferInstanceAs (Decidable (s.find? x = some (.here .assignable) ∨ s.find? x = some (.global .assignable)))
  | .declare x _ => inferInstanceAs (Decidable (x ∉ s.declared.map Prod.fst))
  | .enter _ | .leave => .isTrue trivial

def after (s : Scopes) : Act → Scopes
  | .read _ | .assign _ => s
  | .declare x mutability => s.declare x mutability
  | .enter own => { s with functions := ⟨[], own⟩ :: s.functions }
  | .leave => { s with functions := s.functions.tail }

def afterAll (s : Scopes) (acts : List Act) : Scopes := acts.foldl after s

-- Everything that is done may be done when it is done.
def Correct (s : Scopes) : List Act → Prop
  | [] => True
  | a :: rest => s.Permits a ∧ (s.after a).Correct rest

instance decidableCorrect (s : Scopes) : (acts : List Act) → Decidable (s.Correct acts)
  | [] => .isTrue trivial
  | a :: rest => @instDecidableAnd _ _ _ (decidableCorrect (s.after a) rest)

theorem afterAll_append (s : Scopes) (acts others : List Act) : s.afterAll (acts ++ others) = (s.afterAll acts).afterAll others :=
  List.foldl_append

theorem correct_append {s : Scopes} {acts others : List Act} :
    s.Correct (acts ++ others) ↔ s.Correct acts ∧ (s.afterAll acts).Correct others := by
  induction acts generalizing s with
  | nil => exact (iff_of_eq (true_and _)).symm
  | cons a rest ih =>
    rw [List.cons_append, Correct, Correct, ih, and_assoc]
    rfl

end Scopes

-- What a function does with names: its parameters are declared before its body.
def functionActs (own : Option String) (parameters : List String) (body : List Act) : List Act :=
  .enter own :: (parameters.map (Act.declare · .fixed) ++ (body ++ [.leave]))

mutual

-- What a statement does with names, in the order in which it is compiled. A declared function goes under the declared name,
-- but a global variable is declared before the function that is its value, which then has no name of its own.
def Stmt.acts (nested : Bool) : Stmt → List Act
  | .expression _ value => value.acts nested
  | .returns _ value => value.acts nested
  | .assign _ name value => value.acts nested ++ [.assign name]
  | .declare _ mutability name (.function _ _ parameters body) =>
    if mutability = .assignable ∧ ¬ nested then
      .declare name mutability :: functionActs none parameters (bodyActs true body)
    else functionActs (some name) parameters (bodyActs true body) ++ [.declare name mutability]
  | .declare _ mutability name value => value.acts nested ++ [.declare name mutability]

def bodyActs (nested : Bool) : List Stmt → List Act
  | [] => []
  | s :: rest => s.acts nested ++ bodyActs nested rest

def Expr.acts (nested : Bool) : Expr → List Act
  | .identifier _ name => [.read name]
  | .integer .. | .float .. | .string .. | .boolean .. => []
  | .unary _ _ right => right.acts nested
  | .binary _ operator left right =>
    if swapped operator then right.acts nested ++ left.acts nested else left.acts nested ++ right.acts nested
  | .conditional _ condition consequence none => condition.acts nested ++ bodyActs nested consequence
  | .conditional _ condition consequence (some alternative) =>
    condition.acts nested ++ (bodyActs nested consequence ++ bodyActs nested alternative)
  | .function _ own parameters body => functionActs own parameters (bodyActs true body)
  | .call _ callee arguments => callee.acts nested ++ listActs nested arguments
  | .array _ elements => listActs nested elements
  | .hash _ pairs => ((pairActs nested pairs).mergeSort fun a b => a.1 ≤ b.1).flatMap Prod.snd
  | .index _ target position => target.acts nested ++ position.acts nested

def listActs (nested : Bool) : List Expr → List Act
  | [] => []
  | e :: rest => e.acts nested ++ listActs nested rest

def pairActs (nested : Bool) : List (Expr × Expr) → List (String × List Act)
  | [] => []
  | (key, value) :: rest => (key.text, key.acts nested ++ value.acts nested) :: pairActs nested rest

end

def Program.acts (p : Program) : List Act := bodyActs false p.statements

end StackScript
