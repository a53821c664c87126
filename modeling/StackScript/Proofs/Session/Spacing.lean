import Mathlib.Control.Monad.Basic
import StackScript.Proofs.Compiler.Unplaced
import StackScript.Proofs.Syntax.Blind

-- The spacing of a text does not matter: texts with the same tokens mean the same program, are compiled to the same code,
-- and give the same results.
namespace StackScript

def tokensOf (source : String) : Except LexError (List Token) :=
  (lexemes source).map fun found => found.toList.map Lexeme.token

def unplacedFailure {α : Type} (r : Except Failure α) : Except Failure α := r.mapError Failure.unplaced

def Outcome.unplaced {α : Type} (o : Outcome α) : Outcome α := ⟨unplacedFailure o.result, o.output⟩

theorem Compiler.compile_same {p q : Program} (same : p.unplaced = q.unplaced) (c : Compiler) :
    Compiling.unplacedResult (c.compile p) = Compiling.unplacedResult (c.compile q) := by
  rw [← Compiler.compile_unplaced, ← Compiler.compile_unplaced, same]

namespace Program

def ofTokens (ts : List Token) : Except Failure Program := (ofLexemes (ts.map Token.lexeme)).mapError Failure.parse

theorem ofLexemes_unplaced (lexemes : List Lexeme) : ofLexemes (lexemes.map Lexeme.unplaced) =
    ((ofLexemes lexemes).map unplaced).mapError (List.map ParseError.unplaced) := by
  rw [ofLexemes, ofLexemes, Parsed.ofLexemes_unplaced, Parsed.unplaced]
  simp only [List.isEmpty_map]
  split <;> rfl

theorem ofSource_unplaced {source : String} {ts : List Token} (known : tokensOf source = .ok ts) :
    unplacedFailure ((ofSource source).map unplaced) = ofTokens ts := by
  rw [tokensOf] at known
  cases scanned : lexemes source with
  | error e =>
    rw [scanned] at known
    cases known
  | ok found =>
    rw [scanned] at known
    cases known
    rw [ofTokens, ← lexemes_unplaced, ofLexemes_unplaced, ofSource, scanned]
    simp only
    cases ofLexemes found.toList <;> rfl

end Program

theorem Compiler.after_unplaced (c : Compiler) (p : Program) : c.after p.unplaced = unplacedFailure (c.after p) := by
  rw [after, after, compile_unplaced]
  cases c.compile p with
  | ok _ d => rfl
  | error r d => cases r <;> rfl

theorem Bytecode.ofSource_unplaced {source : String} {ts : List Token} (known : tokensOf source = .ok ts) :
    unplacedFailure (ofSource source) = (do return (← Compiler.new.after (← Program.ofTokens ts)).bytecode) := by
  rw [← Program.ofSource_unplaced known, ofSource]
  cases Program.ofSource source with
  | error e => rfl
  | ok p =>
    have compiled := Compiler.new.after_unplaced p
    change _ = (do return (← Compiler.new.after p.unplaced).bytecode)
    rw [compiled]
    change unplacedFailure (do return (← Compiler.new.after p).bytecode) = _
    cases Compiler.new.after p <;> rfl

theorem evaluate_unplaced (budget : Nat) (source : String) : (evaluate budget source).unplaced =
    match unplacedFailure (Bytecode.ofSource source) with
    | .ok b => (b.evaluate budget).unplaced
    | .error e => ⟨.error e, #[]⟩ := by
  rw [evaluate]
  cases Bytecode.ofSource source <;> rfl

-- Texts with the same tokens are the same program up to places, or have the same errors up to places; they are compiled to
-- the same code, or cannot be compiled for the same reason, and are evaluated to the same result with the same output. No
-- step in between looks at a place: neither does the parser, nor does any compiler, whatever it has compiled before.
theorem spacing_never_matters (s t : String) (ts : List Token) (one : tokensOf s = .ok ts) (two : tokensOf t = .ok ts) :
    unplacedFailure ((Program.ofSource s).map Program.unplaced) =
      unplacedFailure ((Program.ofSource t).map Program.unplaced) ∧
    unplacedFailure (Bytecode.ofSource s) = unplacedFailure (Bytecode.ofSource t) ∧
    (∀ budget, (evaluate budget s).unplaced = (evaluate budget t).unplaced) ∧
    (∀ ls ms : List Lexeme, ls.map Lexeme.token = ms.map Lexeme.token →
      (Parsed.ofLexemes ls).unplaced = (Parsed.ofLexemes ms).unplaced) ∧
    ∀ p q : Program, p.unplaced = q.unplaced → ∀ c : Compiler,
      Compiling.unplacedResult (c.compile p) = Compiling.unplacedResult (c.compile q) := by
  have code : unplacedFailure (Bytecode.ofSource s) = unplacedFailure (Bytecode.ofSource t) := by
    rw [Bytecode.ofSource_unplaced one, Bytecode.ofSource_unplaced two]
  refine ⟨?_, code, ?_, ?_, ?_⟩
  · rw [Program.ofSource_unplaced one, Program.ofSource_unplaced two]
  · intro budget
    rw [evaluate_unplaced, evaluate_unplaced, code]
  · intro ls ms same
    exact Parsed.ofLexemes_same same
  · intro p q same c
    exact Compiler.compile_same same c

-- A hash that is compiled in another order than it is written.
def Token.unsorted : List Token :=
  [.leftBrace, .identifier "b", .colon, .integer 1, .comma, .identifier "a", .colon, .integer 2, .rightBrace]

-- Blanks, newlines and a comment between its tokens.
theorem spacing_never_matters_spaced :
    tokensOf "\x7bb:1,a:2\x7d" = .ok Token.unsorted ∧
    tokensOf "\x7b // pairs\n  b : 1 , a : 2 \x7d" = .ok Token.unsorted ∧
    unplacedFailure (Bytecode.ofSource "\x7bb:1,a:2\x7d") =
      unplacedFailure (Bytecode.ofSource "\x7b // pairs\n  b : 1 , a : 2 \x7d") ∧
    ∀ budget, (evaluate budget "\x7bb:1,a:2\x7d").unplaced =
      (evaluate budget "\x7b // pairs\n  b : 1 , a : 2 \x7d").unplaced := by
  have one : tokensOf "\x7bb:1,a:2\x7d" = .ok Token.unsorted := by decide +kernel
  have two : tokensOf "\x7b // pairs\n  b : 1 , a : 2 \x7d" = .ok Token.unsorted := by decide +kernel
  obtain ⟨-, code, evaluated, -, -⟩ := spacing_never_matters _ _ _ one two
  exact ⟨one, two, code, evaluated⟩

end StackScript
