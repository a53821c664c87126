import StackScript.Proofs.Syntax.Reading

-- A program that is accepted is spelled by all of its tokens: none is left out and none is made up.
namespace StackScript

namespace Parsed

theorem collect_errors (depth fuel : Nat) (statements : List Stmt) (errors : List ParseError) (c : Cursor) :
    errors.length ≤ (collect depth fuel statements errors c).errors.length := by
  induction fuel generalizing statements errors c with
  | zero => simp [collect]
  | succ fuel ih =>
    rw [collect]
    split
    · simp
    · cases Parsing.statement depth c with
      | ok s d => exact ih _ _ _
      | error h d =>
        cases h with
        | exhausted => simp
        | error e => exact Nat.le_trans (Nat.le_succ _) (ih statements (e :: errors) _)

-- Without errors, what is collected from `c` on is spelled by the tokens that are left there. Each round passes a token, so
-- that the fuel lasts.
theorem collect_spelled {depth fuel : Nat} {statements : List Stmt} {c : Cursor} (deep : 8 * c.tokens.length + 3 ≤ depth)
    (enough : c.tokens.length < fuel) (clean : (collect depth fuel statements [] c).errors = []) :
    ∃ new, (collect depth fuel statements [] c).statements = statements.reverse ++ new ∧ BodySpelled new c.tokens := by
  induction fuel generalizing statements c with
  | zero => exact absurd enough (Nat.not_lt_zero _)
  | succ fuel ih =>
    rw [collect] at clean ⊢
    split at clean
    · rename_i stops
      have ended : c.rest = [] := by simpa [maxErrors] using stops
      rw [if_pos stops]
      refine ⟨[], by simp, ?_⟩
      rw [Cursor.tokens, ended]
      exact .nil
    · rename_i goes
      rw [if_neg goes]
      have reads := (Parsing.faithful depth).statement c deep
      unfold Parsing.Reads at reads
      cases run : Parsing.statement depth c with
      | ok s d =>
        rw [run] at reads clean
        obtain ⟨ts, passed, ended⟩ := reads
        have positive := ended.length_pos
        have shorter := Parsing.left_length passed
        obtain ⟨new, same, spelled⟩ := ih (by omega) (by omega) clean
        refine ⟨s :: new, ?_, ?_⟩
        · simp only
          rw [same]
          simp
        · rw [passed]
          exact ended.body spelled
      | error h d =>
        rw [run] at reads clean
        cases h with
        | exhausted => exact reads.elim
        | error e =>
          have grown := collect_errors depth fuel statements [e] (.resync 0 d.rest d.position d.previous)
          simp only at clean
          rw [clean] at grown
          exact absurd grown (Nat.not_succ_le_zero 0)

theorem ofLexemes_spelled {lexemes : List Lexeme} (clean : (ofLexemes lexemes).errors = []) :
    BodySpelled (ofLexemes lexemes).statements (lexemes.map Lexeme.token) := by
  have size : (Cursor.start lexemes).tokens.length = lexemes.length := List.length_map _
  have deep : 8 * (Cursor.start lexemes).tokens.length + 3 ≤ depthFor lexemes.length := by
    rw [size, depthFor]
    omega
  obtain ⟨new, same, spelled⟩ := collect_spelled deep (by rw [size]; exact Nat.lt_succ_self _) clean
  rw [ofLexemes, same]
  exact spelled

end Parsed

-- The lexemes of a program that is accepted are the program written out, node by node, with nothing else but parentheses
-- around expressions, a semicolon behind a statement, and a comma behind the pairs of a hash.
theorem accepted_spelled (lexemes : List Lexeme) (p : Program) (accepted : Program.ofLexemes lexemes = .ok p) :
    p.Spelled (lexemes.map Lexeme.token) := by
  rw [Program.ofLexemes] at accepted
  split at accepted
  · rename_i clean
    cases accepted
    exact Parsed.ofLexemes_spelled (List.isEmpty_iff.mp clean)
  · cases accepted

-- let f = (fn(x) { -x }); {1: f(2),}
def Lexeme.trailing : List Lexeme := [.letWord, .identifier "f", .assign, .leftParen, .fnWord, .leftParen, .identifier "x",
  .rightParen, .leftBrace, .minus, .identifier "x", .rightBrace, .rightParen, .semicolon, .leftBrace, .integer 1, .colon,
  .identifier "f", .leftParen, .integer 2, .rightParen, .comma, .rightBrace].map fun t => ⟨t, .unknown⟩

def Program.trailing : Program :=
  ⟨[.declare .unknown .fixed "f" (.function .unknown (some "f") ["x"]
      [.expression .unknown (.unary .unknown "-" (.identifier .unknown "x"))]),
    .expression .unknown (.hash .unknown [(.integer .unknown 1,
      .call .unknown (.identifier .unknown "f") [.integer .unknown 2])])], none⟩

theorem accepted_spelled_trailing : Program.ofLexemes Lexeme.trailing = .ok .trailing ∧
    Program.trailing.Spelled (Lexeme.trailing.map Lexeme.token) := by
  have accepted : Program.ofLexemes Lexeme.trailing = .ok .trailing := rfl
  exact ⟨accepted, accepted_spelled _ _ accepted⟩

end StackScript
