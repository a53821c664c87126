import StackScript.Syntax.Parse

-- The pieces that reading is made of: a statement without the semicolon that may close it, how an expression goes on at a
-- token that binds it, and the operands with more than one part.
namespace StackScript.Parsing

def declared : (fuel : Nat) → Span → Mutability → Parsing Stmt
  | 0, _, _ => throw .exhausted
  | fuel + 1, start, mutability => do
    advance
    let name ← expectIdentifier
    expect .assign
    let value ← expression fuel 0
    return .declare (← spanFrom start) mutability name (value.named name)

def sentence : (fuel : Nat) → Parsing Stmt
  | 0 => throw .exhausted
  | fuel + 1 => do
    let start := (← get).here
    match (← get).rest with
    | ⟨.letWord, _⟩ :: _ => declared fuel start .fixed
    | ⟨.varWord, _⟩ :: _ => declared fuel start .assignable
    | ⟨.returnWord, _⟩ :: _ =>
      advance
      let value ← expression fuel 0
      return .returns (← spanFrom start) value
    | ⟨.identifier name, _⟩ :: ⟨.assign, _⟩ :: _ =>
      advance
      advance
      let value ← expression fuel 0
      return .assign (← spanFrom start) name value
    | _ =>
      let value ← expression fuel 0
      return .expression (← spanFrom start) value

def closed (x : Parsing Stmt) : Parsing Stmt := do
  let s ← x
  let _ ← eat .semicolon
  return s

theorem declaration_closed (fuel : Nat) (start : Span) (mutability : Mutability) :
    declaration fuel start mutability = closed (declared fuel start mutability) := by
  cases fuel with
  | zero => rfl
  | succ fuel => simp only [declaration, declared, closed, bind_assoc, pure_bind]

theorem statement_closed (fuel : Nat) : statement fuel = closed (sentence fuel) := by
  cases fuel with
  | zero => rfl
  | succ fuel =>
    rw [statement, sentence, closed]
    simp only [bind_assoc, declaration_closed]
    congr
    funext c
    congr
    funext d
    have other : (do
          let value ← expression fuel 0
          let span ← spanFrom c.here
          let _ ← eat .semicolon
          return .expression span value) =
        closed (do
          let value ← expression fuel 0
          return .expression (← spanFrom c.here) value) := by
      simp only [closed, bind_assoc, pure_bind]
    obtain ⟨rest, position, previous⟩ := d
    cases rest with
    | nil => exact other
    | cons l rest =>
      obtain ⟨t, place⟩ := l
      cases t with
      | letWord => rfl
      | varWord => rfl
      | returnWord => simp only [bind_assoc, pure_bind]
      | identifier name =>
        cases rest with
        | nil => exact other
        | cons l rest =>
          obtain ⟨t, place⟩ := l
          cases t with
          | assign => simp only [bind_assoc, pure_bind]
          | _ => exact other
      | _ => exact other

theorem extend_stops {fuel level : Nat} {left : Expr} {c : Cursor} (loose : ∀ t ∈ c.peek?, t.precedence ≤ level) :
    extend (fuel + 1) level left c = .ok left c := by
  obtain ⟨rest, position, previous⟩ := c
  cases rest with
  | nil => rfl
  | cons l rest => exact congrFun (if_pos (loose l.token rfl)) _

def continued (fuel level : Nat) (left : Expr) (t : Token) : Parsing Expr :=
  match t with
  | .leftParen => do
    advance
    let arguments ← list fuel .rightParen
    let span ← spanFrom left.span
    extend fuel level (.call span left arguments)
  | .leftBracket => do
    advance
    let position ← expression fuel 0
    expect .rightBracket
    let span ← spanFrom left.span
    extend fuel level (.index span left position)
  | _ => do
    advance
    let right ← expression fuel t.precedence
    extend fuel level (.binary (left.span.merge right.span) (t.operator?.getD "") left right)

theorem extend_continued {fuel level : Nat} {left : Expr} {t : Token} {place : Span} {rest : List Lexeme} (n : Nat)
    (p : Span) (tight : ¬ t.precedence ≤ level) :
    extend (fuel + 1) level left ⟨⟨t, place⟩ :: rest, n, p⟩ = continued fuel level left t ⟨⟨t, place⟩ :: rest, n, p⟩ := by
  change (if t.precedence ≤ level then pure left else _ : Parsing Expr) ⟨⟨t, place⟩ :: rest, n, p⟩ = _
  rw [if_neg tight]
  cases t <;> rfl

-- The kinds of operands that have parts, their first token still to be passed.
section
variable (fuel : Nat) (start : Span)

def unary (operator : String) : Parsing Expr := do
  advance
  let right ← expression fuel unaryPrecedence
  return .unary (← spanFrom start) operator right

def parenthesised : Parsing Expr := do
  advance
  let inner ← expression fuel 0
  expect .rightParen
  return inner.placed (← spanFrom start)

def conditional : Parsing Expr := do
  advance
  expect .leftParen
  let condition ← expression fuel 0
  expect .rightParen
  let consequence ← block fuel
  if ← eat .elseWord then
    let alternative ← block fuel
    return .conditional (← spanFrom start) condition consequence (some alternative)
  else return .conditional (← spanFrom start) condition consequence none

def function : Parsing Expr := do
  advance
  expect .leftParen
  let names ← if ← eat .rightParen then pure [] else parameters fuel []
  let body ← block fuel
  return .function (← spanFrom start) none names body

def array : Parsing Expr := do
  advance
  let elements ← list fuel .rightBracket
  return .array (← spanFrom start) elements

def hash : Parsing Expr := do
  advance
  let entries ← pairs fuel []
  return .hash (← spanFrom start) entries

end

def leaf (e : Expr) : Parsing Expr := do
  advance
  return e

def begun (fuel : Nat) (start : Span) (t : Token) : Parsing Expr :=
  match t with
  | .identifier name => leaf (.identifier start name)
  | .integer n => leaf (.integer start n)
  | .float x => leaf (.float start x)
  | .string s => leaf (.string start s)
  | .trueWord => leaf (.boolean start true)
  | .falseWord => leaf (.boolean start false)
  | .bang => unary fuel start "!"
  | .minus => unary fuel start "-"
  | .leftParen => parenthesised fuel start
  | .ifWord => conditional fuel start
  | .fnWord => function fuel start
  | .leftBracket => array fuel start
  | .leftBrace => hash fuel start
  | _ => refuse (.expression (some t))

theorem operand_begun {fuel : Nat} {t : Token} {place : Span} {rest : List Lexeme} (n : Nat) (p : Span) :
    operand (fuel + 1) ⟨⟨t, place⟩ :: rest, n, p⟩ = begun fuel place t ⟨⟨t, place⟩ :: rest, n, p⟩ := by
  cases t <;> rfl

end StackScript.Parsing
