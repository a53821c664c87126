import StackScript.Syntax.Cursor
import StackScript.Token.Scan

-- Programs from lexemes. Operators bind by precedence and to the left. After an error reading goes on behind the
-- next semicolon that is outside all braces opened since.
namespace StackScript

-- How tightly a token binds to the expression on its left; 0 if it does not continue one.
def Token.precedence : Token → Nat
  | equal | notEqual => 1
  | less | lessEqual | greater | greaterEqual => 2
  | plus | minus => 3
  | asterisk | slash => 4
  | leftParen => 6
  | leftBracket => 7
  | _ => 0

namespace Parsing

-- The precedence of a prefix operator: above all infix ones, below calls and indexing.
def unaryPrecedence : Nat := 5

-- Names up to a closing parenthesis, at least one, after those already read in reverse.
def parameters : (fuel : Nat) → List String → Parsing (List String)
  | 0, _ => throw .exhausted
  | fuel + 1, names => do
    let name ← expectIdentifier
    if ← eat .comma then parameters fuel (name :: names)
    else
      expect .rightParen
      return (name :: names).reverse

mutual

-- One statement. Its range ends before the semicolon that may close it.
def statement : (fuel : Nat) → Parsing Stmt
  | 0 => throw .exhausted
  | fuel + 1 => do
    let start := (← get).here
    match (← get).rest with
    | ⟨.letWord, _⟩ :: _ => declaration fuel start .fixed
    | ⟨.varWord, _⟩ :: _ => declaration fuel start .assignable
    | ⟨.returnWord, _⟩ :: _ =>
      advance
      let value ← expression fuel 0
      let span ← spanFrom start
      let _ ← eat .semicolon
      return .returns span value
    | ⟨.identifier name, _⟩ :: ⟨.assign, _⟩ :: _ =>
      advance
      advance
      let value ← expression fuel 0
      let span ← spanFrom start
      let _ ← eat .semicolon
      return .assign span name value
    | _ =>
      let value ← expression fuel 0
      let span ← spanFrom start
      let _ ← eat .semicolon
      return .expression span value

def declaration : (fuel : Nat) → Span → Mutability → Parsing Stmt
  | 0, _, _ => throw .exhausted
  | fuel + 1, start, mutability => do
    advance
    let name ← expectIdentifier
    expect .assign
    let value ← expression fuel 0
    let span ← spanFrom start
    let _ ← eat .semicolon
    return .declare span mutability name (value.named name)

def block : (fuel : Nat) → Parsing (List Stmt)
  | 0 => throw .exhausted
  | fuel + 1 => do
    expect .leftBrace
    blockRest fuel []

def blockRest : (fuel : Nat) → List Stmt → Parsing (List Stmt)
  | 0, _ => throw .exhausted
  | fuel + 1, statements => do
    match (← get).peek? with
    | some .rightBrace =>
      advance
      return statements.reverse
    | none => refuse .openBlock
    | _ =>
      let s ← statement fuel
      blockRest fuel (s :: statements)

-- An expression of operators that bind tighter than `level`.
def expression : (fuel : Nat) → (level : Nat) → Parsing Expr
  | 0, _ => throw .exhausted
  | fuel + 1, level => do
    let left ← operand fuel
    extend fuel level left

-- Calls, indexing and infix operators on what is already read.
def extend : (fuel : Nat) → (level : Nat) → Expr → Parsing Expr
  | 0, _, _ => throw .exhausted
  | fuel + 1, level, left => do
    match (← get).peek? with
    | none => return left
    | some t =>
      if t.precedence ≤ level then return left
      else
        match t with
        | .leftParen =>
          advance
          let arguments ← list fuel .rightParen
          let span ← spanFrom left.span
          extend fuel level (.call span left arguments)
        | .leftBracket =>
          advance
          let position ← expression fuel 0
          expect .rightBracket
          let span ← spanFrom left.span
          extend fuel level (.index span left position)
        | _ =>
          advance
          let right ← expression fuel t.precedence
          extend fuel level (.binary (left.span.merge right.span) (t.operator?.getD "") left right)

def operand : (fuel : Nat) → Parsing Expr
  | 0 => throw .exhausted
  | fuel + 1 => do
    let start := (← get).here
    match (← get).peek? with
    | some (.identifier name) =>
      advance
      return .identifier start name
    | some (.integer n) =>
      advance
      return .integer start n
    | some (.float x) =>
      advance
      return .float start x
    | some (.string s) =>
      advance
      return .string start s
    | some .trueWord =>
      advance
      return .boolean start true
    | some .falseWord =>
      advance
      return .boolean start false
    | some .bang =>
      advance
      let right ← expression fuel unaryPrecedence
      return .unary (← spanFrom start) "!" right
    | some .minus =>
      advance
      let right ← expression fuel unaryPrecedence
      return .unary (← spanFrom start) "-" right
    | some .leftParen =>
      advance
      let inner ← expression fuel 0
      expect .rightParen
      return inner.placed (← spanFrom start)
    | some .ifWord =>
      advance
      expect .leftParen
      let condition ← expression fuel 0
      expect .rightParen
      let consequence ← block fuel
      if ← eat .elseWord then
        let alternative ← block fuel
        return .conditional (← spanFrom start) condition consequence (some alternative)
      else return .conditional (← spanFrom start) condition consequence none
    | some .fnWord =>
      advance
      expect .leftParen
      let names ← if ← eat .rightParen then pure [] else parameters fuel []
      let body ← block fuel
      return .function (← spanFrom start) none names body
    | some .leftBracket =>
      advance
      let elements ← list fuel .rightBracket
      return .array (← spanFrom start) elements
    | some .leftBrace =>
      advance
      let entries ← pairs fuel []
      return .hash (← spanFrom start) entries
    | found => refuse (.expression found)

def list : (fuel : Nat) → (close : Token) → Parsing (List Expr)
  | 0, _ => throw .exhausted
  | fuel + 1, close => do
    if ← eat close then return [] else listRest fuel close []

def listRest : (fuel : Nat) → (close : Token) → List Expr → Parsing (List Expr)
  | 0, _, _ => throw .exhausted
  | fuel + 1, close, read => do
    let e ← expression fuel 0
    if ← eat .comma then listRest fuel close (e :: read)
    else
      expect close
      return (e :: read).reverse

-- Pairs up to a closing brace, after those already read in reverse. A comma may stand behind the last one.
def pairs : (fuel : Nat) → List (Expr × Expr) → Parsing (List (Expr × Expr))
  | 0, _ => throw .exhausted
  | fuel + 1, read => do
    if ← eat .rightBrace then return read.reverse
    else
      let key ← expression fuel 0
      expect .colon
      let value ← expression fuel 0
      if ← eat .comma then pairs fuel ((key, value) :: read)
      else
        expect .rightBrace
        return ((key, value) :: read).reverse

end
end Parsing

namespace Cursor

-- Passes over everything up to and with the next semicolon outside braces, of which `depth` are open.
def resync (depth : Nat) : List Lexeme → (position : Nat) → (previous : Span) → Cursor
  | [], position, previous => ⟨[], position, previous⟩
  | l :: rest, position, _ =>
    match l.token with
    | .leftBrace => resync (depth + 1) rest (position + 1) l.span
    | .rightBrace => resync (depth - 1) rest (position + 1) l.span
    | .semicolon => if depth = 0 then ⟨rest, position + 1, l.span⟩ else resync depth rest (position + 1) l.span
    | _ => resync depth rest (position + 1) l.span

end Cursor

structure Parsed where
  statements : List Stmt
  errors : List ParseError

namespace Parsed

def maxErrors : Nat := 20

-- Depth enough for any reading of so many lexemes: no lexeme nests more than eight calls.
def depthFor (lexemes : Nat) : Nat := 8 * lexemes + 8

-- Statements and errors up to the end, after those already found, which stand in reverse.
def collect (depth : Nat) : (fuel : Nat) → List Stmt → List ParseError → Cursor → Parsed
  | 0, statements, errors, _ => ⟨statements.reverse, errors.reverse⟩
  | fuel + 1, statements, errors, c =>
    if c.rest.isEmpty || maxErrors ≤ errors.length then ⟨statements.reverse, errors.reverse⟩
    else
      match Parsing.statement depth c with
      | .ok s c => collect depth fuel (s :: statements) errors c
      | .error (.error e) c => collect depth fuel statements (e :: errors) (.resync 0 c.rest c.position c.previous)
      | .error .exhausted _ => ⟨statements.reverse, errors.reverse⟩

def ofLexemes (lexemes : List Lexeme) : Parsed :=
  collect (depthFor lexemes.length) (lexemes.length + 1) [] [] (.start lexemes)

end Parsed

def Program.ofLexemes (lexemes : List Lexeme) : Except (List ParseError) Program :=
  let parsed := Parsed.ofLexemes lexemes
  if parsed.errors.isEmpty then .ok ⟨parsed.statements, none⟩ else .error parsed.errors

end StackScript
