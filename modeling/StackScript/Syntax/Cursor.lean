import StackScript.Syntax.Basic

-- Where reading a program stands among its lexemes, and how it stops at one that does not fit.
namespace StackScript

-- What was met where something else had to stand; none is the end.
inductive Misread where
  | token (expected : Token) (found : Option Token)
  | identifier (found : Option Token)
  | expression (found : Option Token)
  | openBlock
deriving DecidableEq

def Misread.message : Misread → String
  | token expected found => s!"expected {expected.shown}, got {shown found}"
  | identifier found => s!"expected identifier, got {shown found}"
  | expression found => s!"expected expression, got {shown found}"
  | openBlock => "expected '\x7d' to close block, got EOF"
where
  shown (found : Option Token) : String := (found.map Token.shown).getD "EOF"

structure ParseError where
  position : Nat
  span : Span
  problem : Misread
deriving DecidableEq

namespace ParseError

def message (e : ParseError) : String := e.problem.message

def text (e : ParseError) : String := s!"Parse error at token {e.position}: {e.message}"

end ParseError

-- The lexemes that are left, how many are behind, and the place of the one just behind.
structure Cursor where
  rest : List Lexeme
  position : Nat
  previous : Span

namespace Cursor

def start (lexemes : List Lexeme) : Cursor := ⟨lexemes, 0, .unknown⟩

-- The place of the next lexeme, or the end of the last one.
def here (c : Cursor) : Span :=
  match c.rest with
  | l :: _ => l.span
  | [] => c.previous.after

def peek? (c : Cursor) : Option Token := c.rest.head?.map Lexeme.token

def advance (c : Cursor) : Cursor :=
  match c.rest with
  | l :: rest => ⟨rest, c.position + 1, l.span⟩
  | [] => c

def error (c : Cursor) (problem : Misread) : ParseError := ⟨c.position, c.here, problem⟩

end Cursor

-- How reading stops. It is exhausted when its depth ran out, which none of its callers lets happen.
inductive Halt where
  | error (e : ParseError)
  | exhausted

abbrev Parsing := EStateM Halt Cursor

namespace Parsing

def refuse (problem : Misread) : Parsing α := do throw (.error ((← get).error problem))

def advance : Parsing Unit := modify Cursor.advance

def eat (t : Token) : Parsing Bool := do
  if (← get).peek? = some t then
    advance
    return true
  else return false

def expect (t : Token) : Parsing Unit := do
  let found := (← get).peek?
  if found = some t then advance else refuse (.token t found)

def expectIdentifier : Parsing String := do
  match (← get).peek? with
  | some (.identifier name) =>
    advance
    return name
  | found => refuse (.identifier found)

def spanFrom (start : Span) : Parsing Span := do return start.merge (← get).previous

end Parsing
end StackScript
