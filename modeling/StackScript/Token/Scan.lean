import StackScript.Token.Basic

-- Tokens of a text: at each place the longest that stands there. Between them lie blanks and comments, which run
-- from two slashes up to a newline.
namespace StackScript

structure LexError where
  position : Nat
  snippet : String
deriving DecidableEq

namespace LexError

def suggestion (e : LexError) : String :=
  if e.snippet.startsWith "\"" then
    "Unterminated string or unknown escape sequence; supported escapes are \\n \\t \\r \\\" \\\\"
  else if e.snippet.all Char.isDigit then s!"Integer literal '{e.snippet}' does not fit in 32 bits"
  else s!"Unexpected character(s): '{e.snippet}'"

def message (e : LexError) : String := s!"Lex error at position {e.position}: '{e.snippet}'. {e.suggestion}"

end LexError

namespace Scan

def isBlank (c : Char) : Bool := c = ' ' || c = '\t' || c = '\r' || c = '\n' || c = '\x0c'

-- Names are made of ASCII letters, digits and underscores.
def startsName (c : Char) : Bool := c.isAlpha || c = '_'
def continuesName (c : Char) : Bool := startsName c || c.isDigit

-- The number that decimal digits write, after `n`.
def digitsValue (digits : List Char) (n : Nat) : Nat := digits.foldl (fun n c => 10 * n + (c.toNat - 48)) n

-- Where a string literal ends whose opening quote is behind, counted in characters after `n` others, and whether
-- its closing quote was reached. A backslash carries the next character with it, but never a newline.
def literalEnd : List Char → Nat → Nat × Bool
  | [], n => (n, false)
  | '"' :: _, n => (n + 1, true)
  | ['\\'], n => (n + 1, false)
  | '\\' :: c :: rest, n => if c = '\n' then (n + 1, false) else literalEnd rest (n + 2)
  | _ :: rest, n => literalEnd rest (n + 1)

-- What is written between the quotes, after `read` in reverse. Five escapes are known.
def unescape : List Char → (read : List Char) → Option (List Char)
  | [], read => some read.reverse
  | '\\' :: c :: rest, read =>
    match c with
    | 'n' => unescape rest ('\n' :: read)
    | 't' => unescape rest ('\t' :: read)
    | 'r' => unescape rest ('\r' :: read)
    | '"' => unescape rest ('"' :: read)
    | '\\' => unescape rest ('\\' :: read)
    | _ => none
  | ['\\'], _ => none
  | c :: rest, read => unescape rest (c :: read)

inductive Front where
  | blank
  | token (t : Token)
  | bad

def stringFront (rest : List Char) : Front × Nat :=
  let (taken, closed) := literalEnd rest 0
  if closed then
    match unescape (rest.take (taken - 1)) [] with
    | some s => (.token (.string (String.ofList s)), taken)
    | none => (.bad, taken)
  else (.bad, taken)

-- A number that begins with a digit. Digits on both sides of a point make a float.
def numberFront (c : Char) (rest : List Char) : Front × Nat :=
  let whole := rest.takeWhile Char.isDigit
  let n := digitsValue (c :: whole) 0
  match rest.drop whole.length with
  | '.' :: behind =>
    let fraction := behind.takeWhile Char.isDigit
    if fraction.isEmpty then integerFront n whole.length
    else (.token (.float (.ofRatio (digitsValue fraction n) (Nat.pow 10 fraction.length))),
      whole.length + 1 + fraction.length)
  | _ => integerFront n whole.length
where
  integerFront (n taken : Nat) : Front × Nat :=
    if n < Nat.pow 2 31 then (.token (.integer (.ofNat n)), taken) else (.bad, taken)

def orEqual (shorter longer : Token) (rest : List Char) : Front × Nat :=
  match rest with
  | '=' :: _ => (.token longer, 1)
  | _ => (.token shorter, 0)

-- What a character begins with those behind it, and how many of these it takes.
def front (c : Char) (rest : List Char) : Front × Nat :=
  if isBlank c then (.blank, 0)
  else if startsName c then
    let more := rest.takeWhile continuesName
    (.token (.ofWord (String.ofList (c :: more))), more.length)
  else if c.isDigit then numberFront c rest
  else
    match c with
    | '"' => stringFront rest
    | '/' =>
      match rest with
      | '/' :: _ => (.blank, (rest.takeWhile (· ≠ '\n')).length)
      | _ => (.token .slash, 0)
    | '=' => orEqual .assign .equal rest
    | '!' => orEqual .bang .notEqual rest
    | '<' => orEqual .less .lessEqual rest
    | '>' => orEqual .greater .greaterEqual rest
    | '+' => (.token .plus, 0)
    | '-' => (.token .minus, 0)
    | '*' => (.token .asterisk, 0)
    | ',' => (.token .comma, 0)
    | ';' => (.token .semicolon, 0)
    | ':' => (.token .colon, 0)
    | '(' => (.token .leftParen, 0)
    | ')' => (.token .rightParen, 0)
    | '\x7b' => (.token .leftBrace, 0)
    | '\x7d' => (.token .rightBrace, 0)
    | '[' => (.token .leftBracket, 0)
    | ']' => (.token .rightBracket, 0)
    | _ => (.bad, 0)

def byteCount (text : List Char) : Nat := text.foldl (fun n c => n + c.utf8Size) 0

-- The lexemes of a text that begins at an offset, after those already read.
def lexemesFrom (offset : Nat) (read : Array Lexeme) : List Char → Except LexError (Array Lexeme)
  | [] => .ok read
  | c :: rest =>
    let (front, taken) := front c rest
    let text := c :: rest.take taken
    let stop := offset + byteCount text
    match front with
    | .blank => lexemesFrom stop read (rest.drop taken)
    | .token t => lexemesFrom stop (read.push ⟨t, ⟨offset, stop⟩⟩) (rest.drop taken)
    | .bad => .error ⟨offset, String.ofList text⟩
termination_by text => text.length
decreasing_by all_goals simp only [List.length_drop, List.length_cons]; omega

end Scan

def lexemes (source : String) : Except LexError (Array Lexeme) := Scan.lexemesFrom 0 #[] source.toList

end StackScript
