import StackScript.Number.Decimal
import StackScript.Text.Position
import StackScript.Text.Quoted

namespace StackScript

inductive Token where
  | letWord
  | varWord
  | fnWord
  | trueWord
  | falseWord
  | ifWord
  | elseWord
  | returnWord
  | assign
  | plus
  | minus
  | asterisk
  | slash
  | bang
  | less
  | lessEqual
  | greater
  | greaterEqual
  | equal
  | notEqual
  | comma
  | semicolon
  | colon
  | leftParen
  | rightParen
  | leftBrace
  | rightBrace
  | leftBracket
  | rightBracket
  | float (x : Binary64)
  | integer (n : Int32)
  | string (s : String)
  | identifier (name : String)
deriving DecidableEq

structure Lexeme where
  token : Token
  span : Span
deriving DecidableEq

-- Floats in syntax always show a decimal; very large and very small ones have an exponent.
def Binary64.literal (x : Binary64) : String := x.text ⟨.up, some (-4, 16), true, false⟩

namespace Token

def kind : Token → String
  | letWord => "Let"
  | varWord => "Var"
  | fnWord => "Function"
  | trueWord => "True"
  | falseWord => "False"
  | ifWord => "If"
  | elseWord => "Else"
  | returnWord => "Return"
  | assign => "Assign"
  | plus => "Plus"
  | minus => "Minus"
  | asterisk => "Asterisk"
  | slash => "Slash"
  | bang => "Bang"
  | less => "Lt"
  | lessEqual => "LtEq"
  | greater => "Gt"
  | greaterEqual => "GtEq"
  | equal => "Eq"
  | notEqual => "NotEq"
  | comma => "Comma"
  | semicolon => "Semicolon"
  | colon => "Colon"
  | leftParen => "LParen"
  | rightParen => "RParen"
  | leftBrace => "LBrace"
  | rightBrace => "RBrace"
  | leftBracket => "LBracket"
  | rightBracket => "RBracket"
  | float _ => "Float"
  | integer _ => "Int"
  | string _ => "Str"
  | identifier _ => "Ident"

def shown : Token → String
  | float x => s!"Float({x.literal})"
  | integer n => s!"Int({n.toInt})"
  | string s => s!"Str({Text.quoted s})"
  | identifier name => s!"Ident({Text.quoted name})"
  | t => t.kind

def operator? : Token → Option String
  | plus => some "+"
  | minus => some "-"
  | asterisk => some "*"
  | slash => some "/"
  | bang => some "!"
  | less => some "<"
  | lessEqual => some "<="
  | greater => some ">"
  | greaterEqual => some ">="
  | equal => some "=="
  | notEqual => some "!="
  | _ => none

def ofWord (word : String) : Token :=
  match word with
  | "let" => letWord
  | "var" => varWord
  | "fn" => fnWord
  | "true" => trueWord
  | "false" => falseWord
  | "if" => ifWord
  | "else" => elseWord
  | "return" => returnWord
  | _ => identifier word

end Token
end StackScript
