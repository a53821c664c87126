import StackScript.Text.Quoted

-- JSON documents, written over many lines with two blanks for each level.
namespace StackScript

inductive Json where
  | null
  | bool (b : Bool)
  | number (digits : String)
  | string (s : String)
  | list (items : List Json)
  | record (fields : List (String × Json))
deriving Inhabited

namespace Json

def escape (c : Char) : List Char :=
  if c = '"' then ['\\', '"']
  else if c = '\\' then ['\\', '\\']
  else if c = '\x08' then ['\\', 'b']
  else if c = '\x0c' then ['\\', 'f']
  else if c = '\n' then ['\\', 'n']
  else if c = '\r' then ['\\', 'r']
  else if c = '\t' then ['\\', 't']
  else if c.toNat < 32 then ['\\', 'u'] ++ (Text.hex 4 c.toNat).toList
  else [c]

def quoted (s : String) : String := String.ofList ('"' :: s.toList.flatMap escape ++ ['"'])

def indentOnto (out : String) : (level : Nat) → String
  | 0 => out
  | level + 1 => indentOnto (out ++ "  ") level

def newlineOnto (out : String) (level : Nat) : String := indentOnto (out ++ "\n") level

mutual

def prettyOnto (out : String) (level : Nat) : Json → String
  | null => out ++ "null"
  | bool b => out ++ if b then "true" else "false"
  | number digits => out ++ digits
  | string s => out ++ quoted s
  | list [] => out ++ "[]"
  | list (item :: items) => prettyItems (newlineOnto (out ++ "[") (level + 1)) level (item :: items)
  | record [] => out ++ "\x7b\x7d"
  | record (field :: fields) => prettyFields (newlineOnto (out ++ "\x7b") (level + 1)) level (field :: fields)

def prettyItems (out : String) (level : Nat) : List Json → String
  | [] => out
  | [item] => newlineOnto (prettyOnto out (level + 1) item) level ++ "]"
  | item :: items => prettyItems (newlineOnto (prettyOnto out (level + 1) item ++ ",") (level + 1)) level items

def prettyFields (out : String) (level : Nat) : List (String × Json) → String
  | [] => out
  | [(name, value)] => newlineOnto (prettyOnto (out ++ quoted name ++ ": ") (level + 1) value) level ++ "\x7d"
  | (name, value) :: fields =>
    prettyFields (newlineOnto (prettyOnto (out ++ quoted name ++ ": ") (level + 1) value ++ ",") (level + 1)) level
      fields

end

def pretty (document : Json) : String := prettyOnto "" 0 document

end Json
end StackScript
