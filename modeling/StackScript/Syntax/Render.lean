import StackScript.Syntax.Basic

-- Source-like text of a tree. Operators are wrapped in parentheses, so that no precedence is needed to read it.
namespace StackScript

mutual

-- Strings stand bare, without quotes.
def Expr.text : Expr → String
  | .identifier _ name => name
  | .integer _ n => toString n.toInt
  | .float _ x => x.literal
  | .boolean _ b => if b then "true" else "false"
  | .string _ s => s
  | .unary _ operator right => "(" ++ operator ++ right.text ++ ")"
  | .binary _ operator left right => "(" ++ left.text ++ " " ++ operator ++ " " ++ right.text ++ ")"
  | .conditional _ condition consequence none => "if" ++ condition.text ++ " " ++ blockText "" consequence
  | .conditional _ condition consequence (some alternative) =>
    "if" ++ condition.text ++ " " ++ blockText "" consequence ++ "else " ++ blockText "" alternative
  | .function _ name parameters body =>
    let name := match name with
      | some name => "<" ++ name ++ ">"
      | none => ""
    "fn" ++ name ++ "(" ++ ", ".intercalate parameters ++ ") " ++ blockText "" body
  | .call _ callee arguments => callee.text ++ "(" ++ ", ".intercalate (listTexts [] arguments).reverse ++ ")"
  | .array _ elements => "[" ++ ", ".intercalate (listTexts [] elements).reverse ++ "]"
  | .hash _ pairs => "\x7b" ++ ", ".intercalate (pairTexts [] pairs).reverse ++ "\x7d"
  | .index _ target position => "(" ++ target.text ++ "[" ++ position.text ++ "])"

def Stmt.text : Stmt → String
  | .declare _ mutability name value => mutability.keyword ++ " " ++ name ++ " = " ++ value.text ++ ";"
  | .assign _ name value => name ++ " = " ++ value.text ++ ";"
  | .returns _ value => "return " ++ value.text ++ ";"
  | .expression _ value => value.text

def blockText (written : String) : List Stmt → String
  | [] => written
  | s :: rest => blockText (written ++ s.text) rest

def listTexts (made : List String) : List Expr → List String
  | [] => made
  | e :: rest => listTexts (e.text :: made) rest

def pairTexts (made : List String) : List (Expr × Expr) → List String
  | [] => made
  | (key, value) :: rest => pairTexts ((key.text ++ ":" ++ value.text) :: made) rest

end

def Program.text (p : Program) : String := blockText "" p.statements

end StackScript
