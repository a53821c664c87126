import StackScript.Syntax.Basic
import StackScript.Text.Json

-- The JSON form of a program: each node is a record whose one field is named for its kind. Places are left out.
namespace StackScript

-- The shortest digits with a decimal; very large and very small numbers have an exponent. JSON has no infinity.
def Binary64.json (x : Binary64) : Json :=
  match x.magnitude with
  | .finite .. => .number (x.text ⟨.even, some (-5, 16), true, true⟩)
  | _ => .null

def Mutability.json : Mutability → Json
  | fixed => .string "Let"
  | assignable => .string "Var"

def Json.block (made : List Json) : Json := .record [("statements", .list made.reverse)]

mutual

def Expr.json : Expr → Json
  | .identifier _ name => .record [("Identifier", .string name)]
  | .integer _ n => .record [("Integer", .number (toString n.toInt))]
  | .float _ x => .record [("Float", x.json)]
  | .boolean _ b => .record [("Boolean", .bool b)]
  | .string _ s => .record [("String", .string s)]
  | .unary _ operator right => .record [("Prefix", .record [("operator", .string operator), ("right", right.json)])]
  | .binary _ operator left right =>
    .record [("Infix", .record [("operator", .string operator), ("left", left.json), ("right", right.json)])]
  | .conditional _ condition consequence none =>
    .record [("If", .record [("condition", condition.json), ("consequence", Json.block (statementsJson [] consequence)),
      ("alternative", .null)])]
  | .conditional _ condition consequence (some alternative) =>
    .record [("If", .record [("condition", condition.json), ("consequence", Json.block (statementsJson [] consequence)),
      ("alternative", Json.block (statementsJson [] alternative))])]
  | .function _ name parameters body =>
    .record [("Function", .record [("name", (name.map Json.string).getD .null),
      ("parameters", .list (parameters.map .string)), ("body", Json.block (statementsJson [] body))])]
  | .call _ callee arguments =>
    .record [("Call", .record [("function", callee.json), ("arguments", .list (listJson [] arguments).reverse)])]
  | .array _ elements => .record [("Array", .list (listJson [] elements).reverse)]
  | .hash _ pairs => .record [("Hash", .list (pairsJson [] pairs).reverse)]
  | .index _ target position => .record [("Index", .record [("left", target.json), ("index", position.json)])]

def Stmt.json : Stmt → Json
  | .declare _ mutability name value =>
    .record [("Declare", .record [("mutability", mutability.json), ("name", .string name), ("value", value.json)])]
  | .assign _ name value => .record [("Assign", .record [("name", .string name), ("value", value.json)])]
  | .returns _ value => .record [("Return", value.json)]
  | .expression _ value => .record [("Expr", value.json)]

def statementsJson (made : List Json) : List Stmt → List Json
  | [] => made
  | s :: rest => statementsJson (s.json :: made) rest

def listJson (made : List Json) : List Expr → List Json
  | [] => made
  | e :: rest => listJson (e.json :: made) rest

def pairsJson (made : List Json) : List (Expr × Expr) → List Json
  | [] => made
  | (key, value) :: rest => pairsJson (.list [key.json, value.json] :: made) rest

end

def Program.json (p : Program) : Json := Json.block (statementsJson [] p.statements)

end StackScript
