import StackScript.Session

-- Lexemes, trees and errors without their places. Two texts with the same tokens are the same but for places.
namespace StackScript

def Lexeme.unplaced (l : Lexeme) : Lexeme := { l with span := .unknown }

def Token.lexeme (t : Token) : Lexeme := ⟨t, .unknown⟩

theorem lexemes_unplaced (lexemes : List Lexeme) :
    lexemes.map Lexeme.unplaced = (lexemes.map Lexeme.token).map Token.lexeme := by
  rw [List.map_map]
  rfl

mutual

def Expr.unplaced : Expr → Expr
  | .identifier _ name => .identifier .unknown name
  | .integer _ n => .integer .unknown n
  | .float _ x => .float .unknown x
  | .boolean _ b => .boolean .unknown b
  | .string _ s => .string .unknown s
  | .unary _ operator right => .unary .unknown operator right.unplaced
  | .binary _ operator left right => .binary .unknown operator left.unplaced right.unplaced
  | .conditional _ condition consequence none =>
    .conditional .unknown condition.unplaced (bodyUnplaced consequence) none
  | .conditional _ condition consequence (some alternative) =>
    .conditional .unknown condition.unplaced (bodyUnplaced consequence) (some (bodyUnplaced alternative))
  | .function _ name parameters body => .function .unknown name parameters (bodyUnplaced body)
  | .call _ callee arguments => .call .unknown callee.unplaced (listUnplaced arguments)
  | .array _ elements => .array .unknown (listUnplaced elements)
  | .hash _ pairs => .hash .unknown (pairsUnplaced pairs)
  | .index _ target position => .index .unknown target.unplaced position.unplaced

def Stmt.unplaced : Stmt → Stmt
  | .declare _ mutability name value => .declare .unknown mutability name value.unplaced
  | .assign _ name value => .assign .unknown name value.unplaced
  | .returns _ value => .returns .unknown value.unplaced
  | .expression _ value => .expression .unknown value.unplaced

def bodyUnplaced : List Stmt → List Stmt
  | [] => []
  | s :: rest => s.unplaced :: bodyUnplaced rest

def listUnplaced : List Expr → List Expr
  | [] => []
  | e :: rest => e.unplaced :: listUnplaced rest

def pairsUnplaced : List (Expr × Expr) → List (Expr × Expr)
  | [] => []
  | (key, value) :: rest => (key.unplaced, value.unplaced) :: pairsUnplaced rest

end

def Program.unplaced (p : Program) : Program := ⟨bodyUnplaced p.statements, none⟩

def ParseError.unplaced (e : ParseError) : ParseError := { e with span := .unknown }

def CompileError.unplaced : CompileError → CompileError
  | .naming error _ => .naming error .unknown
  | .assignConstant name _ => .assignConstant name .unknown
  | .assignItself name _ => .assignItself name .unknown
  | .unknownOperator operator _ => .unknownOperator operator .unknown
  | .tooMany what limit _ => .tooMany what limit .unknown

-- Of the failures, those of parsing and of compiling have places. Text that is no token is where it is.
def Failure.unplaced : Failure → Failure
  | .parse errors => .parse (errors.map ParseError.unplaced)
  | .compile e => .compile e.unplaced
  | e => e

section
variable (body : List Stmt) (list : List Expr) (pairs : List (Expr × Expr))

theorem bodyUnplaced_eq : bodyUnplaced body = body.map Stmt.unplaced := by
  induction body with
  | nil => rfl
  | cons s rest ih => rw [bodyUnplaced, ih, List.map_cons]

theorem listUnplaced_eq : listUnplaced list = list.map Expr.unplaced := by
  induction list with
  | nil => rfl
  | cons e rest ih => rw [listUnplaced, ih, List.map_cons]

theorem pairsUnplaced_eq : pairsUnplaced pairs = pairs.map fun p => (p.1.unplaced, p.2.unplaced) := by
  induction pairs with
  | nil => rfl
  | cons p rest ih => rw [pairsUnplaced, ih, List.map_cons]

end

namespace Expr

@[simp] theorem span_unplaced (e : Expr) : e.unplaced.span = .unknown := by
  cases e with
  | conditional s condition consequence alternative => cases alternative <;> rfl
  | _ => rfl

@[simp] theorem unplaced_placed (e : Expr) (s : Span) : (e.placed s).unplaced = e.unplaced := by
  cases e with
  | conditional s condition consequence alternative => cases alternative <;> rfl
  | _ => rfl

theorem placed_unplaced (e : Expr) : e.unplaced.placed .unknown = e.unplaced := by
  cases e with
  | conditional s condition consequence alternative => cases alternative <;> rfl
  | _ => rfl

@[simp] theorem unplaced_named (e : Expr) (name : String) : (e.named name).unplaced = e.unplaced.named name := by
  cases e with
  | conditional s condition consequence alternative => cases alternative <;> rfl
  | _ => rfl

end Expr
end StackScript
