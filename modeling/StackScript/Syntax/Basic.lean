import StackScript.Token.Basic

-- Programs as trees. Every node keeps the range of text that it was read from.
namespace StackScript

-- A `let` name is constant, a `var` name can be assigned.
inductive Mutability where
  | fixed
  | assignable
deriving DecidableEq, Inhabited

def Mutability.keyword : Mutability → String
  | fixed => "let"
  | assignable => "var"

mutual

-- Operators keep their spelling; which of them exist is the compiler's business.
inductive Expr where
  | identifier (span : Span) (name : String)
  | integer (span : Span) (n : Int32)
  | float (span : Span) (x : Binary64)
  | boolean (span : Span) (b : Bool)
  | string (span : Span) (s : String)
  | unary (span : Span) (operator : String) (right : Expr)
  | binary (span : Span) (operator : String) (left right : Expr)
  | conditional (span : Span) (condition : Expr) (consequence : List Stmt) (alternative : Option (List Stmt))
  | function (span : Span) (name : Option String) (parameters : List String) (body : List Stmt)
  | call (span : Span) (callee : Expr) (arguments : List Expr)
  | array (span : Span) (elements : List Expr)
  | hash (span : Span) (pairs : List (Expr × Expr)) -- as written
  | index (span : Span) (target position : Expr)

inductive Stmt where
  | declare (span : Span) (mutability : Mutability) (name : String) (value : Expr)
  | assign (span : Span) (name : String) (value : Expr)
  | returns (span : Span) (value : Expr)
  | expression (span : Span) (value : Expr)

end

instance : Inhabited Expr := ⟨.integer .unknown 0⟩
instance : Inhabited Stmt := ⟨.expression .unknown default⟩

-- A program remembers the text it was read from, if it was read from one.
structure Program where
  statements : List Stmt
  source : Option String
deriving Inhabited

namespace Expr

def span : Expr → Span
  | identifier s _ | integer s _ | float s _ | boolean s _ | string s _ | unary s .. | binary s .. | conditional s ..
  | function s .. | call s .. | array s _ | hash s _ | index s .. => s

def placed (s : Span) : Expr → Expr
  | identifier _ name => identifier s name
  | integer _ n => integer s n
  | float _ x => float s x
  | boolean _ b => boolean s b
  | string _ text => string s text
  | unary _ operator right => unary s operator right
  | binary _ operator left right => binary s operator left right
  | conditional _ condition consequence alternative => conditional s condition consequence alternative
  | function _ name parameters body => function s name parameters body
  | call _ callee arguments => call s callee arguments
  | array _ elements => array s elements
  | hash _ pairs => hash s pairs
  | index _ target position => index s target position

-- A function that a declaration binds takes the declared name; nothing else has one.
def named (name : String) : Expr → Expr
  | function s _ parameters body => function s (some name) parameters body
  | e => e

end Expr

namespace Stmt

def span : Stmt → Span
  | declare s .. | assign s .. | returns s _ | expression s _ => s

end Stmt
end StackScript
