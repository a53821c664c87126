import StackScript.Syntax.Render

-- What the parts of a program do with names, in the order in which they are compiled.
namespace StackScript

inductive Event where
  | mention (x : String)
  | declare (x : String)
  | literal -- a number, a string or a function
deriving DecidableEq

namespace Event

-- What the body of a function does with names that are not its own.
def outward (own : List String) : List Event → List Event
  | [] => []
  | .mention x :: rest => if x ∈ own then outward own rest else .mention x :: outward own rest
  | .declare x :: rest => outward (x :: own) rest
  | .literal :: rest => .literal :: outward own rest

-- The mentioned names that are known, in the order of their first mention.
def capturing (known : String → Bool) (found : List String) : List Event → List String
  | [] => found
  | .mention x :: rest => capturing known (if known x && !found.contains x then found ++ [x] else found) rest
  | .declare _ :: rest => capturing known found rest
  | .literal :: rest => capturing known found rest

end Event

-- `a < b` is `b > a`, and its right operand comes first.
def swapped (operator : String) : Bool := operator = "<" || operator = "<="

mutual

def Stmt.events : Stmt → List Event
  | .expression _ value => value.events
  | .returns _ value => value.events
  | .assign _ name value => value.events ++ [.mention name]
  | .declare _ _ name (.function _ _ parameters body) =>
    Event.outward (name :: parameters) (bodyEvents body) ++ [.literal, .declare name]
  | .declare _ _ name value => value.events ++ [.declare name]

def bodyEvents : List Stmt → List Event
  | [] => []
  | s :: rest => s.events ++ bodyEvents rest

def Expr.events : Expr → List Event
  | .identifier _ name => [.mention name]
  | .integer .. | .float .. | .string .. => [.literal]
  | .boolean .. => []
  | .unary _ _ right => right.events
  | .binary _ operator left right =>
    if swapped operator then right.events ++ left.events else left.events ++ right.events
  | .conditional _ condition consequence none => condition.events ++ bodyEvents consequence
  | .conditional _ condition consequence (some alternative) =>
    condition.events ++ (bodyEvents consequence ++ bodyEvents alternative)
  | .function _ own parameters body => Event.outward (own.toList ++ parameters) (bodyEvents body) ++ [.literal]
  | .call _ callee arguments => callee.events ++ listEvents arguments
  | .array _ elements => listEvents elements
  | .hash _ pairs => ((pairEvents pairs).mergeSort fun a b => a.1 ≤ b.1).flatMap Prod.snd
  | .index _ target position => target.events ++ position.events

def listEvents : List Expr → List Event
  | [] => []
  | e :: rest => e.events ++ listEvents rest

def pairEvents : List (Expr × Expr) → List (String × List Event)
  | [] => []
  | (key, value) :: rest => (key.text, key.events ++ value.events) :: pairEvents rest

end

end StackScript
