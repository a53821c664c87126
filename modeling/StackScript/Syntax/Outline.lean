import StackScript.Syntax.Basic

-- The nodes of a tree in source order, each before its parts.
namespace StackScript

structure Node where
  kind : String
  span : Span
deriving DecidableEq

mutual

def Expr.outlineOnto (nodes : Array Node) : Expr → Array Node
  | .identifier span _ => nodes.push ⟨"Identifier", span⟩
  | .integer span _ => nodes.push ⟨"Integer", span⟩
  | .float span _ => nodes.push ⟨"Float", span⟩
  | .boolean span _ => nodes.push ⟨"Boolean", span⟩
  | .string span _ => nodes.push ⟨"String", span⟩
  | .unary span _ right => right.outlineOnto (nodes.push ⟨"Prefix", span⟩)
  | .binary span _ left right => right.outlineOnto (left.outlineOnto (nodes.push ⟨"Infix", span⟩))
  | .conditional span condition consequence none =>
    outlineBlock (condition.outlineOnto (nodes.push ⟨"If", span⟩)) consequence
  | .conditional span condition consequence (some alternative) =>
    outlineBlock (outlineBlock (condition.outlineOnto (nodes.push ⟨"If", span⟩)) consequence) alternative
  | .function span _ _ body => outlineBlock (nodes.push ⟨"Function", span⟩) body
  | .call span callee arguments => outlineList (callee.outlineOnto (nodes.push ⟨"Call", span⟩)) arguments
  | .array span elements => outlineList (nodes.push ⟨"Array", span⟩) elements
  | .hash span pairs => outlinePairs (nodes.push ⟨"Hash", span⟩) pairs
  | .index span target position => position.outlineOnto (target.outlineOnto (nodes.push ⟨"Index", span⟩))

def Stmt.outlineOnto (nodes : Array Node) : Stmt → Array Node
  | .declare span _ _ value => value.outlineOnto (nodes.push ⟨"Declare", span⟩)
  | .assign span _ value => value.outlineOnto (nodes.push ⟨"Assign", span⟩)
  | .returns span value => value.outlineOnto (nodes.push ⟨"Return", span⟩)
  | .expression span value => value.outlineOnto (nodes.push ⟨"Expr", span⟩)

def outlineBlock (nodes : Array Node) : List Stmt → Array Node
  | [] => nodes
  | s :: rest => outlineBlock (s.outlineOnto nodes) rest

def outlineList (nodes : Array Node) : List Expr → Array Node
  | [] => nodes
  | e :: rest => outlineList (e.outlineOnto nodes) rest

def outlinePairs (nodes : Array Node) : List (Expr × Expr) → Array Node
  | [] => nodes
  | (key, value) :: rest => outlinePairs (value.outlineOnto (key.outlineOnto nodes)) rest

end

def Program.outline (p : Program) : Array Node := outlineBlock #[] p.statements

end StackScript
