import StackScript.Text.Quoted

namespace StackScript

inductive Key where
  | integer (n : Int32)
  | boolean (b : Bool)
  | string (s : String)
deriving DecidableEq

namespace Key

-- Integers come first, then booleans, then strings; each kind in its own order.
def compare : Key → Key → Ordering
  | integer m, integer n => Ord.compare m.toInt n.toInt
  | integer _, _ => .lt
  | _, integer _ => .gt
  | boolean a, boolean b => Ord.compare a b
  | boolean _, _ => .lt
  | _, boolean _ => .gt
  | string s, string t => Ord.compare s t

-- As the value's text, except that a string is quoted.
def text : Key → String
  | integer n => toString n.toInt
  | boolean b => if b then "true" else "false"
  | string s => Text.quoted s

end Key
end StackScript
