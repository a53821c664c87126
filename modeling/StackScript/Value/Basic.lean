import StackScript.Code.Instruction
import StackScript.Number.Decimal
import StackScript.Value.Key

-- Values of a running program, of the constants it was compiled to, and of the files it is kept in.
namespace StackScript

-- The native functions, in the order of their operands.
inductive Builtin where
  | len
  | puts
  | first
  | last
  | rest
  | push
deriving DecidableEq

namespace Builtin

def all : List Builtin := [len, puts, first, last, rest, push]

def index (b : Builtin) : Nat := b.ctorIdx

def ofIndex? (n : Nat) : Option Builtin := all[n]?

def name : Builtin → String
  | len => "len"
  | puts => "puts"
  | first => "first"
  | last => "last"
  | rest => "rest"
  | push => "push"

-- How many arguments it takes; none means any number.
def arity? : Builtin → Option Nat
  | puts => none
  | push => some 2
  | _ => some 1

end Builtin

-- A function body. Its parameters are the first of its locals.
structure Routine where
  code : Code
  parameters : Nat
  locals : Nat
deriving DecidableEq, Inhabited

-- The pairs of a hash stand in the order of their keys, each key once. A closure exists only while a program runs.
inductive Value where
  | null
  | integer (n : Int32)
  | float (x : Binary64)
  | boolean (b : Bool)
  | string (s : String)
  | array (items : List Value)
  | hash (pairs : List (Key × Value))
  | function (routine : Routine)
  | closure (routine : Routine) (captured : List Value)
  | builtin (b : Builtin)
deriving Inhabited

def Key.toValue : Key → Value
  | integer n => .integer n
  | boolean b => .boolean b
  | string s => .string s

namespace Value

def typeName : Value → String
  | null => "Null"
  | integer _ => "Integer"
  | float _ => "Float"
  | boolean _ => "Boolean"
  | string _ => "String"
  | array _ => "Array"
  | hash _ => "Hash"
  | function _ => "CompiledFunction"
  | closure .. => "Closure"
  | builtin _ => "Builtin"

def key? : Value → Option Key
  | integer n => some (.integer n)
  | boolean b => some (.boolean b)
  | string s => some (.string s)
  | _ => none

theorem key?_eq {v : Value} {k : Key} (known : v.key? = some k) : v = k.toValue := by
  cases v <;> cases known <;> rfl

theorem key?_toValue (k : Key) : k.toValue.key? = some k := by cases k <;> rfl

-- Everything but null and false.
def truthy : Value → Bool
  | null | boolean false => false
  | _ => true

-- The pairs with one more. An older value of the key is replaced.
def insert (k : Key) (v : Value) : List (Key × Value) → List (Key × Value)
  | [] => [(k, v)]
  | (l, w) :: rest =>
    match k.compare l with
    | .lt => (k, v) :: (l, w) :: rest
    | .eq => (k, v) :: rest
    | .gt => (l, w) :: insert k v rest

-- The hash of some pairs, of which the last with a key wins.
def hashOf (pairs : List (Key × Value)) : Value := hash (pairs.foldl (fun sorted (k, v) => insert k v sorted) [])

def find? (k : Key) (pairs : List (Key × Value)) : Option Value :=
  (pairs.find? fun (l, _) => k = l).map Prod.snd

mutual

-- Equality as programs see it: floats are compared as numbers, all else by structure.
def same : Value → Value → Bool
  | null, null => true
  | integer m, integer n => m = n
  | float x, float y => x.same y
  | boolean a, boolean b => a = b
  | string s, string t => s = t
  | array xs, array ys => sameItems xs ys
  | hash ps, hash qs => samePairs ps qs
  | function r, function s => r = s
  | closure r xs, closure s ys => r = s && sameItems xs ys
  | builtin a, builtin b => a = b
  | _, _ => false

def sameItems : List Value → List Value → Bool
  | [], [] => true
  | x :: xs, y :: ys => x.same y && sameItems xs ys
  | _, _ => false

def samePairs : List (Key × Value) → List (Key × Value) → Bool
  | [], [] => true
  | (k, x) :: ps, (l, y) :: qs => k = l && (x.same y && samePairs ps qs)
  | _, _ => false

end

mutual

def depth : Value → Nat
  | array items => itemsDepth 0 items + 1
  | hash pairs => pairsDepth 0 pairs + 1
  | closure _ captured => itemsDepth 0 captured + 1
  | _ => 0

def itemsDepth (most : Nat) : List Value → Nat
  | [] => most
  | x :: xs => itemsDepth (max most x.depth) xs

def pairsDepth (most : Nat) : List (Key × Value) → Nat
  | [] => most
  | (_, x) :: ps => pairsDepth (max most x.depth) ps

end

-- A whole number in full with one decimal; of any other, the fewest digits and never an exponent.
def floatText (x : Binary64) : String :=
  let layout : Decimal.Layout := ⟨.up, none, false, false⟩
  match x.magnitude with
  | .finite significand exponent =>
    let whole := significand * Nat.pow 2 exponent.toNat / Nat.pow 2 (-exponent).toNat
    if whole * Nat.pow 2 (-exponent).toNat = significand * Nat.pow 2 exponent.toNat then
      (if x.negative then "-" else "") ++ toString whole ++ ".0"
    else x.text layout
  | _ => x.text layout

mutual

-- The text that printing and joining to a string use.
def text : Value → String
  | null => "null"
  | integer n => toString n.toInt
  | float x => floatText x
  | boolean b => if b then "true" else "false"
  | string s => s
  | array items => "[" ++ ", ".intercalate (itemTexts [] items).reverse ++ "]"
  | hash pairs => "\x7b" ++ ", ".intercalate (pairTexts [] pairs).reverse ++ "\x7d"
  | function r => s!"CompiledFunction[params={r.parameters}, locals={r.locals}, {r.code.size} bytes]"
  | closure r captured => s!"Closure[params={r.parameters}, free={captured.length}]"
  | builtin b => "builtin " ++ b.name

def itemTexts (made : List String) : List Value → List String
  | [] => made
  | x :: xs => itemTexts (x.text :: made) xs

def pairTexts (made : List String) : List (Key × Value) → List String
  | [] => made
  | (k, x) :: ps => pairTexts ((k.text ++ ": " ++ x.text) :: made) ps

end

end Value
end StackScript
