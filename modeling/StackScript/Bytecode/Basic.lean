import StackScript.Code.Listing
import StackScript.Value.Basic

namespace StackScript

-- What a program is compiled to: its main code, and the constants that this code and the functions among them
-- refer to by number.
structure Bytecode where
  code : Code
  constants : Array Value
deriving Inhabited

namespace Bytecode

def same (a b : Bytecode) : Bool := a.code = b.code && Value.sameItems a.constants.toList b.constants.toList

def functions (b : Bytecode) : List (Nat × Routine) :=
  b.constants.toList.zipIdx.filterMap fun (v, n) =>
    match v with
    | .function r => some (n, r)
    | _ => none

def listing (b : Bytecode) : String :=
  b.functions.foldl (fun text (n, r) =>
      text ++ s!"\nfn constant {n} (params {r.parameters}, locals {r.locals}):\n" ++ r.code.listing)
    b.code.listing

end Bytecode
end StackScript
