import StackScript.Code.Instruction
import StackScript.Scope.SymbolTable

namespace StackScript

inductive CompileError where
  | naming (error : NameError) (span : Span)
  | assignConstant (name : String) (span : Span)
  | assignItself (name : String) (span : Span)
  | unknownOperator (operator : String) (span : Span)
  | tooMany (what : String) (limit : Nat) (span : Span)
deriving DecidableEq

namespace CompileError

def span : CompileError → Span
  | .naming _ s | .assignConstant _ s | .assignItself _ s | .unknownOperator _ s | .tooMany _ _ s => s

def message : CompileError → String
  | .naming error _ => error.message
  | .assignConstant name _ => s!"cannot assign to constant '{name}'"
  | .assignItself name _ => s!"cannot assign to '{name}' inside its own body"
  | .unknownOperator operator _ => s!"unknown operator: {operator}"
  | .tooMany what limit _ => s!"too many {what} (limit {limit})"

end CompileError

-- An instruction that the compiler could not write. A program is to blame only where an index outgrows its operand
-- before the limit on its kind is checked.
inductive Defect where
  | misfit (misfit : Misfit)
  | noJump (position : Nat)
deriving DecidableEq

def Defect.message : Defect → String
  | .misfit m => m.message
  | .noJump position => s!"no jump to backpatch at offset {position}"

end StackScript
