import StackScript.Bytecode.File
import StackScript.Compiler.Error
import StackScript.Machine.Fault
import StackScript.Syntax.Cursor
import StackScript.Text.Position
import StackScript.Token.Scan

-- Everything that can go wrong between a source text and its result, and how it is reported.
namespace StackScript

inductive Failure where
  | token (e : LexError)
  | parse (errors : List ParseError)
  | compile (e : CompileError)
  | defect (d : Defect)
  | run (fault : Fault)
  | additionOverflow
  | unfinished -- the budget of a run was too small
  | load (e : LoadError)

namespace Failure

def message : Failure → String
  | .token e => e.message
  | .parse [] => "parse failed"
  | .parse [e] => e.text
  | .parse (e :: rest) => s!"{e.text} (and {rest.length} more)"
  | .compile e => e.message
  | .defect d => d.message
  | .run fault => fault.message
  | .additionOverflow => "attempt to add with overflow"
  | .unfinished => "step budget exhausted"
  | .load e => e.message

-- The text that is to blame. Faults of a run and of a file have none.
def span? : Failure → Option Span
  | .token e => some ⟨e.position, e.position + max 1 e.snippet.utf8ByteSize⟩
  | .parse errors => errors.head?.map ParseError.span
  | .compile e => some e.span
  | .defect _ | .run _ | .additionOverflow | .unfinished | .load _ => none

-- A report of several lines: the message, the place, the source line there, and carets below the text to blame.
-- Without such a text the message stands alone.
def render (e : Failure) (source : String) (file : Option String) : String :=
  let headline := s!"error: {e.message}\n"
  match e.span? with
  | none => headline
  | some span =>
    let position := Text.positionOf source span file
    let pad := Text.rule (toString position.line).length ' '
    let carets := Text.rule (position.column - 1) ' ' ++ Text.rule (Text.width source span) '^'
    headline ++ s!"{pad}--> {position.text}\n{pad} |\n" ++
      s!"{position.line} | {Text.lineText source position.line}\n{pad} | {carets}\n"

end Failure
end StackScript
