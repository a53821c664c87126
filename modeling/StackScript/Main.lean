import StackScript.Command.Execute
import StackScript.Command.Obstacle

-- The command line on the files and streams of the process.
namespace StackScript.Process

def reasonOf (e : IO.Error) : String :=
  match e with
  | .noFileOrDirectory _ n _ | .permissionDenied _ n _ | .inappropriateType _ n _ | .invalidArgument _ n _ =>
    -- Some calls give the number negated.
    ((Obstacle.ofCode? (min n (0 - n)).toNat).map Obstacle.message).getD (toString e)
  | e => toString e

def host : Host IO where
  read path := do
    try return .ok (← IO.FS.readBinFile path).data.toList
    catch e => return .error (reasonOf e)
  write path bytes := do
    try
      IO.FS.writeBinFile path ⟨bytes.toArray⟩
      return .ok ()
    catch e => return .error (reasonOf e)

partial def readAll (stream : IO.FS.Stream) (read : ByteArray) : IO ByteArray := do
  let more ← stream.read 65536
  if more.isEmpty then return read else readAll stream (read ++ more)

end StackScript.Process

open StackScript Process in
def main (args : List String) : IO UInt32 := do
  let report ← match Command.ofArguments args with
    | none => pure Report.misuse
    | some command =>
      let input ← if command = .interact then readAll (← IO.getStdin) .empty else pure .empty
      command.execute host Machine.ample input.data.toList
  (← IO.getStdout).putStr report.output
  (← IO.getStderr).putStr report.errors
  return report.status.toUInt32
