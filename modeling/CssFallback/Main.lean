import CssFallback.Command.Run

/-!
# The program

Runs a command on the files and the streams of the system.
-/

set_option autoImplicit false

namespace CssFallback

namespace Program

/-- All bytes of a stream. -/
partial def readAll (stream : IO.FS.Stream) (read : ByteArray) : IO ByteArray := do
  let chunk ← stream.read 65536
  if chunk.isEmpty then return read else readAll stream (read ++ chunk)

def write (stream : IO.FS.Stream) (t : Text) : IO Unit := do
  stream.write t.toUtf8
  stream.flush

def fault (e : IO.Error) : Files.Fault :=
  match e with
  | .inappropriateType _ code _ => if code = 21 then .isDirectory else .notDirectory
  | _ => .notFound

instance : Host IO where
  readFile path := do
    try return .ok (← IO.FS.readBinFile (String.ofList path))
    catch e => return .error (fault e)
  takeInput := do readAll (← IO.getStdin) .empty
  print t := do write (← IO.getStdout) t
  writeFile path content := do
    try return .ok (← IO.FS.writeBinFile (String.ofList path) content)
    catch e => return .error (fault e)

end Program
end CssFallback

open CssFallback in
def main (arguments : List String) : IO UInt32 := do
  match ← (Command.perform (arguments.map String.toList) : ExceptT Failure IO Unit).run with
  | .ok () => return 0
  | .error failure =>
    Program.write (← IO.getStderr) failure.report
    return 1
