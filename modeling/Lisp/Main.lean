import Lisp.Program.Basic
import Lisp.World.Input
import Std.Time.DateTime.Timestamp

/-!
The command line. The program itself is a function of its arguments and of what lies outside; here
that is fetched when a run asks for it, and the run is started again.
-/

namespace Lisp.Program

/-- All the bytes of a stream. -/
partial def readBytes (stream : IO.FS.Stream) (bytes : ByteArray) : IO ByteArray := do
  let chunk ← stream.read 65536
  if chunk.isEmpty then return bytes else readBytes stream (bytes ++ chunk)

def faultOf : IO.Error → FileFault
  | .noFileOrDirectory _ _ _ => .missing
  | .inappropriateType name code details =>
    if code = 20 || code = -20 then .notDirectory
    else if code = 21 || code = -21 then .directory
    else .failed (toString (IO.Error.inappropriateType name code details))
  | e => .failed (toString e)

def fetchFile (path : String) : IO (Except FileFault String) := do
  try
    return fileText (← IO.FS.readBinFile path).toList
  catch e => return .error (faultOf e)

/-- Adds to the world what a run waits for. -/
def fetch (world : World) : Pause → IO World
  | .fuel => return world
  | .input => do
    let bytes ← readBytes (← IO.getStdin) .empty
    return { world with input := some (Input.ofBytes bytes.toList) }
  | .file path => do
    let content ← fetchFile path
    return { world with files := fun p => if p = path then some content else world.files p }

partial def executeFetching (o : Options) (world : World) : IO Result := do
  match execute o world with
  | .ok result => return result
  | .error pause => executeFetching o (← fetch world pause)

end Lisp.Program

def main (args : List String) : IO UInt32 := do
  match Lisp.Program.Options.parse args with
  | .error refusal =>
    IO.eprintln "Usage: [OPTIONS] [FILE] [ARGS]..."
    return refusal.exitCode.toUInt32
  | .ok options =>
    let now ← Std.Time.Timestamp.now
    let clock := Int64.ofInt now.toMillisecondsSinceUnixEpoch.toInt
    let result ← Lisp.Program.executeFetching options
      { input := none, files := fun _ => none, clock }
    IO.print result.output
    IO.eprint result.errors
    return result.exitCode.toUInt32
