import Decompiler.CommandLine.Answer

/-!
The program: it reads the path that the command line names and writes the answer.
-/

namespace Decompiler.CommandLine

def readFailure : IO.Error → ReadFailure
  | .noFileOrDirectory .. => .notFound
  | .permissionDenied .. => .denied
  | .inappropriateType _ 21 _ => .isDirectory
  | .inappropriateType .. => .notDirectory
  | error => .other (toString error)

def readPath (path : String) : IO (Except ReadFailure ByteArray) := do
  try
    if path = standardInput then
      return .ok (← (← IO.getStdin).readBinToEnd)
    else
      return .ok (← IO.FS.readBinFile path)
  catch error => return .error (readFailure error)

end Decompiler.CommandLine

open Decompiler.CommandLine

def main (args : List String) : IO UInt32 := do
  let answer ← respond readPath args
  IO.print answer.stdout
  IO.eprint answer.stderr
  return answer.exit.toUInt32
