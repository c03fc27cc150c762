import ProcFlow.CommandLine.Run
/-!
# The program

Gives the program access to the files of the working directory.
-/

namespace ProcFlow

def FileFault.ofIO (e : IO.Error) : FileFault :=
  match e with
  | .noFileOrDirectory _ _ _ => .notFound
  | .inappropriateType _ 20 _ => .notDirectory
  | .inappropriateType _ 21 _ => .isDirectory
  | .invalidArgument _ 36 _ => .nameTooLong
  | e => .other e.toString

def realFiles : FileAccess IO where
  read path := do
    try return .ok (← IO.FS.readFile path)
    catch e => return .error (.ofIO e)
  write path text := do
    try
      IO.FS.writeFile path text
      return .ok ()
    catch e => return .error (.ofIO e)

end ProcFlow

def main (args : List String) : IO UInt32 := do
  let outcome ← ProcFlow.CommandLine.run ProcFlow.realFiles args
  IO.eprint outcome.errors
  IO.print outcome.output
  return outcome.exitCode.toUInt32
